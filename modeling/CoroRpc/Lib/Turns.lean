import Mathlib.Order.Interval.Finset.Nat

namespace CoroRpc.Turns

variable {α β : Type}

def results (call : β → α × β) : Nat → β → List α
  | 0, _ => []
  | n + 1, b => (call b).1 :: results call n (call b).2

def window (call : β → α × β) (k n : Nat) (b : β) : List α := (results call (k + n) b).drop k

variable {call : β → α × β} {state : Nat → β} {g : Nat → α}

theorem results_eq (h : ∀ c, call (state c) = (g c, state (c + 1))) (n c : Nat) :
    results call n (state c) = (List.range' c n).map g := by
  induction n generalizing c with
  | zero => rfl
  | succ n ih => rw [results, h, List.range'_succ, List.map_cons, ih]

theorem window_eq (h : ∀ c, call (state c) = (g c, state (c + 1))) (k n : Nat) :
    window call k n (state 0) = (List.range n).map fun j => g (k + j) := by
  rw [window, results_eq h, ← List.map_drop, List.drop_range', Nat.add_sub_cancel_left, Nat.mul_one, Nat.zero_add,
    List.range'_eq_map_range, List.map_map]
  rfl

theorem results_fixed {b : β} {a : α} (h : call b = (a, b)) (n : Nat) : results call n b = List.replicate n a := by
  induction n with
  | zero => rfl
  | succ n ih => rw [results, h, ih, List.replicate_succ]

theorem perm_mod (k n : Nat) : ((List.range n).map fun j => (k + j) % n).Perm (List.range n) := by
  have hIco : Multiset.Ico k (k + n) = (List.range' k n : Multiset Nat) := by
    show ((List.range' k (k + n - k) : List Nat) : Multiset Nat) = _
    rw [Nat.add_sub_cancel_left]
  have h := Nat.multiset_Ico_map_mod k n
  rw [hIco, Multiset.map_coe, List.range'_eq_map_range, List.map_map] at h
  exact Multiset.coe_eq_coe.mp h

section Wrap

variable {k n m : Nat}

theorem mod_add_low {j : Nat} (hj : k % m + j < m) : (k + j) % m = k % m + j := by
  rw [← Nat.mod_add_mod, Nat.mod_eq_of_lt hj]

theorem mod_add_high {j : Nat} (hj : m ≤ k % m + j) (hj' : k % m + j < m + m) : (k + j) % m = k % m + j - m := by
  rw [← Nat.mod_add_mod, Nat.mod_eq_sub_mod hj, Nat.mod_eq_of_lt (by omega)]

theorem turn_before (hn : 0 < n) {r : Nat} (hr : k % m + r = m) {i : Nat} (hi : i < r) (him : i < m % n) :
    (k + (r - 1 - i)) % m % n = m % n - 1 - i := by
  have hdiv := Nat.div_add_mod m n
  have hcn : m % n < n := Nat.mod_lt m hn
  have hsum : k % m + (r - 1 - i) = n * (m / n) + (m % n - 1 - i) := by omega
  rw [mod_add_low (by omega), hsum, Nat.mul_add_mod, Nat.mod_eq_of_lt (by omega)]

theorem turn_behind {r : Nat} (hr : k % m + r = m) (hm : n ≤ m) {i : Nat} (hi : r + i < n) :
    (k + (r + i)) % m % n = i := by
  rw [mod_add_high (by omega) (by omega), Nat.mod_eq_of_lt (by omega)]
  omega

/-- A place gets two turns where the counter starts again. -/
theorem not_perm_mod_mod (hn : 0 < n) (hm : n ≤ m) (hwrap : ¬k % m + n ≤ m) (hdvd : ¬n ∣ m) :
    ¬((List.range n).map fun j => (k + j) % m % n).Perm (List.range n) := by
  intro h
  have hinj := List.inj_on_of_nodup_map (h.nodup_iff.mpr List.nodup_range)
  have hk : k % m < m := Nat.mod_lt k (by omega)
  have hc : m % n ≠ 0 := fun hzero => hdvd (Nat.dvd_of_mod_eq_zero hzero)
  have hcn : m % n < n := Nat.mod_lt m hn
  obtain ⟨r, hr⟩ : ∃ r, k % m + r = m := ⟨m - k % m, by omega⟩
  -- `r` turns come before and `n - r` behind; which place is met twice depends on which are more
  by_cases hle : m % n ≤ n - r
  · have heq : r - 1 - 0 = r + (m % n - 1) := by
      apply hinj (List.mem_range.mpr (by omega)) (List.mem_range.mpr (by omega))
      rw [turn_before hn hr (by omega) (by omega), turn_behind hr hm (by omega), Nat.sub_zero]
    omega
  · have heq : r - 1 - (m % n - (n - r)) = r + (n - r - 1) := by
      apply hinj (List.mem_range.mpr (by omega)) (List.mem_range.mpr (by omega))
      rw [turn_before hn hr (by omega) (by omega), turn_behind hr hm (by omega)]
      omega
    omega

/-- A counter below `m`, reduced modulo `n`, takes turns unless it starts again at zero in between; there
it does only where `n` divides `m`. -/
theorem perm_mod_mod_iff (hn : 0 < n) (hm : n ≤ m) :
    ((List.range n).map fun j => (k + j) % m % n).Perm (List.range n) ↔ k % m + n ≤ m ∨ n ∣ m := by
  constructor
  · intro h
    by_contra hnot
    obtain ⟨hwrap, hdvd⟩ := not_or.mp hnot
    exact not_perm_mod_mod hn hm hwrap hdvd h
  · intro h
    have hsame : ∀ j ∈ List.range n, (k + j) % m % n = (k % m + j) % n := by
      intro j hj
      have hjn := List.mem_range.mp hj
      rcases h with hroom | hdvd
      · rw [mod_add_low (by omega)]
      · rw [← Nat.mod_add_mod, Nat.mod_mod_of_dvd _ hdvd]
    rw [List.map_congr_left hsame]
    exact perm_mod (k % m) n

end Wrap

theorem exists_perm_table {table : List α} {k m : Nat} (hne : table ≠ []) (hm : k % m + table.length ≤ m) :
    ∃ read : List α, read.Perm table ∧
      (List.range table.length).map (fun j => table[(k + j) % m % table.length]?) = read.map some := by
  have hpos : 0 < table.length := List.length_pos_iff.mpr hne
  have hperm := (perm_mod_mod_iff (k := k) hpos (by omega)).mpr (.inl hm)
  have hget (i : Nat) (hi : i < table.length) : table[i]? = some (table.getD i (table.head hne)) := by
    rw [List.getD_eq_getElem?_getD, List.getElem?_eq_getElem hi, Option.getD_some]
  have hall : (List.range table.length).map (fun i => table.getD i (table.head hne)) = table := by
    apply List.ext_getElem (by simp)
    intro i _ hi
    rw [List.getElem_map, List.getElem_range, List.getD_eq_getElem?_getD, List.getElem?_eq_getElem hi,
      Option.getD_some]
  have hread := hperm.map fun i => table.getD i (table.head hne)
  rw [hall] at hread
  refine ⟨_, hread, ?_⟩
  rw [List.map_map, List.map_map]
  exact List.map_congr_left fun j _ => hget _ (Nat.mod_lt _ hpos)

end CoroRpc.Turns

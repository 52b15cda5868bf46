import Mathlib.Data.Nat.ModEq

/-! A table of `k` slots whose `m`-th write goes to slot `m % k`. -/

namespace CoroRpc.Recycle

variable {k n i m : Nat}

def Holds (k n i m : Nat) : Prop := 0 < m ∧ m ≤ n ∧ n < m + k ∧ m % k = i

theorem not_holds_zero : ¬Holds k 0 i m := by
  rintro ⟨hpos, hle, -⟩
  omega

theorem eq_of_mod_eq {a b : Nat} (hmod : a % k = b % k) (hle : a ≤ b) (hlt : b < a + k) : a = b := by
  have hdvd : k ∣ b - a := (Nat.modEq_iff_dvd' hle).mp hmod
  have hzero := Nat.eq_zero_of_dvd_of_lt hdvd (by omega)
  omega

theorem holds_succ (hk : 0 < k) :
    Holds k (n + 1) i m ↔ if i = (n + 1) % k then m = n + 1 else Holds k n i m := by
  rw [Holds]
  split
  · rename_i hi
    constructor
    · rintro ⟨-, hle, hlt, hmod⟩
      exact eq_of_mod_eq (hmod.trans hi) hle hlt
    · rintro rfl
      exact ⟨by omega, by omega, by omega, hi.symm⟩
  · rename_i hi
    constructor
    · rintro ⟨hpos, hle, hlt, hmod⟩
      have hne : m ≠ n + 1 := by
        rintro rfl
        exact hi hmod.symm
      exact ⟨hpos, by omega, by omega, hmod⟩
    · rintro ⟨hpos, hle, hlt, hmod⟩
      -- `m` is not the write that is about to be lost
      have hne : n + 1 ≠ m + k := by
        intro he
        rw [he, Nat.add_mod_right] at hi
        exact hi hmod.symm
      exact ⟨hpos, by omega, by omega, hmod⟩

theorem Holds.unique {m' : Nat} (h : Holds k n i m) (h' : Holds k n i m') : m = m' := by
  obtain ⟨-, hle, hlt, hmod⟩ := h
  obtain ⟨-, hle', hlt', hmod'⟩ := h'
  rcases Nat.le_total m m' with hmm | hmm
  · exact eq_of_mod_eq (hmod.trans hmod'.symm) hmm (by omega)
  · exact (eq_of_mod_eq (hmod'.trans hmod.symm) hmm (by omega)).symm

theorem exists_holds (hi : 0 < i) (hk : i < k) : (∃ m, Holds k n i m) ↔ i ≤ n := by
  constructor
  · rintro ⟨m, -, hle, -, hmod⟩
    exact (hmod ▸ Nat.mod_le m k).trans hle
  · intro hle
    have hlt := Nat.mod_lt (n - i) (Nat.zero_lt_of_lt hk)
    have hdiv := Nat.mod_add_div (n - i) k
    refine ⟨i + k * ((n - i) / k), by omega, by omega, by omega, ?_⟩
    rw [Nat.add_mul_mod_self_left, Nat.mod_eq_of_lt hk]

end CoroRpc.Recycle

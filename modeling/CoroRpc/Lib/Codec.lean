import CoroRpc.Lib.Words

namespace CoroRpc.Codec

variable {α β : Type}

inductive Result (α : Type)
  | failure (bytesRead : Nat)
  | success (bytesRead : Nat) (value : α)
  deriving DecidableEq

namespace Result

def map (f : α → β) : Result α → Result β
  | failure n => failure n
  | success n v => success n (f v)

def failed : Result α → Bool
  | failure _ => true
  | success _ _ => false

theorem failed_iff {r : Result α} : r.failed = true ↔ ∃ n, r = failure n := by
  cases r <;> simp [failed]

end Result

abbrev Decoder (α : Type) := Bytes → Result α

structure Reads (dec : Decoder α) (bs : Bytes) (v : α) : Prop where
  append : ∀ rest, dec (bs ++ rest) = .success bs.length v
  short : ∀ n < bs.length, (dec (bs.take n)).failed = true

theorem Reads.map {dec : Decoder α} {bs : Bytes} {v : α} (h : Reads dec bs v) (f : α → β) :
    Reads (fun data => (dec data).map f) bs (f v) := by
  constructor
  · intro rest
    simp only [h.append rest, Result.map]
  · intro n hn
    obtain ⟨k, hk⟩ := Result.failed_iff.mp (h.short n hn)
    simp only [hk, Result.map, Result.failed]

def items (dec : Decoder α) (data : Bytes) : Nat → Nat → List α → Result (List α)
  | 0, offset, acc => .success offset acc
  | n + 1, offset, acc =>
      match dec (data.drop offset) with
      | .failure _ => .failure 0
      | .success k v => items dec data n (offset + k) (acc ++ [v])

theorem items_append {dec : Decoder α} {enc : α → Bytes} (front : Bytes) (vs : List α)
    (h : ∀ v ∈ vs, Reads dec (enc v) v) (rest : Bytes) (acc : List α) :
    items dec (front ++ vs.flatMap enc ++ rest) vs.length front.length acc =
      .success (front ++ vs.flatMap enc).length (acc ++ vs) := by
  induction vs generalizing front acc with
  | nil => simp [items]
  | cons v vs ih =>
      have hd := (h v (by simp)).append (vs.flatMap enc ++ rest)
      have hi := ih (front ++ enc v) (fun w hw => h w (by simp [hw])) (acc ++ [v])
      rw [List.flatMap_cons, List.length_cons, items]
      simp only [List.append_assoc, List.drop_left, hd] at hi ⊢
      simpa using hi

theorem items_short {dec : Decoder α} {enc : α → Bytes} (front : Bytes) (vs : List α)
    (h : ∀ v ∈ vs, Reads dec (enc v) v) (n : Nat) (hn : n < (vs.flatMap enc).length) (acc : List α) :
    (items dec (front ++ (vs.flatMap enc).take n) vs.length front.length acc).failed = true := by
  induction vs generalizing front n acc with
  | nil => simp at hn
  | cons v vs ih =>
      have hv := h v (by simp)
      rw [List.length_cons, items, List.drop_left, List.flatMap_cons, List.take_append]
      by_cases hc : n < (enc v).length
      · -- the cut falls inside the first item
        have hz : n - (enc v).length = 0 := by omega
        rw [hz, List.take_zero, List.append_nil]
        obtain ⟨k, hk⟩ := Result.failed_iff.mp (hv.short n hc)
        simp only [hk, Result.failed]
      · have hle : (enc v).length ≤ n := Nat.not_lt.mp hc
        rw [List.take_of_length_le hle, hv.append]
        have hi := ih (front ++ enc v) (fun w hw => h w (by simp [hw])) (n - (enc v).length)
          (by simp only [List.flatMap_cons, List.length_append] at hn; omega) (acc ++ [v])
        simpa only [List.length_append, List.append_assoc] using hi

def counted (count : Decoder Nat) (dec : Decoder α) : Decoder (List α) := fun data =>
  match count data with
  | .failure _ => .failure 0
  | .success k n => items dec data n k []

theorem Reads.counted {count : Decoder Nat} {dec : Decoder α} {enc : α → Bytes}
    {head : Bytes} {vs : List α} (hc : Reads count head vs.length)
    (hd : ∀ v ∈ vs, Reads dec (enc v) v) :
    Reads (counted count dec) (head ++ vs.flatMap enc) vs := by
  constructor
  · intro rest
    have hi := items_append head vs hd rest []
    rw [List.nil_append] at hi
    simp only [Codec.counted, List.append_assoc, hc.append] at hi ⊢
    exact hi
  · intro n hn
    rw [List.take_append]
    by_cases hlt : n < head.length
    · have hz : n - head.length = 0 := by omega
      obtain ⟨k, hk⟩ := Result.failed_iff.mp (hc.short n hlt)
      rw [hz, List.take_zero, List.append_nil, Codec.counted, hk]
      rfl
    · rw [List.take_of_length_le (Nat.not_lt.mp hlt), Codec.counted, hc.append]
      rw [List.length_append] at hn
      exact items_short head vs hd (n - head.length) (by omega) []

structure Local (dec : Decoder α) : Prop where
  bound : ∀ {data : Bytes} {n : Nat} {v : α}, dec data = .success n v → n ≤ data.length
  keeps : ∀ {data : Bytes} {n : Nat} {v : α}, dec data = .success n v →
    ∀ rest, dec (data.take n ++ rest) = .success n v
  zero : ∀ {data : Bytes} {n : Nat}, dec data = .failure n → n = 0

/-- The decoder accepts no other bytes than those of `enc`. -/
def Canonical (enc : α → Bytes) (dec : Decoder α) : Prop :=
  ∀ {data : Bytes} {n : Nat} {v : α}, dec data = .success n v → enc v = data.take n

theorem Result.map_success {f : α → β} {r : Result α} {n : Nat} {w : β} (h : r.map f = .success n w) :
    ∃ v, r = .success n v ∧ w = f v := by
  cases r with
  | failure k => cases h
  | success k v =>
      cases h
      exact ⟨v, rfl, rfl⟩

theorem Result.map_failure {f : α → β} {r : Result α} {n : Nat} (h : r.map f = .failure n) : r = .failure n := by
  cases r with
  | failure k =>
      cases h
      rfl
  | success k v => cases h

theorem Local.map {dec : Decoder α} (h : Local dec) (f : α → β) : Local fun data => (dec data).map f := by
  constructor
  · intro data n w hs
    obtain ⟨v, hv, -⟩ := Result.map_success hs
    exact h.bound hv
  · intro data n w hs rest
    obtain ⟨v, hv, rfl⟩ := Result.map_success hs
    rw [h.keeps hv rest]
    rfl
  · intro data n hf
    exact h.zero (Result.map_failure hf)

theorem items_succ {dec : Decoder α} {data : Bytes} {count offset m : Nat} {acc vs : List α}
    (hs : items dec data (count + 1) offset acc = .success m vs) :
    ∃ k v, dec (data.drop offset) = .success k v ∧ items dec data count (offset + k) (acc ++ [v]) = .success m vs := by
  rw [items] at hs
  cases hdec : dec (data.drop offset) with
  | failure k =>
      rw [hdec] at hs
      cases hs
  | success k v =>
      rw [hdec] at hs
      exact ⟨k, v, rfl, hs⟩

/-- The offset never passes the end of the data, so that there is always something left to count from it. -/
theorem items_local {dec : Decoder α} (h : Local dec) {data : Bytes} {count offset m : Nat} {acc vs : List α}
    (hoff : offset ≤ data.length) (hs : items dec data count offset acc = .success m vs) :
    offset ≤ m ∧ m ≤ data.length ∧ ∀ rest, items dec (data.take m ++ rest) count offset acc = .success m vs := by
  induction count generalizing offset acc with
  | zero =>
      cases hs
      exact ⟨le_rfl, hoff, fun _ => rfl⟩
  | succ count ih =>
      obtain ⟨k, v, hdec, hs⟩ := items_succ hs
      have hk := h.bound hdec
      rw [List.length_drop] at hk
      obtain ⟨hle, hm, hrun⟩ := ih (by omega) hs
      refine ⟨by omega, hm, fun rest => ?_⟩
      have hdrop : (data.take m ++ rest).drop offset =
          (data.drop offset).take k ++ (((data.drop offset).take (m - offset)).drop k ++ rest) := by
        have hsplit := List.take_append_drop k ((data.drop offset).take (m - offset))
        rw [List.take_take, Nat.min_eq_left (by omega)] at hsplit
        rw [List.drop_append_of_le_length (by rw [List.length_take]; omega), List.drop_take,
          ← List.append_assoc, hsplit]
      rw [items, hdrop, h.keeps hdec]
      exact hrun rest

theorem items_canonical {dec : Decoder α} {enc : α → Bytes} (h : Local dec) (hc : Canonical enc dec) {data : Bytes}
    {count offset m : Nat} {acc vs : List α} (hoff : offset ≤ data.length)
    (hs : items dec data count offset acc = .success m vs) :
    ∃ ws, vs = acc ++ ws ∧ ws.length = count ∧ ws.flatMap enc = (data.take m).drop offset := by
  induction count generalizing offset acc with
  | zero =>
      cases hs
      refine ⟨[], by simp, rfl, ?_⟩
      rw [List.drop_eq_nil_of_le (by rw [List.length_take]; omega)]
      rfl
  | succ count ih =>
      obtain ⟨k, v, hdec, hs⟩ := items_succ hs
      have hk := h.bound hdec
      rw [List.length_drop] at hk
      obtain ⟨hle, hm, -⟩ := items_local h (by omega) hs
      obtain ⟨ws, rfl, hlen, hbytes⟩ := ih (by omega) hs
      refine ⟨v :: ws, by simp, by rw [List.length_cons, hlen], ?_⟩
      have hsplit := List.take_append_drop k ((data.take m).drop offset)
      rw [List.drop_take, List.take_take, Nat.min_eq_left (by omega), ← hc hdec, ← List.drop_take, List.drop_drop]
        at hsplit
      rw [List.flatMap_cons, hbytes, hsplit]

theorem counted_success {count : Decoder Nat} {dec : Decoder α} {data : Bytes} {m : Nat} {vs : List α}
    (hs : counted count dec data = .success m vs) :
    ∃ k n, count data = .success k n ∧ items dec data n k [] = .success m vs := by
  rw [counted] at hs
  cases hcount : count data with
  | failure k => rw [hcount] at hs; cases hs
  | success k n =>
      rw [hcount] at hs
      exact ⟨k, n, rfl, hs⟩

theorem items_failure {dec : Decoder α} {data : Bytes} {count offset n : Nat} {acc : List α}
    (hf : items dec data count offset acc = .failure n) : n = 0 := by
  induction count generalizing offset acc with
  | zero => cases hf
  | succ count ih =>
      rw [items] at hf
      split at hf
      · cases hf
        rfl
      · exact ih hf

theorem Local.counted {count : Decoder Nat} {dec : Decoder α} (hcount : Local count) (h : Local dec) :
    Local (counted count dec) := by
  constructor
  · intro data m vs hs
    obtain ⟨k, n, hk, hitems⟩ := counted_success hs
    exact (items_local h (hcount.bound hk) hitems).2.1
  · intro data m vs hs rest
    obtain ⟨k, n, hk, hitems⟩ := counted_success hs
    obtain ⟨hle, hm, hrun⟩ := items_local h (hcount.bound hk) hitems
    have hsplit := List.take_append_drop k (data.take m)
    rw [List.take_take, Nat.min_eq_left hle] at hsplit
    have hhead : count (data.take m ++ rest) = .success k n := by
      rw [← hsplit, List.append_assoc]
      exact hcount.keeps hk _
    rw [Codec.counted, hhead]
    exact hrun rest
  · intro data n hf
    rw [Codec.counted] at hf
    split at hf
    · cases hf
      rfl
    · exact items_failure hf

theorem Canonical.counted {count : Decoder Nat} {dec : Decoder α} {head : Nat → Bytes} {enc : α → Bytes}
    (hcount : Local count) (hhead : Canonical head count) (h : Local dec) (hc : Canonical enc dec) :
    Canonical (fun vs => head vs.length ++ vs.flatMap enc) (Codec.counted count dec) := by
  intro data m vs hs
  obtain ⟨k, n, hk, hitems⟩ := counted_success hs
  have hle := (items_local h (hcount.bound hk) hitems).1
  obtain ⟨ws, hvs, hlen, hbytes⟩ := items_canonical h hc (hcount.bound hk) hitems
  rw [List.nil_append] at hvs
  have hsplit := List.take_append_drop k (data.take m)
  rw [List.take_take, Nat.min_eq_left hle] at hsplit
  simp only [hvs, hlen, hbytes, hhead hk, hsplit]

/-- Among the values that meet `P`, what starts with an encoding starts with no other. -/
def PrefixFree (enc : α → Bytes) (P : α → Prop) : Prop :=
  ∀ ⦃a b : α⦄ ⦃r s : Bytes⦄, P a → P b → enc a ++ r = enc b ++ s → a = b ∧ r = s

theorem prefixFree_of_reads {enc : α → Bytes} {P : α → Prop} {dec : Decoder α} (h : ∀ v, P v → Reads dec (enc v) v) :
    PrefixFree enc P := by
  intro a b r s ha hb heq
  have hread : Result.success (enc a).length a = .success (enc b).length b := by
    rw [← (h a ha).append r, heq, (h b hb).append s]
  obtain ⟨-, rfl⟩ := Result.success.inj hread
  exact ⟨rfl, List.append_cancel_left heq⟩

theorem PrefixFree.pair {enc : α → Bytes} {enc' : β → Bytes} {P : α → Prop} {Q : β → Prop} (h : PrefixFree enc P)
    (h' : PrefixFree enc' Q) : PrefixFree (fun p : α × β => enc p.1 ++ enc' p.2) fun p => P p.1 ∧ Q p.2 := by
  intro a b r s ha hb heq
  rw [List.append_assoc, List.append_assoc] at heq
  obtain ⟨hfst, hrest⟩ := h ha.1 hb.1 heq
  obtain ⟨hsnd, hrest⟩ := h' ha.2 hb.2 hrest
  exact ⟨Prod.ext hfst hsnd, hrest⟩

theorem PrefixFree.comap {enc : α → Bytes} {P : α → Prop} (h : PrefixFree enc P) {f : β → α}
    (hf : Function.Injective f) : PrefixFree (fun b => enc (f b)) fun b => P (f b) := by
  intro a b r s ha hb heq
  obtain ⟨hab, hrest⟩ := h ha hb heq
  exact ⟨hf hab, hrest⟩

/-- The items alone are not prefix-free, but they are when it is known how many they are. -/
theorem PrefixFree.flatMap {enc : α → Bytes} {P : α → Prop} (h : PrefixFree enc P) {as bs : List α} {r s : Bytes}
    (hlen : as.length = bs.length) (ha : ∀ a ∈ as, P a) (hb : ∀ b ∈ bs, P b)
    (heq : as.flatMap enc ++ r = bs.flatMap enc ++ s) : as = bs ∧ r = s := by
  induction as generalizing bs with
  | nil =>
      cases bs with
      | nil => exact ⟨rfl, heq⟩
      | cons b bs => cases hlen
  | cons a as ih =>
      cases bs with
      | nil => cases hlen
      | cons b bs =>
          obtain ⟨hhead, htail⟩ := List.forall_mem_cons.mp ha
          obtain ⟨hhead', htail'⟩ := List.forall_mem_cons.mp hb
          rw [List.flatMap_cons, List.flatMap_cons, List.append_assoc, List.append_assoc] at heq
          obtain ⟨rfl, hrest⟩ := h hhead hhead' heq
          obtain ⟨rfl, hend⟩ := ih (Nat.succ.inj hlen) htail htail' hrest
          exact ⟨rfl, hend⟩

theorem PrefixFree.counted {head : Nat → Bytes} {C : Nat → Prop} {enc : α → Bytes} {P : α → Prop}
    (hhead : PrefixFree head C) (h : PrefixFree enc P) :
    PrefixFree (fun vs : List α => head vs.length ++ vs.flatMap enc) fun vs => C vs.length ∧ ∀ v ∈ vs, P v := by
  intro as bs r s ha hb heq
  rw [List.append_assoc, List.append_assoc] at heq
  obtain ⟨hlen, hitems⟩ := hhead ha.1 hb.1 heq
  exact h.flatMap hlen ha.2 hb.2 hitems

end CoroRpc.Codec

import CoroRpc.Lib.Codec
import CoroRpc.Lib.Memory

namespace CoroRpc.Reading

open Codec Memory

variable {α β : Type}

structure Traced (α : Type) where
  value : Option α
  reads : List Nat

instance : Monad Traced where
  pure value := ⟨some value, []⟩
  bind x f := ⟨x.value.bind fun v => (f v).value, x.reads ++ x.value.elim [] fun v => (f v).reads⟩

section

variable (x : Traced α) (f : α → Traced β) (v : α)

@[simp] theorem value_pure : (pure v : Traced α).value = some v := rfl

@[simp] theorem reads_pure : (pure v : Traced α).reads = [] := rfl

@[simp] theorem value_bind : (x >>= f).value = x.value.bind fun v => (f v).value := rfl

@[simp] theorem reads_bind : (x >>= f).reads = x.reads ++ x.value.elim [] fun v => (f v).reads := rfl

end

def load (mem : Mem) (a : Nat) : Traced UInt8 := ⟨some (mem a), [a]⟩

@[simp] theorem value_load (mem : Mem) (a : Nat) : (load mem a).value = some (mem a) := rfl

@[simp] theorem reads_load (mem : Mem) (a : Nat) : (load mem a).reads = [a] := rfl

def loads (mem : Mem) (a n : Nat) : Traced Bytes := ⟨some (slice mem a n), List.range' a n⟩

def reserve (grants : Nat → Nat → Bool) (a n : Nat) : Traced Unit := ⟨if grants a n then some () else none, []⟩

abbrev Reader (α : Type) := Mem → Nat → Nat → Traced (Result α)

/-- The reader reads the bytes behind its pointer one after the other from the first on, none of them twice and
none behind their end, and its value is what `dec` makes of those bytes; on success it reports how many it has
read. It throws only where an allocation is refused. -/
def Sequential (refused : Mem → Nat → Prop) (read : Reader α) (dec : Decoder α) : Prop :=
  ∀ mem data size, ∃ k ≤ size, (read mem data size).reads = List.range' data k ∧
    ((read mem data size).value = none ∧ refused mem (data + k) ∨
      (read mem data size).value = some (dec (slice mem data size)) ∧
        ∀ n v, dec (slice mem data size) = .success n v → n = k)

variable {refused : Mem → Nat → Prop}

theorem Sequential.map {read : Reader α} {dec : Decoder α} (h : Sequential refused read dec) (f : α → β) :
    Sequential refused (fun mem data size => do return (← read mem data size).map f) fun data => (dec data).map f := by
  intro mem data size
  obtain ⟨k, hk, hreads, ⟨hvalue, hrefused⟩ | ⟨hvalue, hcount⟩⟩ := h mem data size
  · exact ⟨k, hk, by simp [hreads, hvalue], .inl ⟨by simp [hvalue], hrefused⟩⟩
  · refine ⟨k, hk, by simp [hreads, hvalue], .inr ⟨by simp [hvalue], fun n w hs => ?_⟩⟩
    obtain ⟨v, hv, -⟩ := Result.map_success hs
    exact hcount n v hv

theorem drop_slice {size offset : Nat} (h : offset ≤ size) (mem : Mem) (data : Nat) :
    (slice mem data size).drop offset = slice mem (data + offset) (size - offset) := by
  obtain ⟨rest, rfl⟩ := Nat.exists_eq_add_of_le h
  rw [slice_add, List.drop_left' (length_slice ..), Nat.add_sub_cancel_left]

theorem take_slice {size len : Nat} (h : len ≤ size) (mem : Mem) (data : Nat) :
    (slice mem data size).take len = slice mem data len := by
  obtain ⟨rest, rfl⟩ := Nat.exists_eq_add_of_le h
  rw [slice_add, List.take_left' (length_slice ..)]

def itemsAt (read : Reader α) (mem : Mem) (data size : Nat) : Nat → Nat → List α → Traced (Result (List α))
  | 0, offset, acc => return .success offset acc
  | n + 1, offset, acc => do
      match ← read mem (data + offset) (size - offset) with
      | .failure _ => return .failure 0
      | .success k v => itemsAt read mem data size n (offset + k) (acc ++ [v])

def countedAt (grants : Nat → Nat → Bool) (count : Reader Nat) (read : Reader α) : Reader (List α) :=
  fun mem data size => do
    match ← count mem data size with
    | .failure _ => return .failure 0
    | .success k n => do
        reserve grants (data + k) n
        itemsAt read mem data size n k []

/-- The offset never passes the end, where `size - offset` would wrap around. -/
theorem items_sequential {read : Reader α} {dec : Decoder α} (h : Sequential refused read dec) (mem : Mem)
    (data : Nat) {size : Nat} (count : Nat) {offset : Nat} (hoff : offset ≤ size) (acc : List α) :
    let r := itemsAt read mem data size count offset acc
    let result := items dec (slice mem data size) count offset acc
    ∃ k ≤ size - offset, r.reads = List.range' (data + offset) k ∧
      (r.value = none ∧ refused mem (data + offset + k) ∨
        r.value = some result ∧ ∀ n vs, result = .success n vs → n = offset + k) := by
  induction count generalizing offset acc with
  | zero =>
      refine ⟨0, Nat.zero_le _, rfl, .inr ⟨rfl, fun n vs hs => ?_⟩⟩
      cases hs
      rfl
  | succ count ih =>
      obtain ⟨k, hk, hreads, ⟨hvalue, hrefused⟩ | ⟨hvalue, hcount⟩⟩ := h mem (data + offset) (size - offset)
      · simp only [itemsAt, value_bind, reads_bind, hvalue, hreads]
        exact ⟨k, hk, List.append_nil _, .inl ⟨rfl, hrefused⟩⟩
      · simp only [itemsAt, items, drop_slice hoff, value_bind, reads_bind, hvalue, hreads, Option.bind_some,
          Option.elim_some]
        cases hdec : dec (slice mem (data + offset) (size - offset)) with
        | failure n => exact ⟨k, hk, List.append_nil _, .inr ⟨rfl, fun n v hs => by cases hs⟩⟩
        | success n v =>
            obtain rfl := hcount n v hdec
            obtain ⟨k', hk', hreads', hrest⟩ := ih (show offset + n ≤ size by omega) (acc ++ [v])
            refine ⟨n + k', by omega, ?_, ?_⟩
            · rw [hreads', ← Nat.add_assoc, List.range'_append_1]
            · simpa only [Nat.add_assoc] using hrest

/-- Refused is only what a count claims that has just been read. -/
theorem Sequential.counted {grants : Nat → Nat → Bool} {count : Reader Nat} {read : Reader α}
    {countDec : Decoder Nat} {dec : Decoder α} (hc : Sequential refused count countDec)
    (h : Sequential refused read dec)
    (hgrants : ∀ mem data size k n, countDec (slice mem data size) = .success k n → grants (data + k) n = false →
      refused mem (data + k)) :
    Sequential refused (countedAt grants count read) (Codec.counted countDec dec) := by
  intro mem data size
  obtain ⟨k, hk, hreads, ⟨hvalue, hrefused⟩ | ⟨hvalue, hsuccess⟩⟩ := hc mem data size
  · simp only [countedAt, value_bind, reads_bind, hvalue, hreads]
    exact ⟨k, hk, List.append_nil _, .inl ⟨rfl, hrefused⟩⟩
  · simp only [countedAt, Codec.counted, value_bind, reads_bind, hvalue, hreads, Option.bind_some, Option.elim_some]
    cases hcount : countDec (slice mem data size) with
    | failure n => exact ⟨k, hk, List.append_nil _, .inr ⟨rfl, fun n v hs => by cases hs⟩⟩
    | success n len =>
        obtain rfl := hsuccess n len hcount
        cases hg : grants (data + n) len with
        | false =>
            refine ⟨n, hk, ?_, .inl ⟨?_, hgrants mem data size n len hcount hg⟩⟩
            · simp [reserve, hg]
            · simp [reserve, hg]
        | true =>
            obtain ⟨k', hk', hreads', hrest⟩ := items_sequential h mem data len hk []
            refine ⟨n + k', by omega, ?_, ?_⟩
            · simp [reserve, hg, hreads']
            · simpa [reserve, hg, Nat.add_assoc] using hrest

end CoroRpc.Reading

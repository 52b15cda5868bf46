import CoroRpc.Lib.Reading
import CoroRpc.Rpc.Canonicity

namespace CoroRpc.Serializer

open Codec Memory Reading Words

variable {α : Type}

def fixedAt (n : Nat) (read : Mem → Nat → Traced α) : Reader α := fun mem data size =>
  if size < n then return .failure 0 else return .success n (← read mem data)

def loadByte (w : Nat) (mem : Mem) (data i : Nat) : Traced (BitVec w) :=
  return (← load mem (data + i)).toBitVec.setWidth w

def decodeBoolAt : Reader Bool := fixedAt 1 fun mem data => return (← load mem data) != 0

def decodeInt8At : Reader Int8 := fixedAt 1 fun mem data => return (← load mem data).toInt8

def decodeUInt8At : Reader UInt8 := fixedAt 1 load

def decodeInt16At : Reader Int16 := fixedAt 2 fun mem data => do
  let value := (← loadByte 32 mem data 0) ||| (← loadByte 32 mem data 1) <<< 8
  return .ofBitVec (value.setWidth 16)

def decodeUInt16At : Reader UInt16 := fun mem data size => return (← decodeInt16At mem data size).map Int16.toUInt16

def decodeInt32At : Reader Int32 := fixedAt 4 fun mem data => do
  let value := (← loadByte 32 mem data 0) ||| (← loadByte 32 mem data 1) <<< 8 |||
    (← loadByte 32 mem data 2) <<< 16 ||| (← loadByte 32 mem data 3) <<< 24
  return .ofBitVec value

def decodeUInt32At : Reader UInt32 := fun mem data size => return (← decodeInt32At mem data size).map Int32.toUInt32

def decodeInt64At : Reader Int64 := fixedAt 8 fun mem data => do
  let value ← (List.range 8).foldlM (fun value i => return value ||| (← loadByte 64 mem data i) <<< (i * 8)) 0
  return .ofBitVec value

def decodeUInt64At : Reader UInt64 := fun mem data size => return (← decodeInt64At mem data size).map Int64.toUInt64

def decodeStringAt : Reader Bytes := fun mem data size => do
  match ← decodeUInt32At mem data size with
  | .failure _ => return .failure 0
  | .success k len =>
      if size < k + len.toNat then return .failure 0
      else return .success (k + len.toNat) (← loads mem (data + k) len.toNat)

def decodeVectorAt (grants : Nat → Nat → Bool) (decode : Reader α) : Reader (List α) :=
  countedAt grants (fun mem data size => return (← decodeUInt32At mem data size).map UInt32.toNat) decode

/-- The overloads of `BinarySerializer::decode` over the memory that `data` points into. `grants` says whether
`value.reserve(len)` gets its memory, by the address behind the count and the count. -/
def decodeAt (grants : Nat → Nat → Bool) : (t : Ty) → Reader t.Val
  | .bool => decodeBoolAt
  | .int8 => decodeInt8At
  | .uint8 => decodeUInt8At
  | .int16 => decodeInt16At
  | .uint16 => decodeUInt16At
  | .int32 => decodeInt32At
  | .uint32 | .float => decodeUInt32At
  | .int64 => decodeInt64At
  | .uint64 | .double => decodeUInt64At
  | .string => decodeStringAt
  | .vector t => decodeVectorAt grants (decodeAt grants t)

/-- The four bytes before `a` claim a count for which `reserve` gets no memory. -/
def Refused (grants : Nat → Nat → Bool) (mem : Mem) (a : Nat) : Prop :=
  ∃ data len, a = data + 4 ∧ decodeUInt32 (slice mem data 4) = .success 4 len ∧ grants a len.toNat = false

variable {refused : Mem → Nat → Prop}

theorem getD_slice {size i : Nat} (h : i < size) (mem : Mem) (data : Nat) :
    (slice mem data size).getD i 0 = mem (data + i) := by
  simp [slice, List.getD, h]

theorem fixed_sequential {n : Nat} {read : Mem → Nat → Traced α} {dec : Bytes → α}
    (hvalue : ∀ mem data size, n ≤ size → (read mem data).value = some (dec (slice mem data size)))
    (hreads : ∀ mem data, (read mem data).reads = List.range' data n) :
    Sequential refused (fixedAt n read) (fixed n dec) := by
  intro mem data size
  simp only [fixedAt, fixed, length_slice]
  split
  · exact ⟨0, Nat.zero_le _, rfl, .inr ⟨rfl, fun m v hs => by cases hs⟩⟩
  · next hn =>
      have hle := Nat.not_lt.mp hn
      refine ⟨n, hle, by simp [hreads, hvalue mem data size hle], .inr ⟨by simp [hvalue mem data size hle], ?_⟩⟩
      intro m v hs
      cases hs
      rfl

theorem loadByte_value {size i : Nat} (w : Nat) (h : i < size) (mem : Mem) (data : Nat) :
    (loadByte w mem data i).value = some (byteAt w (slice mem data size) i) := by
  rw [byteAt, getD_slice h]
  rfl

theorem decodeInt16_sequential : Sequential refused decodeInt16At decodeInt16 := by
  apply fixed_sequential
  · intro mem data size h
    have hbyte (i : Nat) (hi : i < 2) := loadByte_value 32 (show i < size by omega) mem data
    simp only [value_bind, value_pure, Option.bind_some, hbyte 0 (by omega), hbyte 1 (by omega)]
  · intro mem data
    rfl

theorem decodeInt32_sequential : Sequential refused decodeInt32At decodeInt32 := by
  apply fixed_sequential
  · intro mem data size h
    have hbyte (i : Nat) (hi : i < 4) := loadByte_value 32 (show i < size by omega) mem data
    simp only [value_bind, value_pure, Option.bind_some, hbyte 0 (by omega), hbyte 1 (by omega), hbyte 2 (by omega),
      hbyte 3 (by omega)]
  · intro mem data
    rfl

theorem foldlM_loadByte (mem : Mem) (data : Nat) (is : List Nat) (value : BitVec 64) :
    let x : Traced (BitVec 64) :=
      is.foldlM (fun value i => return value ||| (← loadByte 64 mem data i) <<< (i * 8)) value
    x.reads = is.map (data + ·) ∧
      ∀ size, (∀ i ∈ is, i < size) →
        x.value = some (is.foldl (fun value i => value ||| byteAt 64 (slice mem data size) i <<< (i * 8)) value) := by
  induction is generalizing value with
  | nil => exact ⟨rfl, fun size his => rfl⟩
  | cons i is ih =>
      obtain ⟨hreads, hvalue⟩ := ih (value ||| (mem (data + i)).toBitVec.setWidth 64 <<< (i * 8))
      refine ⟨congrArg (List.cons (data + i)) hreads, fun size his => ?_⟩
      have hbyte : (mem (data + i)).toBitVec.setWidth 64 = byteAt 64 (slice mem data size) i := by
        rw [byteAt, getD_slice (his i List.mem_cons_self)]
      have hrest := hvalue size fun j hj => his j (List.mem_cons_of_mem i hj)
      rw [hbyte] at hrest
      rw [List.foldl_cons, ← hrest, ← hbyte]
      rfl

theorem decodeInt64_sequential : Sequential refused decodeInt64At decodeInt64 := by
  apply fixed_sequential
  · intro mem data size h
    obtain ⟨-, hvalue⟩ := foldlM_loadByte mem data (List.range 8) 0
    simp only [value_bind, hvalue size fun i hi => (List.mem_range.mp hi).trans_le h, Option.bind_some, value_pure]
  · intro mem data
    obtain ⟨hreads, hvalue⟩ := foldlM_loadByte mem data (List.range 8) 0
    simp only [reads_bind, hreads, hvalue 8 fun i hi => List.mem_range.mp hi, Option.elim_some, reads_pure,
      List.append_nil, List.range'_eq_map_range]

theorem decodeUInt32_sequential : Sequential refused decodeUInt32At decodeUInt32 :=
  decodeInt32_sequential.map Int32.toUInt32

theorem decodeUInt32_value (mem : Mem) (data size : Nat) :
    (decodeUInt32At mem data size).value = some (decodeUInt32 (slice mem data size)) := by
  have hsequential : Sequential (fun _ _ => False) decodeUInt32At decodeUInt32 := decodeUInt32_sequential
  obtain ⟨k, -, -, ⟨-, hrefused⟩ | ⟨hvalue, -⟩⟩ := hsequential mem data size
  · exact hrefused.elim
  · exact hvalue

theorem decodeString_sequential : Sequential refused decodeStringAt decodeString := by
  intro mem data size
  have hsequential : Sequential refused decodeUInt32At decodeUInt32 := decodeUInt32_sequential
  obtain ⟨k, hk, hreads, ⟨hvalue, -⟩ | ⟨hvalue, hcount⟩⟩ := hsequential mem data size
  · rw [decodeUInt32_value] at hvalue
    cases hvalue
  · simp only [decodeStringAt, decodeString, value_bind, reads_bind, hvalue, hreads, length_slice, Option.bind_some,
      Option.elim_some]
    cases hlen : decodeUInt32 (slice mem data size) with
    | failure n => exact ⟨k, hk, List.append_nil _, .inr ⟨rfl, fun n v hs => by cases hs⟩⟩
    | success n len =>
        obtain rfl := hcount n len hlen
        dsimp only
        split
        · exact ⟨n, hk, List.append_nil _, .inr ⟨rfl, fun n v hs => by cases hs⟩⟩
        · next hlong =>
            refine ⟨n + len.toNat, Nat.not_lt.mp hlong, ?_, .inr ⟨?_, fun m v hs => ?_⟩⟩
            · simp [loads, List.range'_append_1]
            · rw [drop_slice (by omega), take_slice (by omega)]
              rfl
            · cases hs
              rfl

theorem refused_of_decodeUInt32 {grants : Nat → Nat → Bool} (mem : Mem) (data size k n : Nat)
    (h : (decodeUInt32 (slice mem data size)).map UInt32.toNat = .success k n) (hg : grants (data + k) n = false) :
    Refused grants mem (data + k) := by
  obtain ⟨len, hlen, rfl⟩ := Result.map_success h
  obtain ⟨v, hv, -⟩ := Result.map_success hlen
  obtain ⟨hle, rfl, -⟩ := fixed_success hv
  have hkeeps := decodeUInt32_local.keeps hlen []
  rw [length_slice] at hle
  rw [List.append_nil, take_slice hle] at hkeeps
  exact ⟨data, len, rfl, hkeeps, hg⟩

theorem decode_sequential (grants : Nat → Nat → Bool) (t : Ty) :
    Sequential (Refused grants) (decodeAt grants t) (decode t) := by
  induction t with
  | bool | int8 | uint8 =>
      apply fixed_sequential
      · intro mem data size h
        simp only [value_bind, value_pure, value_load, getD_slice h, Nat.add_zero]
        rfl
      · intro mem data
        rfl
  | int16 => exact decodeInt16_sequential
  | uint16 => exact decodeInt16_sequential.map Int16.toUInt16
  | int32 => exact decodeInt32_sequential
  | uint32 | float => exact decodeUInt32_sequential
  | int64 => exact decodeInt64_sequential
  | uint64 | double => exact decodeInt64_sequential.map Int64.toUInt64
  | string => exact decodeString_sequential
  | vector t ih => exact (decodeUInt32_sequential.map UInt32.toNat).counted ih refused_of_decodeUInt32

/-- Whatever the bytes are and whatever counts they claim, `decode` reads the bytes from `data` on one after the
other, none of them twice and none behind `size`. Unless `reserve` throws, for a count that has just been read,
it reports what `decode` makes of those bytes, and on success it has read as many as it reports. -/
theorem decode_reads_in_order (grants : Nat → Nat → Bool) (t : Ty) (mem : Mem) (data size : Nat) :
    let r := decodeAt grants t mem data size
    ∃ k ≤ size, r.reads = List.range' data k ∧
      (r.value = none ∧ Refused grants mem (data + k) ∨
        r.value = some (decode t (slice mem data size)) ∧
          ∀ n v, decode t (slice mem data size) = .success n v → n = k) :=
  decode_sequential grants t mem data size

/-- The count promises two strings, of which the first is longer than what is left. -/
example : (decodeAt (fun _ _ => true) (.vector .string) (ofList [2, 0, 0, 0, 9, 0, 0, 0, 65] fun _ => 0) 0 9).reads =
    List.range 8 := by
  decide

end CoroRpc.Serializer

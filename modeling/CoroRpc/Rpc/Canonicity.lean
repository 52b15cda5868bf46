import CoroRpc.Rpc.Serializer

namespace CoroRpc.Serializer

open Codec Words

variable {α : Type}

theorem fixed_success {n m : Nat} {read : Bytes → α} {data : Bytes} {v : α}
    (h : fixed n read data = .success m v) : n ≤ data.length ∧ m = n ∧ v = read data := by
  rw [fixed] at h
  split at h
  · cases h
  · cases h
    exact ⟨by omega, rfl, rfl⟩

theorem getD_take_append {data : Bytes} {n i : Nat} (hn : n ≤ data.length) (hi : i < n) (rest : Bytes) :
    (data.take n ++ rest).getD i 0 = data.getD i 0 := by
  have hlen : i < (data.take n).length := by
    rw [List.length_take]
    omega
  rw [List.getD_append _ _ _ _ hlen]
  simp [List.getD, hi]

theorem fixed_local {n : Nat} {read : Bytes → α}
    (h : ∀ a b : Bytes, (∀ i < n, a.getD i 0 = b.getD i 0) → read a = read b) : Local (fixed n read) := by
  constructor
  · intro data m v hs
    obtain ⟨hn, rfl, -⟩ := fixed_success hs
    exact hn
  · intro data m v hs rest
    obtain ⟨hn, rfl, rfl⟩ := fixed_success hs
    have hlen : ¬ (data.take m ++ rest).length < m := by
      rw [List.length_append, List.length_take]
      omega
    rw [fixed, if_neg hlen, h _ data fun i hi => getD_take_append hn hi rest]
  · intro data m hf
    rw [fixed] at hf
    split at hf
    · cases hf
      rfl
    · cases hf

theorem decodeInt16_local : Local decodeInt16 := by
  apply fixed_local
  intro a b h
  simp only [byteAt, h 0 (by omega), h 1 (by omega)]

theorem decodeInt32_local : Local decodeInt32 := by
  apply fixed_local
  intro a b h
  simp only [byteAt, h 0 (by omega), h 1 (by omega), h 2 (by omega), h 3 (by omega)]

theorem decodeInt64_local : Local decodeInt64 := by
  apply fixed_local
  intro a b h
  congr 1
  apply List.foldl_ext
  intro v i hi
  rw [byteAt, byteAt, h i (List.mem_range.mp hi)]

theorem decodeUInt32_local : Local decodeUInt32 := decodeInt32_local.map Int32.toUInt32

theorem decodeString_success {data : Bytes} {n : Nat} {v : Bytes} (h : decodeString data = .success n v) :
    ∃ k len, decodeUInt32 data = .success k len ∧ n = k + len.toNat ∧ n ≤ data.length ∧
      v = (data.drop k).take len.toNat := by
  rw [decodeString] at h
  cases hlen : decodeUInt32 data with
  | failure k =>
      rw [hlen] at h
      cases h
  | success k len =>
      simp only [hlen] at h
      split at h
      · cases h
      · cases h
        exact ⟨k, len, rfl, rfl, by omega, rfl⟩

theorem decodeString_local : Local decodeString := by
  constructor
  · intro data n v hs
    obtain ⟨k, len, -, -, hn, -⟩ := decodeString_success hs
    exact hn
  · intro data n v hs rest
    obtain ⟨k, len, hlen, hk, hn, rfl⟩ := decodeString_success hs
    have hsplit := List.take_append_drop k (data.take n)
    rw [List.take_take, Nat.min_eq_left (by omega), List.drop_take] at hsplit
    have hhead : decodeUInt32 (data.take n ++ rest) = .success k len := by
      rw [← hsplit, List.append_assoc]
      exact decodeUInt32_local.keeps hlen _
    have htext : ((data.take n ++ rest).drop k).take len.toNat = (data.drop k).take len.toNat := by
      rw [List.drop_append_of_le_length (by rw [List.length_take]; omega), List.drop_take,
        List.take_append_of_le_length (by rw [List.length_take, List.length_drop]; omega), List.take_take,
        Nat.min_eq_left (by omega)]
    have hlong : ¬ (data.take n ++ rest).length < k + len.toNat := by
      rw [List.length_append, List.length_take]
      omega
    simp only [decodeString, hhead]
    rw [if_neg hlong, htext, hk]
  · intro data n hf
    rw [decodeString] at hf
    split at hf
    · cases hf
      rfl
    · split at hf
      · cases hf
        rfl
      · cases hf

theorem decode_local (t : Ty) : Local (decode t) := by
  induction t with
  | bool | int8 | uint8 =>
      apply fixed_local
      intro a b h
      rw [h 0 (by omega)]
  | int16 => exact decodeInt16_local
  | uint16 => exact decodeInt16_local.map Int16.toUInt16
  | int32 => exact decodeInt32_local
  | uint32 | float => exact decodeUInt32_local
  | int64 => exact decodeInt64_local
  | uint64 | double => exact decodeInt64_local.map Int64.toUInt64
  | string => exact decodeString_local
  | vector t ih => exact (decodeUInt32_local.map UInt32.toNat).counted ih

theorem take_eq_map_getD {data : Bytes} {n : Nat} (h : n ≤ data.length) :
    data.take n = (List.range n).map fun i => data.getD i 0 := by
  apply List.ext_getElem
  · rw [List.length_take, List.length_map, List.length_range]
    omega
  · intro i hi hi'
    rw [List.length_take] at hi
    have hlt : i < data.length := by omega
    simp [List.getD, hlt]

theorem fixed_canonical {n : Nat} {read : Bytes → α} {enc : α → Bytes}
    (h : ∀ data : Bytes, enc (read data) = (List.range n).map fun i => data.getD i 0) :
    Canonical enc (fixed n read) := by
  intro data m v hs
  obtain ⟨hn, rfl, rfl⟩ := fixed_success hs
  rw [h, take_eq_map_getD hn]

theorem decodeInt16_canonical : Canonical (encodeInt16 []) decodeInt16 := by
  apply fixed_canonical
  intro data
  have hor : (byteAt 32 data 0 ||| byteAt 32 data 1 <<< 8).setWidth 16 = orBytes 16 (fun i => data.getD i 0) 2 := by
    rw [← setWidth_orBytes (w := 32) _ _ (by omega)]
    simp [orBytes, byteAt, List.range_succ]
  have hbyte (i : Nat) (hi : i < 2) :
      shiftByte ((orBytes 16 (fun i => data.getD i 0) 2).signExtend 32) i = data.getD i 0 := by
    rw [shiftByte_eq_byte _ _ (by omega), byte_signExtend _ _ (by omega) (by omega), byte_orBytes _ hi (by omega)]
  rw [hor]
  exact List.map_congr_left fun i hi => hbyte i (List.mem_range.mp hi)

theorem decodeInt32_canonical : Canonical (encodeInt32 []) decodeInt32 := by
  apply fixed_canonical
  intro data
  have hor : (byteAt 32 data 0 ||| byteAt 32 data 1 <<< 8 ||| byteAt 32 data 2 <<< 16 ||| byteAt 32 data 3 <<< 24) =
      orBytes 32 (fun i => data.getD i 0) 4 := by
    simp [orBytes, byteAt, List.range_succ]
  have hbyte (i : Nat) (hi : i < 4) : shiftByte (orBytes 32 (fun i => data.getD i 0) 4) i = data.getD i 0 := by
    rw [shiftByte_eq_byte _ _ (by omega), byte_orBytes _ hi (by omega)]
  rw [hor]
  exact List.map_congr_left fun i hi => hbyte i (List.mem_range.mp hi)

theorem decodeInt64_canonical : Canonical (encodeInt64 []) decodeInt64 := by
  apply fixed_canonical
  intro data
  have hor : ((List.range 8).foldl (fun v i => v ||| byteAt 64 data i <<< (i * 8)) 0) =
      orBytes 64 (fun i => data.getD i 0) 8 := by
    simp [orBytes, byteAt, Nat.mul_comm]
  have hbyte (i : Nat) (hi : i < 8) : shiftByte (orBytes 64 (fun i => data.getD i 0) 8) i = data.getD i 0 := by
    rw [shiftByte_eq_byte _ _ (by omega), byte_orBytes _ hi (by omega)]
  rw [hor]
  exact List.map_congr_left fun i hi => hbyte i (List.mem_range.mp hi)

theorem decodeUInt32_canonical : Canonical (encodeUInt32 []) decodeUInt32 := by
  intro data n v hs
  obtain ⟨w, hw, rfl⟩ := Result.map_success hs
  exact decodeInt32_canonical hw

theorem decodeCount_canonical :
    Canonical (fun n => encodeUInt32 [] (.ofNat n)) fun data => (decodeUInt32 data).map UInt32.toNat := by
  intro data n len hs
  obtain ⟨w, hw, rfl⟩ := Result.map_success hs
  simp only [UInt32.ofNat_toNat]
  exact decodeUInt32_canonical hw

theorem decodeString_canonical : Canonical (encodeString []) decodeString := by
  intro data n v hs
  obtain ⟨k, len, hlen, hk, hn, rfl⟩ := decodeString_success hs
  have hsize : ((data.drop k).take len.toNat).length = len.toNat := by
    rw [List.length_take, List.length_drop]
    omega
  rw [encodeString, hsize, UInt32.ofNat_toNat, decodeUInt32_canonical hlen, hk, List.take_add]

def Ty.noBool : Ty → Bool
  | .bool => false
  | .vector t => t.noBool
  | _ => true

theorem decode_canonical (t : Ty) (h : t.noBool = true) : Canonical (serialize t) (decode t) := by
  induction t with
  | bool => cases h
  | int8 =>
      apply fixed_canonical
      intro data
      exact congrArg (fun b => [b]) (UInt8.toUInt8_toInt8 (data.getD 0 0))
  | uint8 =>
      apply fixed_canonical
      intro data
      rfl
  | int16 => exact decodeInt16_canonical
  | uint16 =>
      intro data n v hs
      obtain ⟨w, hw, rfl⟩ := Result.map_success hs
      exact decodeInt16_canonical hw
  | int32 => exact decodeInt32_canonical
  | uint32 | float => exact decodeUInt32_canonical
  | int64 => exact decodeInt64_canonical
  | uint64 | double =>
      intro data n v hs
      obtain ⟨w, hw, rfl⟩ := Result.map_success hs
      exact decodeInt64_canonical hw
  | string => exact decodeString_canonical
  | vector t ih =>
      intro data n v hs
      have hcounted := decodeCount_canonical.counted (decodeUInt32_local.map UInt32.toNat) (decode_local t) (ih h) hs
      exact (encodeVector_eq (encode_appends t) [] v).trans hcounted

/-- Whatever the input, an accepted value lies inside it, is decided by its bytes alone and, unless it holds a
`bool`, is encoded by no other bytes; a refusal reports nothing read. -/
theorem decode_exact (t : Ty) (data : Bytes) :
    (∀ n v, decode t data = .success n v →
      n ≤ data.length ∧ (∀ rest, decode t (data.take n ++ rest) = .success n v) ∧
        (t.noBool = true → serialize t v = data.take n)) ∧
      ∀ n, decode t data = .failure n → n = 0 := by
  refine ⟨fun n v hs => ⟨(decode_local t).bound hs, (decode_local t).keeps hs, fun h => ?_⟩, fun n hf => ?_⟩
  · exact decode_canonical t h hs
  · exact (decode_local t).zero hf

theorem decode_exact_string :
    decode (.vector .string) [1, 0, 0, 0, 2, 0, 0, 0, 104, 105, 9] = .success 10 [[104, 105]] ∧
      serialize (.vector .string) [[104, 105]] = [1, 0, 0, 0, 2, 0, 0, 0, 104, 105] :=
  have hs : decode (.vector .string) [1, 0, 0, 0, 2, 0, 0, 0, 104, 105, 9] = .success 10 [[104, 105]] := rfl
  ⟨hs, ((decode_exact (.vector .string) _).1 10 [[104, 105]] hs).2.2 rfl⟩

/-- A `bool` is where two encodings meet: any byte but `0` is read as `true`, which is written as `1`. -/
example : decode .bool [2] = .success 1 true ∧ serialize .bool true = [1] := ⟨rfl, rfl⟩

end CoroRpc.Serializer

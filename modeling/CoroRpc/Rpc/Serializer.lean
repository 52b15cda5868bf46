import CoroRpc.Lib.Codec
import CoroRpc.Lib.Words

namespace CoroRpc.Serializer

open Codec Words

inductive Ty
  | bool | int8 | uint8 | int16 | uint16 | int32 | uint32 | int64 | uint64
  | float | double | string
  | vector (elem : Ty)
  deriving DecidableEq, Repr

/-- A floating-point value is its bit pattern; both overloads only move the bits. -/
def Ty.Val : Ty → Type
  | .bool => Bool
  | .int8 => Int8
  | .uint8 => UInt8
  | .int16 => Int16
  | .uint16 => UInt16
  | .int32 => Int32
  | .uint32 => UInt32
  | .int64 => Int64
  | .uint64 => UInt64
  | .float => UInt32
  | .double => UInt64
  | .string => Bytes
  | .vector t => List t.Val

def encodeBool (buffer : Bytes) (value : Bool) : Bytes := buffer ++ [if value then 1 else 0]

def encodeInt8 (buffer : Bytes) (value : Int8) : Bytes := buffer ++ [value.toUInt8]

def encodeUInt8 (buffer : Bytes) (value : UInt8) : Bytes := buffer ++ [value]

def encodeInt16 (buffer : Bytes) (value : Int16) : Bytes :=
  -- the operands of `>>` and `&` are promoted to `int`
  buffer ++ [shiftByte value.toInt32.toBitVec 0] ++ [shiftByte value.toInt32.toBitVec 1]

def encodeUInt16 (buffer : Bytes) (value : UInt16) : Bytes := encodeInt16 buffer value.toInt16

def encodeInt32 (buffer : Bytes) (value : Int32) : Bytes :=
  buffer ++ [shiftByte value.toBitVec 0] ++ [shiftByte value.toBitVec 1] ++
    [shiftByte value.toBitVec 2] ++ [shiftByte value.toBitVec 3]

def encodeUInt32 (buffer : Bytes) (value : UInt32) : Bytes := encodeInt32 buffer value.toInt32

def encodeInt64 (buffer : Bytes) (value : Int64) : Bytes :=
  (List.range 8).foldl (fun buffer i => buffer ++ [shiftByte value.toBitVec i]) buffer

def encodeUInt64 (buffer : Bytes) (value : UInt64) : Bytes := encodeInt64 buffer value.toInt64

def encodeString (buffer : Bytes) (value : Bytes) : Bytes :=
  encodeUInt32 buffer (.ofNat value.length) ++ value

def encodeVector {α : Type} (encode : Bytes → α → Bytes) (buffer : Bytes) (value : List α) : Bytes :=
  value.foldl encode (encodeUInt32 buffer (.ofNat value.length))

def encode : (t : Ty) → Bytes → t.Val → Bytes
  | .bool => encodeBool
  | .int8 => encodeInt8
  | .uint8 => encodeUInt8
  | .int16 => encodeInt16
  | .uint16 => encodeUInt16
  | .int32 => encodeInt32
  | .uint32 | .float => encodeUInt32
  | .int64 => encodeInt64
  | .uint64 | .double => encodeUInt64
  | .string => encodeString
  | .vector t => encodeVector (encode t)

def serialize (t : Ty) (value : t.Val) : Bytes := encode t [] value

def fixed {α : Type} (n : Nat) (read : Bytes → α) : Decoder α := fun data =>
  if data.length < n then .failure 0 else .success n (read data)

def byteAt (w : Nat) (data : Bytes) (i : Nat) : BitVec w := (data.getD i 0).toBitVec.setWidth w

def decodeInt16 : Decoder Int16 :=
  fixed 2 fun data => .ofBitVec ((byteAt 32 data 0 ||| byteAt 32 data 1 <<< 8).setWidth 16)

def decodeInt32 : Decoder Int32 :=
  fixed 4 fun data => .ofBitVec (byteAt 32 data 0 ||| byteAt 32 data 1 <<< 8 |||
    byteAt 32 data 2 <<< 16 ||| byteAt 32 data 3 <<< 24)

def decodeUInt32 : Decoder UInt32 := fun data => (decodeInt32 data).map Int32.toUInt32

def decodeInt64 : Decoder Int64 :=
  fixed 8 fun data => .ofBitVec
    ((List.range 8).foldl (fun value i => value ||| byteAt 64 data i <<< (i * 8)) 0)

def decodeUInt64 : Decoder UInt64 := fun data => (decodeInt64 data).map Int64.toUInt64

def decodeBool : Decoder Bool := fixed 1 fun data => data.getD 0 0 != 0

def decodeInt8 : Decoder Int8 := fixed 1 fun data => (data.getD 0 0).toInt8

def decodeUInt8 : Decoder UInt8 := fixed 1 fun data => data.getD 0 0

def decodeUInt16 : Decoder UInt16 := fun data => (decodeInt16 data).map Int16.toUInt16

def decodeString : Decoder Bytes := fun data =>
  match decodeUInt32 data with
  | .failure _ => .failure 0
  | .success k len =>
      if data.length < k + len.toNat then .failure 0
      else .success (k + len.toNat) ((data.drop k).take len.toNat)

-- `value.reserve(len)` is taken to get its memory
def decodeVector {α : Type} (decode : Decoder α) : Decoder (List α) :=
  counted (fun data => (decodeUInt32 data).map UInt32.toNat) decode

/-- The overloads of `BinarySerializer::decode`. The destination of a failed call is
left unspecified, so only a success carries a value. -/
def decode : (t : Ty) → Decoder t.Val
  | .bool => decodeBool
  | .int8 => decodeInt8
  | .uint8 => decodeUInt8
  | .int16 => decodeInt16
  | .uint16 => decodeUInt16
  | .int32 => decodeInt32
  | .uint32 | .float => decodeUInt32
  | .int64 => decodeInt64
  | .uint64 | .double => decodeUInt64
  | .string => decodeString
  | .vector t => decodeVector (decode t)

/-- Every string and vector inside the value has a size that fits its `uint32_t` count. -/
def Sized : (t : Ty) → t.Val → Prop
  | .string => fun value : Bytes => value.length < 2 ^ 32
  | .vector t => fun value : List t.Val => value.length < 2 ^ 32 ∧ ∀ item ∈ value, Sized t item
  | _ => fun _ => True

def Appends {α : Type} (encode : Bytes → α → Bytes) : Prop :=
  ∀ buffer value, encode buffer value = buffer ++ encode [] value

theorem encodeInt32_appends : Appends encodeInt32 := by
  intro buffer value
  simp [encodeInt32]

theorem encodeInt64_appends : Appends encodeInt64 := by
  intro buffer value
  simp [encodeInt64, List.range_succ]

theorem encodeUInt32_appends : Appends encodeUInt32 :=
  fun buffer value => encodeInt32_appends buffer value.toInt32

theorem foldl_appends {α : Type} {encode : Bytes → α → Bytes} (h : Appends encode) (buffer : Bytes)
    (values : List α) : values.foldl encode buffer = buffer ++ values.flatMap (encode []) := by
  induction values generalizing buffer with
  | nil => simp
  | cons v vs ih => rw [List.foldl_cons, ih, h buffer v, List.flatMap_cons, List.append_assoc]

theorem encodeVector_eq {α : Type} {encode : Bytes → α → Bytes} (h : Appends encode) (buffer : Bytes)
    (values : List α) : encodeVector encode buffer values =
      buffer ++ (encodeUInt32 [] (.ofNat values.length) ++ values.flatMap (encode [])) := by
  rw [encodeVector, foldl_appends h, encodeUInt32_appends buffer, List.append_assoc]

theorem encodeString_appends : Appends encodeString := by
  intro buffer value
  rw [encodeString, encodeString, encodeUInt32_appends buffer, List.append_assoc]

theorem encodeVector_appends {α : Type} {encode : Bytes → α → Bytes} (h : Appends encode) :
    Appends (encodeVector encode) := by
  intro buffer value
  rw [encodeVector_eq h buffer, encodeVector_eq h [], List.nil_append]

theorem encode_appends (t : Ty) : Appends (encode t) := by
  induction t with
  | bool | int8 | uint8 => intro buffer value; rfl
  | int16 | uint16 => intro buffer value; simp [encode, encodeUInt16, encodeInt16]
  | int32 => exact encodeInt32_appends
  | uint32 | float => exact encodeUInt32_appends
  | int64 => exact encodeInt64_appends
  | uint64 | double => exact fun buffer value => encodeInt64_appends buffer (UInt64.toInt64 value)
  | string => exact encodeString_appends
  | vector t ih => exact encodeVector_appends ih

theorem fixed_reads {α : Type} {n : Nat} {read : Bytes → α} {bs : Bytes} {v : α} (hl : bs.length = n)
    (hr : ∀ rest, read (bs ++ rest) = v) : Reads (fixed n read) bs v := by
  constructor
  · intro rest
    have hn : ¬ (bs ++ rest).length < n := by
      rw [List.length_append]
      omega
    simp only [fixed, hn, if_false, hr, hl]
  · intro k hk
    have hn : (bs.take k).length < n := by
      rw [List.length_take]
      omega
    simp only [fixed, hn, if_true, Result.failed]

theorem decodeInt16_reads (value : Int16) : Reads decodeInt16 (encodeInt16 [] value) value := by
  refine fixed_reads rfl fun rest => ?_
  have hb (i : Nat) (hi : i < 2) :
      shiftByte (value.toBitVec.signExtend 32) i = byte value.toBitVec i := by
    rw [shiftByte_eq_byte _ _ (by omega), byte_signExtend _ _ (by omega) (by omega)]
  have hor : (byteAt 32 (encodeInt16 [] value ++ rest) 0 |||
      byteAt 32 (encodeInt16 [] value ++ rest) 1 <<< 8).setWidth 16 =
      orBytes 16 (fun i => (encodeInt16 [] value ++ rest).getD i 0) 2 := by
    rw [← setWidth_orBytes (w := 32) _ _ (by omega)]
    simp [orBytes, byteAt, List.range_succ]
  rw [hor, orBytes_byte (by omega) value.toBitVec]
  · rfl
  · intro i hi
    interval_cases i
    · simp [encodeInt16, hb]
    · simp [encodeInt16, hb]

theorem decodeInt32_reads (value : Int32) : Reads decodeInt32 (encodeInt32 [] value) value := by
  refine fixed_reads rfl fun rest => ?_
  have hor : (byteAt 32 (encodeInt32 [] value ++ rest) 0 |||
      byteAt 32 (encodeInt32 [] value ++ rest) 1 <<< 8 |||
      byteAt 32 (encodeInt32 [] value ++ rest) 2 <<< 16 |||
      byteAt 32 (encodeInt32 [] value ++ rest) 3 <<< 24) =
      orBytes 32 (fun i => (encodeInt32 [] value ++ rest).getD i 0) 4 := by
    simp [orBytes, byteAt, List.range_succ]
  rw [hor, orBytes_byte (by omega) value.toBitVec]
  · rfl
  · intro i hi
    interval_cases i <;> simp [encodeInt32, shiftByte_eq_byte]

theorem decodeInt64_reads (value : Int64) : Reads decodeInt64 (encodeInt64 [] value) value := by
  refine fixed_reads rfl fun rest => ?_
  have hor : ((List.range 8).foldl (fun v i => v ||| byteAt 64 (encodeInt64 [] value ++ rest) i <<< (i * 8)) 0) =
      orBytes 64 (fun i => (encodeInt64 [] value ++ rest).getD i 0) 8 := by
    simp [orBytes, byteAt, Nat.mul_comm]
  rw [hor, orBytes_byte (by omega) value.toBitVec]
  · rfl
  · intro i hi
    interval_cases i <;> simp [encodeInt64, List.range_succ, shiftByte_eq_byte]

theorem decodeUInt32_reads (value : UInt32) : Reads decodeUInt32 (encodeUInt32 [] value) value :=
  (decodeInt32_reads value.toInt32).map Int32.toUInt32

theorem length_encodeUInt32 (value : UInt32) : (encodeUInt32 [] value).length = 4 := rfl

theorem decodeString_reads (value : Bytes) (h : value.length < 2 ^ 32) :
    Reads decodeString (encodeString [] value) value := by
  have hlen : (UInt32.ofNat value.length).toNat = value.length := UInt32.toNat_ofNat_of_lt' h
  have hcount := decodeUInt32_reads (.ofNat value.length)
  constructor
  · intro rest
    have hdrop : (encodeUInt32 [] (.ofNat value.length) ++ (value ++ rest)).drop 4 = value ++ rest :=
      List.drop_left' (length_encodeUInt32 _)
    simp only [decodeString, encodeString, List.append_assoc, hcount.append, length_encodeUInt32, hlen]
    rw [if_neg (by simp only [List.length_append, length_encodeUInt32]; omega), hdrop, List.take_left,
      List.length_append, length_encodeUInt32]
  · intro n hn
    rw [encodeString, List.length_append, length_encodeUInt32] at hn
    rw [encodeString, List.take_append, length_encodeUInt32]
    by_cases hlt : n < 4
    · have hz : n - 4 = 0 := by omega
      obtain ⟨k, hk⟩ := Result.failed_iff.mp (hcount.short n hlt)
      rw [hz, List.take_zero, List.append_nil, decodeString, hk]
      rfl
    · rw [List.take_of_length_le (by rw [length_encodeUInt32]; omega), decodeString, hcount.append]
      simp only [length_encodeUInt32, hlen]
      rw [if_pos (by simp only [List.length_append, length_encodeUInt32, List.length_take]; omega)]
      rfl

theorem decodeVector_reads {α : Type} {encode : Bytes → α → Bytes} {decode : Decoder α}
    (ha : Appends encode) (values : List α) (h : values.length < 2 ^ 32)
    (hitems : ∀ v ∈ values, Reads decode (encode [] v) v) :
    Reads (decodeVector decode) (encodeVector encode [] values) values := by
  have hcount := (decodeUInt32_reads (.ofNat values.length)).map UInt32.toNat
  rw [UInt32.toNat_ofNat_of_lt' h] at hcount
  rw [encodeVector_eq ha, List.nil_append]
  exact hcount.counted hitems

theorem decode_reads (t : Ty) (v : t.Val) (h : Sized t v) : Reads (decode t) (serialize t v) v := by
  induction t with
  | bool =>
      refine fixed_reads rfl fun rest => ?_
      cases v with
      | false => rfl
      | true => rfl
  | int8 => exact fixed_reads rfl fun rest => Int8.toInt8_toUInt8 v
  | uint8 => exact fixed_reads rfl fun rest => rfl
  | int16 => exact decodeInt16_reads v
  | uint16 => exact (decodeInt16_reads (UInt16.toInt16 v)).map Int16.toUInt16
  | int32 => exact decodeInt32_reads v
  | uint32 | float => exact decodeUInt32_reads v
  | int64 => exact decodeInt64_reads v
  | uint64 | double => exact (decodeInt64_reads (UInt64.toInt64 v)).map Int64.toUInt64
  | string => exact decodeString_reads v h
  | vector t ih => exact decodeVector_reads (encode_appends t) v h.1 fun item hi => ih item (h.2 item hi)

/-- For every type of the universe and every value whose sizes fit, decoding what was encoded,
followed by anything, gives the value and the exact length; cut short, it fails. -/
theorem decode_serialize (t : Ty) (v : t.Val) (h : Sized t v) :
    (∀ rest : Bytes, decode t (serialize t v ++ rest) = .success (serialize t v).length v) ∧
      ∀ n < (serialize t v).length, ∃ k, decode t ((serialize t v).take n) = .failure k :=
  ⟨(decode_reads t v h).append, fun n hn => Result.failed_iff.mp ((decode_reads t v h).short n hn)⟩

def nestedSample : List (List Bytes) := [[[104, 105], []], []]

theorem nestedSample_sized : Sized (.vector (.vector .string)) nestedSample := by
  have h : ∀ row ∈ nestedSample, row.length < 2 ^ 32 ∧ ∀ text ∈ row, text.length < 2 ^ 32 := by
    decide
  exact ⟨by decide, fun row hrow => ⟨(h row hrow).1, (h row hrow).2⟩⟩

theorem decode_serialize_nested :
    decode (.vector (.vector .string)) (serialize (.vector (.vector .string)) nestedSample ++ [7]) =
      .success (serialize (.vector (.vector .string)) nestedSample).length nestedSample :=
  (decode_serialize (.vector (.vector .string)) nestedSample nestedSample_sized).1 [7]

end CoroRpc.Serializer

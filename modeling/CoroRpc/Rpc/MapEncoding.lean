import CoroRpc.Rpc.Serializer

namespace CoroRpc.Serializer

open Codec

structure Compared where
  Carrier : Type
  compare : Carrier → Carrier → Option Ordering

def lexCompare {α : Type} (compare : α → α → Option Ordering) : List α → List α → Option Ordering
  | [], [] => some .eq
  | [], _ :: _ => some .lt
  | _ :: _, [] => some .gt
  | a :: as, b :: bs =>
      match compare a b with
      | some .eq => lexCompare compare as bs
      | r => r

def pairCompare {α β : Type} (compare : α → α → Option Ordering) (compare' : β → β → Option Ordering)
    (a b : α × β) : Option Ordering :=
  match compare a.1 b.1 with
  | some .eq => compare' a.2 b.2
  | r => r

/-- The bits above `infinity` are those of a NaN, and `sign` is the sign bit; both zeros are equal. -/
def floatCompare (sign infinity a b : Nat) : Option Ordering :=
  let signed (bits : Nat) : Int := if bits < sign then bits else -(bits % sign : Nat)
  if infinity < a % sign ∨ infinity < b % sign then none else some (compare (signed a) (signed b))

def Ty.compare : (t : Ty) → t.Val → t.Val → Option Ordering
  | .bool => fun a b : Bool => some (Ord.compare a b)
  | .int8 => fun a b : Int8 => some (Ord.compare a.toInt b.toInt)
  | .uint8 => fun a b : UInt8 => some (Ord.compare a b)
  | .int16 => fun a b : Int16 => some (Ord.compare a.toInt b.toInt)
  | .uint16 => fun a b : UInt16 => some (Ord.compare a b)
  | .int32 => fun a b : Int32 => some (Ord.compare a.toInt b.toInt)
  | .uint32 => fun a b : UInt32 => some (Ord.compare a b)
  | .int64 => fun a b : Int64 => some (Ord.compare a.toInt b.toInt)
  | .uint64 => fun a b : UInt64 => some (Ord.compare a b)
  | .float => fun a b : UInt32 => floatCompare (2 ^ 31) 0x7F800000 a.toNat b.toNat
  | .double => fun a b : UInt64 => floatCompare (2 ^ 63) 0x7FF0000000000000 a.toNat b.toNat
  | .string => lexCompare fun a b : UInt8 => some (Ord.compare a b)
  | .vector t => lexCompare t.compare

structure OrderedMap (K : Compared) (β : Type) where
  entries : List (K.Carrier × β)
  ascending : entries.Pairwise fun a b => K.compare a.1 b.1 = some .lt

theorem OrderedMap.entries_injective {K : Compared} {β : Type} :
    Function.Injective (OrderedMap.entries : OrderedMap K β → List (K.Carrier × β)) := by
  rintro ⟨as, ha⟩ ⟨bs, hb⟩ rfl
  rfl

/-- The types that `BinarySerializer` can encode. Only the `plain` ones can be decoded. -/
inductive EncTy
  | plain (t : Ty)
  | vector (elem : EncTy)
  | map (key value : EncTy)

namespace EncTy

def compared : EncTy → Compared
  | plain t => ⟨t.Val, t.compare⟩
  | vector t => ⟨List t.compared.Carrier, lexCompare t.compared.compare⟩
  | map k v =>
      ⟨OrderedMap k.compared v.compared.Carrier, fun a b =>
        lexCompare (pairCompare k.compared.compare v.compared.compare) a.entries b.entries⟩

def Val (t : EncTy) : Type := t.compared.Carrier

end EncTy

def encodeEntry {α β : Type} (encodeKey : Bytes → α → Bytes) (encodeValue : Bytes → β → Bytes) (buffer : Bytes)
    (entry : α × β) : Bytes :=
  encodeValue (encodeKey buffer entry.1) entry.2

def encodeMap {α β : Type} (encodeKey : Bytes → α → Bytes) (encodeValue : Bytes → β → Bytes) (buffer : Bytes)
    (entries : List (α × β)) : Bytes :=
  entries.foldl (encodeEntry encodeKey encodeValue) (encodeUInt32 buffer (.ofNat entries.length))

namespace EncTy

def encode : (t : EncTy) → Bytes → t.Val → Bytes
  | plain t => Serializer.encode t
  | vector t => encodeVector t.encode
  | map k v => fun buffer value => encodeMap k.encode v.encode buffer (OrderedMap.entries value)

def Sized : (t : EncTy) → t.Val → Prop
  | plain t => Serializer.Sized t
  | vector t => fun value : List t.Val => value.length < 2 ^ 32 ∧ ∀ item ∈ value, t.Sized item
  | map k v => fun value : OrderedMap k.compared v.Val =>
      value.entries.length < 2 ^ 32 ∧ ∀ entry ∈ value.entries, k.Sized entry.1 ∧ v.Sized entry.2

end EncTy

theorem encodeEntry_appends {α β : Type} {encodeKey : Bytes → α → Bytes} {encodeValue : Bytes → β → Bytes}
    (hk : Appends encodeKey) (hv : Appends encodeValue) : Appends (encodeEntry encodeKey encodeValue) := by
  intro buffer entry
  rw [encodeEntry, encodeEntry, hk buffer, hv (buffer ++ _), hv (encodeKey [] _), List.append_assoc]

/-- A map is encoded like the vector of its entries. -/
theorem encodeMap_eq_encodeVector {α β : Type} (encodeKey : Bytes → α → Bytes) (encodeValue : Bytes → β → Bytes) :
    encodeMap encodeKey encodeValue = encodeVector (encodeEntry encodeKey encodeValue) := rfl

theorem EncTy.encode_appends (t : EncTy) : Appends t.encode := by
  induction t with
  | plain t => exact Serializer.encode_appends t
  | vector t ih => exact encodeVector_appends ih
  | map k v ihk ihv =>
      have hmap := encodeVector_appends (encodeEntry_appends ihk ihv)
      rw [← encodeMap_eq_encodeVector] at hmap
      intro buffer value
      exact hmap buffer (OrderedMap.entries value)

theorem count_prefixFree : PrefixFree (fun n : Nat => encodeUInt32 [] (.ofNat n)) (· < 2 ^ 32) := by
  apply prefixFree_of_reads
  intro n hn
  have hread := (decodeUInt32_reads (.ofNat n)).map UInt32.toNat
  rw [UInt32.toNat_ofNat_of_lt' hn] at hread
  exact hread

theorem encodeVector_prefixFree {α : Type} {encode : Bytes → α → Bytes} {P : α → Prop} (ha : Appends encode)
    (h : PrefixFree (encode []) P) :
    PrefixFree (encodeVector encode []) fun values => values.length < 2 ^ 32 ∧ ∀ item ∈ values, P item := by
  have hcounted := count_prefixFree.counted h
  have heq : encodeVector encode [] =
      fun values => encodeUInt32 [] (.ofNat values.length) ++ values.flatMap (encode []) := by
    funext values
    rw [encodeVector_eq ha, List.nil_append]
  rw [heq]
  exact hcounted

theorem encodeEntry_prefixFree {α β : Type} {encodeKey : Bytes → α → Bytes} {encodeValue : Bytes → β → Bytes}
    {P : α → Prop} {Q : β → Prop} (hv : Appends encodeValue) (hp : PrefixFree (encodeKey []) P)
    (hq : PrefixFree (encodeValue []) Q) :
    PrefixFree (encodeEntry encodeKey encodeValue []) fun entry => P entry.1 ∧ Q entry.2 := by
  have hpair := hp.pair hq
  have heq : encodeEntry encodeKey encodeValue [] = fun entry => encodeKey [] entry.1 ++ encodeValue [] entry.2 := by
    funext entry
    rw [encodeEntry, hv]
  rw [heq]
  exact hpair

theorem EncTy.encode_prefixFree (t : EncTy) : PrefixFree (t.encode []) t.Sized := by
  induction t with
  | plain t => exact prefixFree_of_reads (decode_reads t)
  | vector t ih => exact encodeVector_prefixFree t.encode_appends ih
  | map k v ihk ihv =>
      have hentry := encodeEntry_prefixFree v.encode_appends ihk ihv
      have hentries := encodeVector_prefixFree (encodeEntry_appends k.encode_appends v.encode_appends) hentry
      rw [← encodeMap_eq_encodeVector] at hentries
      exact hentries.comap OrderedMap.entries_injective

/-- What starts with the encoding of a map determines the map and where it ends. -/
theorem encode_map_prefixFree (k v : EncTy) (a b : (EncTy.map k v).Val) (ha : (EncTy.map k v).Sized a)
    (hb : (EncTy.map k v).Sized b) (r s : Bytes)
    (h : (EncTy.map k v).encode [] a ++ r = (EncTy.map k v).encode [] b ++ s) : a = b ∧ r = s :=
  (EncTy.map k v).encode_prefixFree ha hb h

def nestedMap : OrderedMap (EncTy.plain .string).compared (EncTy.map (.plain .int32) (.plain .bool)).Val where
  entries :=
    [(([97] : Bytes), ⟨[((-1 : Int32), true), ((2 : Int32), false)], by decide⟩), (([98] : Bytes), ⟨[], .nil⟩)]
  ascending := by decide

theorem nestedMap_sized : (EncTy.map (.plain .string) (.map (.plain .int32) (.plain .bool))).Sized nestedMap := by
  refine ⟨by decide, ?_⟩
  have hkeys : ∀ entry ∈ nestedMap.entries, (entry.1 : Bytes).length < 2 ^ 32 := by decide
  have hvalues : ∀ entry ∈ nestedMap.entries, (OrderedMap.entries entry.2).length < 2 ^ 32 := by decide
  intro entry hentry
  exact ⟨hkeys entry hentry, hvalues entry hentry, fun _ _ => ⟨trivial, trivial⟩⟩

theorem encode_map_prefixFree_nested :
    (EncTy.map (.plain .string) (.map (.plain .int32) (.plain .bool))).encode [] nestedMap ++ [7] =
        [2, 0, 0, 0, 1, 0, 0, 0, 97, 2, 0, 0, 0, 255, 255, 255, 255, 1, 2, 0, 0, 0, 0,
          1, 0, 0, 0, 98, 0, 0, 0, 0, 7] ∧
      nestedMap = nestedMap ∧ ([7] : Bytes) = [7] :=
  ⟨by decide, encode_map_prefixFree _ _ nestedMap nestedMap nestedMap_sized nestedMap_sized [7] [7] rfl⟩

end CoroRpc.Serializer

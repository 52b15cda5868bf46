import CoroRpc.Idl.Document
import CoroRpc.Rpc.Serializer
import Mathlib.Data.List.Nodup
import Mathlib.Logic.Function.Basic

namespace CoroRpc.Idl

open Codec Serializer

def toCppType (type : FieldType) (typeName : Text) : Text :=
  match type with
  | .int8 => "int8_t".toList
  | .int16 => "int16_t".toList
  | .int32 => "int32_t".toList
  | .int64 => "int64_t".toList
  | .uint8 => "uint8_t".toList
  | .uint16 => "uint16_t".toList
  | .uint32 => "uint32_t".toList
  | .uint64 => "uint64_t".toList
  | .float => "float".toList
  | .double => "double".toList
  | .string => "std::string".toList
  | .bool => "bool".toList
  | .vector | .map | .custom => typeName

inductive Stmt
  | encode (name : Text)
  | decode (name : Text)
  | check (name : Text)
  | advance (name : Text)
  deriving DecidableEq

def Stmt.text : Stmt → Text
  | .encode name => "    BinarySerializer::encode(buffer, obj.".toList ++ name ++ ");\n".toList
  | .decode name =>
      ("    auto r_".toList ++ name ++ " = BinarySerializer::decode(\n".toList) ++
        ("        buffer.data() + offset, buffer.size() - offset, obj.".toList ++ name ++ ");\n".toList)
  | .check name => "    if (!r_".toList ++ name ++ ".success) return false;\n".toList
  | .advance name => "    offset += r_".toList ++ name ++ ".bytes_read;\n".toList

def functionsText (name serializeText deserializeText : Text) : Text :=
  "namespace rpc::rpc \x7b\n".toList ++
    "template<>\n".toList ++
    ("std::vector<uint8_t> serialize(const ".toList ++ name ++ "& obj) \x7b\n".toList) ++
    "    std::vector<uint8_t> buffer;\n".toList ++
    serializeText ++
    "    return buffer;\n".toList ++
    "\x7d\n\n".toList ++
    "template<>\n".toList ++
    ("bool deserialize(const std::vector<uint8_t>& buffer, ".toList ++ name ++ "& obj) \x7b\n".toList) ++
    "    size_t offset = 0;\n".toList ++
    deserializeText ++
    "    return true;\n".toList ++
    "\x7d\n".toList ++
    "\x7d // namespace rpc::rpc\n\n".toList

def generateSerializationCode (s : StructDef) : Text :=
  functionsText s.name (s.fields.flatMap fun f => (Stmt.encode f.name).text)
    (s.fields.flatMap fun f =>
      (Stmt.decode f.name).text ++ (Stmt.check f.name).text ++ (Stmt.advance f.name).text)

def serializeBody (s : StructDef) : List Stmt := s.fields.map fun f => .encode f.name

def deserializeBody (s : StructDef) : List Stmt :=
  s.fields.flatMap fun f => [.decode f.name, .check f.name, .advance f.name]

theorem generateSerializationCode_eq (s : StructDef) :
    generateSerializationCode s =
      functionsText s.name ((serializeBody s).flatMap Stmt.text) ((deserializeBody s).flatMap Stmt.text) := by
  have hser : (serializeBody s).flatMap Stmt.text = s.fields.flatMap fun f => (Stmt.encode f.name).text := by
    rw [serializeBody, List.flatMap_map]
  have hdes : (deserializeBody s).flatMap Stmt.text = s.fields.flatMap fun f =>
      (Stmt.decode f.name).text ++ (Stmt.check f.name).text ++ (Stmt.advance f.name).text := by
    rw [deserializeBody, List.flatMap_assoc]
    simp only [List.flatMap_cons, List.flatMap_nil, List.append_nil, List.append_assoc]
  rw [hser, hdes, generateSerializationCode]

/-- The overload of `encode` and `decode` that C++ chooses for a member of the given type. -/
def overload (cppType : Text) : Option Ty :=
  if cppType = "bool".toList then some .bool
  else if cppType = "int8_t".toList then some .int8
  else if cppType = "uint8_t".toList then some .uint8
  else if cppType = "int16_t".toList then some .int16
  else if cppType = "uint16_t".toList then some .uint16
  else if cppType = "int32_t".toList then some .int32
  else if cppType = "uint32_t".toList then some .uint32
  else if cppType = "int64_t".toList then some .int64
  else if cppType = "uint64_t".toList then some .uint64
  else if cppType = "float".toList then some .float
  else if cppType = "double".toList then some .double
  else if cppType = "std::string".toList then some .string
  else none

def FieldType.basic : FieldType → Bool
  | .vector | .map | .custom => false
  | _ => true

abbrev Object := Text → Σ t : Ty, t.Val

def Declared (s : StructDef) (obj : Object) : Prop :=
  ∀ f ∈ s.fields, f.type.basic ∧ overload (toCppType f.type f.typeName) = some (obj f.name).1

instance (s : StructDef) (obj : Object) : Decidable (Declared s obj) :=
  inferInstanceAs (Decidable (∀ f ∈ s.fields, _ ∧ _))

def memberBytes (obj : Object) (name : Text) : Bytes := serialize (obj name).1 (obj name).2

def execSerialize (obj : Object) : List Stmt → Bytes → Option Bytes
  | [], buffer => some buffer
  | .encode name :: stmts, buffer => execSerialize obj stmts (encode (obj name).1 buffer (obj name).2)
  | _ :: _, _ => none

structure Frame where
  obj : Object
  offset : Nat := 0
  results : Text → Option (Nat × Bool) := fun _ => none

/-- The emitted `deserialize`: what it returns, and the object. There is no meaning to a variable that is
declared twice or not at all, nor to a pointer beyond the end of the buffer. -/
def execDeserialize (buffer : Bytes) : Frame → List Stmt → Option (Bool × Object)
  | fr, [] => some (true, fr.obj)
  | fr, .decode name :: stmts =>
      if (fr.results name).isSome ∨ buffer.length < fr.offset then none
      else
        match decode (fr.obj name).1 (buffer.drop fr.offset) with
        | .success n v =>
            execDeserialize buffer
              { fr with
                obj := Function.update fr.obj name ⟨_, v⟩
                results := Function.update fr.results name (some (n, true)) } stmts
        | .failure n =>
            execDeserialize buffer { fr with results := Function.update fr.results name (some (n, false)) } stmts
  | fr, .check name :: stmts =>
      match fr.results name with
      | some (_, true) => execDeserialize buffer fr stmts
      | some (_, false) => some (false, fr.obj)
      | none => none
  | fr, .advance name :: stmts =>
      match fr.results name with
      | some (n, _) => execDeserialize buffer { fr with offset := fr.offset + n } stmts
      | none => none
  | _, .encode _ :: _ => none

theorem execSerialize_body (obj : Object) (fields : List Field) (buffer : Bytes) :
    execSerialize obj (fields.map fun f => .encode f.name) buffer =
      some (buffer ++ fields.flatMap fun f => memberBytes obj f.name) := by
  induction fields generalizing buffer with
  | nil => simp [execSerialize]
  | cons f fields ih =>
      rw [List.map_cons, execSerialize, ih, encode_appends, List.flatMap_cons, List.append_assoc]
      rfl

section

variable {buffer : Bytes} {fr : Frame} {name : Text} {n : Nat}

theorem execDeserialize_success {v : (fr.obj name).1.Val} (stmts : List Stmt) (hnew : fr.results name = none)
    (hle : fr.offset ≤ buffer.length) (hdec : decode (fr.obj name).1 (buffer.drop fr.offset) = .success n v) :
    execDeserialize buffer fr (.decode name :: .check name :: .advance name :: stmts) =
      execDeserialize buffer
        { obj := Function.update fr.obj name ⟨_, v⟩
          offset := fr.offset + n
          results := Function.update fr.results name (some (n, true)) } stmts := by
  have hok : ¬((fr.results name).isSome ∨ buffer.length < fr.offset) := by
    simp [hnew, hle]
  simp only [execDeserialize, if_neg hok, hdec, Function.update_self]

theorem execDeserialize_failure (stmts : List Stmt) (hnew : fr.results name = none)
    (hle : fr.offset ≤ buffer.length) (hdec : decode (fr.obj name).1 (buffer.drop fr.offset) = .failure n) :
    execDeserialize buffer fr (.decode name :: .check name :: .advance name :: stmts) = some (false, fr.obj) := by
  have hok : ¬((fr.results name).isSome ∨ buffer.length < fr.offset) := by
    simp [hnew, hle]
  simp only [execDeserialize, if_neg hok, hdec, Function.update_self]

end

theorem overload_toCppType {type : FieldType} (h : type.basic) (typeName : Text) :
    ∃ t, overload (toCppType type typeName) = some t ∧ ∀ elem, t ≠ .vector elem := by
  cases type with
  | vector | map | custom => cases h
  | int8 | int16 | int32 | int64 | uint8 | uint16 | uint32 | uint64 | float | double | string | bool =>
      exact ⟨_, rfl, fun _ => nofun⟩

def ShortStrings (s : StructDef) (obj : Object) : Prop :=
  ∀ f ∈ s.fields, ∀ text : Bytes, obj f.name = ⟨.string, text⟩ → text.length < 2 ^ 32

theorem sized_member {value : Σ t : Ty, t.Val} (hvec : ∀ elem, value.1 ≠ .vector elem)
    (hstr : ∀ text : Bytes, value = ⟨.string, text⟩ → text.length < 2 ^ 32) : Sized value.1 value.2 := by
  obtain ⟨t, v⟩ := value
  cases t with
  | vector elem => exact absurd rfl (hvec elem)
  | string => exact hstr v rfl
  | bool | int8 | uint8 | int16 | uint16 | int32 | uint32 | int64 | uint64 | float | double => trivial

theorem reads_member {t : Ty} {value : Σ t : Ty, t.Val} (ht : t = value.1) (h : Sized value.1 value.2) :
    ∃ v : t.Val, Reads (decode t) (serialize value.1 value.2) v ∧ (⟨t, v⟩ : Σ t : Ty, t.Val) = value := by
  subst ht
  exact ⟨value.2, decode_reads value.1 value.2 h, rfl⟩

structure Ready (obj : Object) (fields : List Field) (front : Bytes) (fr : Frame) : Prop where
  new : ∀ f ∈ fields, fr.results f.name = none
  offset : fr.offset = front.length
  type : ∀ f ∈ fields, (fr.obj f.name).1 = (obj f.name).1

section

variable {obj : Object} {f : Field} {fields : List Field} {front : Bytes} {fr : Frame}

theorem execDeserialize_cons (hready : Ready obj (f :: fields) front fr) (hnot : f.name ∉ fields.map Field.name)
    (hsized : Sized (obj f.name).1 (obj f.name).2) (rest : Bytes) (stmts : List Stmt) :
    ∃ fr', execDeserialize (front ++ (memberBytes obj f.name ++ rest)) fr
        (.decode f.name :: .check f.name :: .advance f.name :: stmts) =
          execDeserialize (front ++ (memberBytes obj f.name ++ rest)) fr' stmts ∧
      Ready obj fields (front ++ memberBytes obj f.name) fr' ∧
      fr'.obj = Function.update fr.obj f.name (obj f.name) := by
  obtain ⟨v, hreads, hv⟩ := reads_member (hready.type f List.mem_cons_self) hsized
  have hne (g : Field) (hg : g ∈ fields) : g.name ≠ f.name :=
    fun heq => hnot (heq ▸ List.mem_map_of_mem hg)
  have hle : fr.offset ≤ (front ++ (memberBytes obj f.name ++ rest)).length := by
    rw [hready.offset, List.length_append]
    exact Nat.le_add_right _ _
  have hdec : decode (fr.obj f.name).1 ((front ++ (memberBytes obj f.name ++ rest)).drop fr.offset) =
      .success (memberBytes obj f.name).length v := by
    rw [hready.offset, List.drop_left]
    exact hreads.append rest
  refine ⟨_, execDeserialize_success stmts (hready.new f List.mem_cons_self) hle hdec, ⟨?_, ?_, ?_⟩, ?_⟩
  · intro g hg
    exact (Function.update_of_ne (hne g hg) _ _).trans (hready.new g (List.mem_cons_of_mem f hg))
  · rw [hready.offset, List.length_append]
  · intro g hg
    have hsame := Function.update_of_ne (hne g hg) ⟨(fr.obj f.name).1, v⟩ fr.obj
    exact (congrArg Sigma.fst hsame).trans (hready.type g (List.mem_cons_of_mem f hg))
  · rw [hv]

theorem execDeserialize_body (hready : Ready obj fields front fr) (hnd : (fields.map Field.name).Nodup)
    (hsized : ∀ f ∈ fields, Sized (obj f.name).1 (obj f.name).2) :
    ∃ out, execDeserialize (front ++ fields.flatMap fun f => memberBytes obj f.name) fr
        (fields.flatMap fun f => [.decode f.name, .check f.name, .advance f.name]) = some (true, out) ∧
      (∀ f ∈ fields, out f.name = obj f.name) ∧ ∀ name ∉ fields.map Field.name, out name = fr.obj name := by
  induction fields generalizing front fr with
  | nil => exact ⟨fr.obj, rfl, by simp, fun _ _ => rfl⟩
  | cons f fields ih =>
      obtain ⟨hnot, hnd⟩ := List.nodup_cons.mp hnd
      obtain ⟨fr', hexec, hready', hobj⟩ := execDeserialize_cons hready hnot (hsized f List.mem_cons_self)
        (fields.flatMap fun f => memberBytes obj f.name)
        (fields.flatMap fun f => [.decode f.name, .check f.name, .advance f.name])
      obtain ⟨out, hrun, hin, hout⟩ := ih hready' hnd fun g hg => hsized g (List.mem_cons_of_mem f hg)
      refine ⟨out, ?_, ?_, ?_⟩
      · rw [List.append_assoc] at hrun
        exact hexec.trans hrun
      · intro g hg
        rcases List.mem_cons.mp hg with rfl | hg
        · rw [hout _ hnot, hobj, Function.update_self]
        · exact hin g hg
      · intro name hname
        rw [List.map_cons, List.mem_cons, not_or] at hname
        rw [hout name hname.2, hobj, Function.update_of_ne hname.1]

theorem execDeserialize_short (hready : Ready obj fields front fr) (hnd : (fields.map Field.name).Nodup)
    (hsized : ∀ f ∈ fields, Sized (obj f.name).1 (obj f.name).2) (n : Nat)
    (hn : n < (fields.flatMap fun f => memberBytes obj f.name).length) :
    ∃ out, execDeserialize (front ++ (fields.flatMap fun f => memberBytes obj f.name).take n) fr
      (fields.flatMap fun f => [.decode f.name, .check f.name, .advance f.name]) = some (false, out) := by
  induction fields generalizing front fr n with
  | nil => simp at hn
  | cons f fields ih =>
      obtain ⟨hnot, hnd⟩ := List.nodup_cons.mp hnd
      rw [List.flatMap_cons, List.length_append] at hn
      rw [List.flatMap_cons, List.take_append]
      by_cases hc : n < (memberBytes obj f.name).length
      · -- the cut falls inside the first member
        have hz : n - (memberBytes obj f.name).length = 0 := by omega
        rw [hz, List.take_zero, List.append_nil]
        obtain ⟨v, hreads, -⟩ := reads_member (hready.type f List.mem_cons_self) (hsized f List.mem_cons_self)
        obtain ⟨k, hk⟩ := Result.failed_iff.mp (hreads.short n hc)
        have hle : fr.offset ≤ (front ++ (memberBytes obj f.name).take n).length := by
          rw [hready.offset, List.length_append]
          exact Nat.le_add_right _ _
        have hdec : decode (fr.obj f.name).1 ((front ++ (memberBytes obj f.name).take n).drop fr.offset) =
            .failure k := by
          rw [hready.offset, List.drop_left]
          exact hk
        exact ⟨fr.obj, execDeserialize_failure _ (hready.new f List.mem_cons_self) hle hdec⟩
      · rw [List.take_of_length_le (Nat.not_lt.mp hc)]
        obtain ⟨fr', hexec, hready', -⟩ := execDeserialize_cons hready hnot (hsized f List.mem_cons_self)
          ((fields.flatMap fun f => memberBytes obj f.name).take (n - (memberBytes obj f.name).length))
          (fields.flatMap fun f => [.decode f.name, .check f.name, .advance f.name])
        obtain ⟨out, hrun⟩ := ih hready' hnd (fun g hg => hsized g (List.mem_cons_of_mem f hg))
          (n - (memberBytes obj f.name).length) (by omega)
        rw [List.append_assoc] at hrun
        exact ⟨out, hexec.trans hrun⟩

end

/-- What the emitted functions do, as one statement: `deserialize` returns `true` on what `serialize`
returns and has the members back, and it returns `false` on a strict prefix. -/
def RoundTrips (s : StructDef) (obj target : Object) : Prop :=
  ∃ bytes, execSerialize obj (serializeBody s) [] = some bytes ∧
    (∃ out, execDeserialize bytes { obj := target } (deserializeBody s) = some (true, out) ∧
      ∀ f ∈ s.fields, out f.name = obj f.name) ∧
    ∀ n < bytes.length, ∃ out,
      execDeserialize (bytes.take n) { obj := target } (deserializeBody s) = some (false, out)

/-- The code that is emitted for a struct, whose text this is, round-trips for every value of its members. -/
theorem generated_roundTrips (s : StructDef) (hnd : (s.fields.map Field.name).Nodup) (obj target : Object)
    (hobj : Declared s obj) (htarget : Declared s target) (hshort : ShortStrings s obj) :
    generateSerializationCode s = functionsText s.name ((serializeBody s).flatMap Stmt.text)
        ((deserializeBody s).flatMap Stmt.text) ∧ RoundTrips s obj target := by
  have hsized (f : Field) (hf : f ∈ s.fields) : Sized (obj f.name).1 (obj f.name).2 := by
    obtain ⟨t, ht, hvec⟩ := overload_toCppType (hobj f hf).1 f.typeName
    have heq : t = (obj f.name).1 := Option.some.inj (ht.symm.trans (hobj f hf).2)
    exact sized_member (heq ▸ hvec) (hshort f hf)
  have htype (f : Field) (hf : f ∈ s.fields) : (target f.name).1 = (obj f.name).1 :=
    Option.some.inj ((htarget f hf).2.symm.trans (hobj f hf).2)
  have hready : Ready obj s.fields [] { obj := target } :=
    ⟨fun _ _ => rfl, rfl, htype⟩
  refine ⟨generateSerializationCode_eq s, _, execSerialize_body obj s.fields [], ?_, ?_⟩
  · obtain ⟨out, hrun, hin, -⟩ := execDeserialize_body hready hnd hsized
    exact ⟨out, hrun, hin⟩
  · exact execDeserialize_short hready hnd hsized

def userStruct : StructDef where
  name := "User".toList
  fields :=
    [{ name := "id".toList, type := .int32, typeName := "int32".toList },
      { name := "name".toList, type := .string, typeName := "string".toList }]

def user (id : Int32) (name : Bytes) : Object := fun member =>
  if member = "id".toList then ⟨.int32, id⟩ else ⟨.string, name⟩

theorem user_shortStrings {id : Int32} {name : Bytes} (h : name.length < 2 ^ 32) :
    ShortStrings userStruct (user id name) := by
  intro f _ text htext
  rw [user] at htext
  split at htext
  · cases htext
  · cases htext
    exact h

theorem generated_roundTrips_user : RoundTrips userStruct (user 7 [0x61, 0x62]) (user 0 []) :=
  (generated_roundTrips userStruct (by decide) (user 7 [0x61, 0x62]) (user 0 []) (by decide) (by decide)
    (user_shortStrings (by decide))).2

end CoroRpc.Idl

import CoroRpc.Idl.CodeGenerator
import CoroRpc.Lib.Brackets

namespace CoroRpc.Idl

open Brackets

structure GeneratorConfig where
  generateSerialization : Bool := true
  generateClient : Bool := true

def fieldCode (f : Field) : Text :=
  "    ".toList ++ toCppType f.type f.typeName ++ " ".toList ++ f.name ++ ";\n".toList

def generateStruct (config : GeneratorConfig) (s : StructDef) : Text :=
  "struct ".toList ++ s.name ++ " \x7b\n".toList ++ s.fields.flatMap fieldCode ++ "\x7d;\n\n".toList ++
    (if config.generateSerialization then generateSerializationCode s else [])

def MethodParam.cppType (p : MethodParam) : Text := toCppType p.type p.typeName

def paramsCode (params : List MethodParam) : Text :=
  ", ".toList.intercalate (params.map fun p => p.cppType ++ " ".toList ++ p.name)

def interfaceMethod (m : MethodDef) : Text :=
  "    virtual ".toList ++ m.returnType.cppType ++ " ".toList ++ m.name ++ "(".toList ++ paramsCode m.params ++
    ") = 0;\n".toList

def interfaceCode (s : ServiceDef) : Text :=
  "class ".toList ++ s.name ++ "Service \x7b\n".toList ++ "public:\n".toList ++
    ("    virtual ~".toList ++ s.name ++ "Service() = default;\n\n".toList) ++
    s.methods.flatMap interfaceMethod ++ "\x7d;\n\n".toList

def requestCode (service : Text) (m : MethodDef) : Text :=
  if m.params.isEmpty then
    "        auto resp = co_await client_.call<".toList ++ m.name ++ "Response>(\"".toList ++ service ++
      "\", \"".toList ++ m.name ++ "\");\n".toList
  else
    "        ".toList ++ m.name ++ "Request req;\n".toList ++
      (m.params.flatMap fun p => "        req.".toList ++ p.name ++ " = ".toList ++ p.name ++ ";\n".toList) ++
      ("        auto resp = co_await client_.call<".toList ++ m.name ++ "Response>(\"".toList ++ service ++
        "\", \"".toList ++ m.name ++ "\", req);\n".toList)

def clientMethod (service : Text) (m : MethodDef) : Text :=
  "    coroutine::Task<".toList ++ m.returnType.cppType ++ "> ".toList ++ m.name ++ "(".toList ++
    paramsCode m.params ++ ") \x7b\n".toList ++ requestCode service m ++ "        co_return resp;\n".toList ++
    "    \x7d\n\n".toList

def clientCode (s : ServiceDef) : Text :=
  "class ".toList ++ s.name ++ "Client \x7b\n".toList ++ "public:\n".toList ++
    ("    explicit ".toList ++ s.name ++ "Client(RpcClient& client)\n".toList) ++
    "        : client_(client) \x7b\x7d\n\n".toList ++ s.methods.flatMap (clientMethod s.name) ++
    "private:\n".toList ++ "    RpcClient& client_;\n".toList ++ "\x7d;\n\n".toList

def generateService (config : GeneratorConfig) (s : ServiceDef) : Text :=
  interfaceCode s ++ if config.generateClient then clientCode s else []

def preamble (filename : Text) : Text :=
  "/**\n".toList ++ (" * @file ".toList ++ filename ++ ".hpp\n".toList) ++ " * @brief Auto-generated from IDL\n".toList ++
    " * @author RPC Framework IDL Generator\n".toList ++ " */\n\n".toList ++ "#pragma once\n\n".toList ++
    "#include \"../framework.hpp\"\n\n".toList

def generateHeader (config : GeneratorConfig) (doc : IDLDocument) (filename : Text) : Text :=
  preamble filename ++
    (if doc.namespaceName = [] then [] else "namespace ".toList ++ doc.namespaceName ++ " \x7b\n\n".toList) ++
    doc.structs.flatMap (generateStruct config) ++ doc.services.flatMap (generateService config) ++
    (if doc.namespaceName = [] then [] else "\x7d // namespace ".toList ++ doc.namespaceName ++ "\n".toList)

def brackets : List (Char × Char) := [('(', ')'), ('[', ']'), ('\x7b', '\x7d'), ('<', '>')]

section Nesting

theorem nested_toCppType (type : FieldType) {typeName : Text} (h : Nested brackets typeName) :
    Nested brackets (toCppType type typeName) := by
  cases type with
  | vector | map | custom => exact h
  | _ => exact turns_text rfl

structure Field.Closed (f : Field) : Prop where
  name : Nested brackets f.name
  type : Nested brackets f.typeName

structure StructDef.Closed (s : StructDef) : Prop where
  name : Nested brackets s.name
  fields : ∀ f ∈ s.fields, f.Closed

structure MethodParam.Closed (p : MethodParam) : Prop where
  name : Nested brackets p.name
  type : Nested brackets p.typeName

structure MethodDef.Closed (m : MethodDef) : Prop where
  name : Nested brackets m.name
  params : ∀ p ∈ m.params, p.Closed
  returnType : Nested brackets m.returnType.typeName

structure ServiceDef.Closed (s : ServiceDef) : Prop where
  name : Nested brackets s.name
  methods : ∀ m ∈ s.methods, m.Closed

structure IDLDocument.Closed (doc : IDLDocument) : Prop where
  namespaceName : Nested brackets doc.namespaceName
  structs : ∀ s ∈ doc.structs, s.Closed
  services : ∀ s ∈ doc.services, s.Closed

theorem Field.Closed.fieldCode {f : Field} (h : f.Closed) : Nested brackets (fieldCode f) :=
  (((nested_toCppType _ h.type).between rfl rfl).append (h.name.under _)).append (turns_text rfl)

theorem nested_functionsText {name ser des : Text} (hname : Nested brackets name) (hser : Nested brackets ser)
    (hdes : Nested brackets des) : Nested brackets (functionsText name ser des) := by
  refine ((((((?_ : Turns brackets [] _ ['\x7d']).append (turns_text rfl)).append (hname.between rfl rfl)).append
    (turns_text rfl)).append (hdes.under _)).append (turns_text rfl)).append (turns_text rfl) |>.append (turns_text rfl)
  exact ((((((turns_text rfl).append (turns_text rfl)).append (hname.between rfl rfl)).append
    (turns_text rfl)).append (hser.under _)).append (turns_text rfl)).append (turns_text rfl)

theorem nested_encode {name : Text} (h : Nested brackets name) : Nested brackets (Stmt.encode name).text :=
  h.between rfl rfl

theorem nested_decode {name : Text} (h : Nested brackets name) :
    Nested brackets ((Stmt.decode name).text ++ (Stmt.check name).text ++ (Stmt.advance name).text) := by
  have hdecode : Nested brackets (Stmt.decode name).text := (h.between rfl rfl).append (h.between rfl rfl)
  have hcheck : Nested brackets (Stmt.check name).text := h.between rfl rfl
  exact (hdecode.append hcheck).append (h.between rfl rfl)

theorem StructDef.Closed.serializationCode {s : StructDef} (h : s.Closed) :
    Nested brackets (generateSerializationCode s) := by
  apply nested_functionsText h.name
  · exact .flatMap fun f hf => nested_encode (h.fields f hf).name
  · exact .flatMap fun f hf => nested_decode (h.fields f hf).name

theorem StructDef.Closed.code {s : StructDef} (h : s.Closed) (config : GeneratorConfig) :
    Nested brackets (generateStruct config s) := by
  have hfields : Nested brackets (s.fields.flatMap Idl.fieldCode) := .flatMap fun f hf => (h.fields f hf).fieldCode
  refine (((h.name.between rfl rfl).append (hfields.under _)).append (turns_text rfl)).append ?_
  split
  · exact h.serializationCode
  · exact nested_nil

theorem nested_paramsCode {params : List MethodParam} (h : ∀ p ∈ params, p.Closed) :
    Nested brackets (paramsCode params) := by
  apply Nested.intercalate (turns_text rfl)
  rw [List.forall_mem_map]
  intro p hp
  exact ((nested_toCppType _ (h p hp).type).append (turns_text rfl)).append (h p hp).name

section

variable {m : MethodDef} (h : m.Closed)

include h

theorem MethodDef.Closed.interfaceMethod : Nested brackets (interfaceMethod m) :=
  (((((nested_toCppType _ h.returnType).between rfl rfl).append (h.name.under _)).append (turns_text rfl)).append
    ((nested_paramsCode h.params).under _)).append (turns_text rfl)

theorem MethodDef.Closed.requestCode {service : Text} (hservice : Nested brackets service) :
    Nested brackets (requestCode service m) := by
  rw [Idl.requestCode]
  split
  · exact ((((h.name.between rfl rfl).append (hservice.under _)).append (turns_text rfl)).append
      (h.name.under _)).append (turns_text rfl)
  · have hassign : Nested brackets
        (m.params.flatMap fun p => "        req.".toList ++ p.name ++ " = ".toList ++ p.name ++ ";\n".toList) := by
      apply Nested.flatMap
      intro p hp
      have hname := (h.params p hp).name
      exact ((hname.between rfl rfl).append (hname.under _)).append (turns_text rfl)
    refine ((h.name.between rfl rfl).append (hassign.under _)).append ?_
    exact ((((h.name.between rfl rfl).append (hservice.under _)).append (turns_text rfl)).append
      (h.name.under _)).append (turns_text rfl)

theorem MethodDef.Closed.clientMethod {service : Text} (hservice : Nested brackets service) :
    Nested brackets (clientMethod service m) := by
  have hparams := nested_paramsCode h.params
  have hrequest := h.requestCode hservice
  exact ((((((((nested_toCppType _ h.returnType).between rfl rfl).append (h.name.under _)).append
    (turns_text rfl)).append (hparams.under _)).append (turns_text rfl)).append (hrequest.under _)).append
    (turns_text rfl)).append (turns_text rfl)

end

theorem ServiceDef.Closed.code {s : ServiceDef} (h : s.Closed) (config : GeneratorConfig) :
    Nested brackets (generateService config s) := by
  have hmethods : Nested brackets (s.methods.flatMap interfaceMethod) :=
    .flatMap fun m hm => (h.methods m hm).interfaceMethod
  have hcalls : Nested brackets (s.methods.flatMap (clientMethod s.name)) :=
    .flatMap fun m hm => (h.methods m hm).clientMethod h.name
  have hinterface : Nested brackets (interfaceCode s) :=
    ((((h.name.between rfl rfl).append (turns_text rfl)).append (h.name.between rfl rfl)).append
      (hmethods.under _)).append (turns_text rfl)
  have hclient : Nested brackets (clientCode s) :=
    (((((((h.name.between rfl rfl).append (turns_text rfl)).append (h.name.between rfl rfl)).append
      (turns_text rfl)).append (hcalls.under _)).append (turns_text rfl)).append (turns_text rfl)).append (turns_text rfl)
  apply hinterface.append
  split
  · exact hclient
  · exact nested_nil

theorem nested_preamble {filename : Text} (h : Nested brackets filename) : Nested brackets (preamble filename) :=
  ((((((turns_text rfl).append (h.between rfl rfl)).append (turns_text rfl)).append (turns_text rfl)).append
    (turns_text rfl)).append (turns_text rfl)).append (turns_text rfl)

/-- Where the names and types of a document close what they open, so does the header that is generated for it. -/
theorem IDLDocument.Closed.header {doc : IDLDocument} (h : doc.Closed) (config : GeneratorConfig) {filename : Text}
    (hfile : Nested brackets filename) : Nested brackets (generateHeader config doc filename) := by
  have hstructs : Nested brackets (doc.structs.flatMap (generateStruct config)) :=
    .flatMap fun s hs => (h.structs s hs).code config
  have hservices : Nested brackets (doc.services.flatMap (generateService config)) :=
    .flatMap fun s hs => (h.services s hs).code config
  have hpreamble := nested_preamble hfile
  rw [generateHeader]
  by_cases hns : doc.namespaceName = []
  · simp only [hns, if_true]
    exact (((hpreamble.append nested_nil).append hstructs).append hservices).append nested_nil
  · simp only [hns, if_false]
    exact (((hpreamble.append (h.namespaceName.between rfl rfl)).append (hstructs.under _)).append
      (hservices.under _)).append (h.namespaceName.between rfl rfl)

end Nesting

end CoroRpc.Idl

import Mathlib.Data.List.Basic

abbrev CoroRpc.Text := List Char

namespace CoroRpc.Idl

inductive FieldType
  | int8 | int16 | int32 | int64
  | uint8 | uint16 | uint32 | uint64
  | float | double
  | string | bool
  | vector | map | custom
  deriving DecidableEq, Repr

structure Field where
  name : Text
  type : FieldType
  typeName : Text
  deriving DecidableEq

structure StructDef where
  name : Text
  fields : List Field := []
  deriving DecidableEq

structure MethodParam where
  name : Text := []
  type : FieldType
  typeName : Text
  deriving DecidableEq

structure MethodDef where
  name : Text
  params : List MethodParam := []
  returnType : MethodParam
  deriving DecidableEq

structure ServiceDef where
  name : Text
  methods : List MethodDef := []
  deriving DecidableEq

structure IDLDocument where
  namespaceName : Text := []
  structs : List StructDef := []
  services : List ServiceDef := []
  deriving DecidableEq

end CoroRpc.Idl

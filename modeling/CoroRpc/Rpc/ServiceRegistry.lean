import CoroRpc.Lib.Words
import Mathlib.Data.List.AList

namespace CoroRpc.Rpc

variable {σ : Type}

-- A `std::function` over request bytes, `none` when empty, whose task runs to its end without suspending: a call
-- returns bytes or throws, and may do anything to the world `σ` it runs in.
abbrev MethodHandler (σ : Type) := Option (Bytes → σ → Except Unit Bytes × σ)

structure ServiceInfo (σ : Type) where
  name : Bytes
  methods : AList fun _ : Bytes => MethodHandler σ := ∅
  methodDescriptions : AList fun _ : Bytes => Bytes := ∅

abbrev ServiceRegistry (σ : Type) := AList fun _ : Bytes => ServiceInfo σ

namespace ServiceRegistry

def registerService (r : ServiceRegistry σ) (name : Bytes) : ServiceRegistry σ := r.insert name { name }

def registerMethod (r : ServiceRegistry σ) (serviceName methodName : Bytes) (handler : MethodHandler σ)
    (description : Bytes) : ServiceRegistry σ :=
  let info := (r.lookup serviceName).getD { name := serviceName }
  r.insert serviceName
    { info with
      methods := info.methods.insert methodName handler
      methodDescriptions :=
        if description = [] then info.methodDescriptions
        else info.methodDescriptions.insert methodName description }

def unregisterService (r : ServiceRegistry σ) (name : Bytes) : ServiceRegistry σ := r.erase name

def findMethod (r : ServiceRegistry σ) (serviceName methodName : Bytes) : MethodHandler σ :=
  match r.lookup serviceName with
  | none => none
  | some info =>
      match info.methods.lookup methodName with
      | none => none
      | some handler => handler

def hasService (r : ServiceRegistry σ) (name : Bytes) : Bool := (r.lookup name).isSome

def hasMethod (r : ServiceRegistry σ) (serviceName methodName : Bytes) : Bool :=
  match r.lookup serviceName with
  | none => false
  | some info => (info.methods.lookup methodName).isSome

def listServices (r : ServiceRegistry σ) : List Bytes := r.keys

def listMethods (r : ServiceRegistry σ) (serviceName : Bytes) : List Bytes :=
  match r.lookup serviceName with
  | none => []
  | some info => info.methods.keys

end ServiceRegistry

end CoroRpc.Rpc

import CoroRpc.Rpc.LoadBalancer
import Mathlib.Data.List.AList
import Mathlib.Data.List.Induction

namespace CoroRpc.Rpc

/-- The deregistration of one endpoint also removes every other with its host and port. -/
def Endpoint.SameAddress (a b : Endpoint) : Prop := a.host = b.host ∧ a.port = b.port

instance (a b : Endpoint) : Decidable (a.SameAddress b) := inferInstanceAs (Decidable (_ ∧ _))

abbrev StaticServiceDiscovery := AList fun _ : Bytes => List Endpoint

namespace StaticServiceDiscovery

def discover (d : StaticServiceDiscovery) (service : Bytes) : List Endpoint := (d.lookup service).getD []

def addEndpoint (d : StaticServiceDiscovery) (service : Bytes) (ep : Endpoint) : StaticServiceDiscovery :=
  d.insert service (d.discover service ++ [ep])

def registerService (d : StaticServiceDiscovery) (service : Bytes) (endpoint : Endpoint) : StaticServiceDiscovery :=
  d.addEndpoint service endpoint

/-- A service without endpoints keeps its entry. -/
def deregisterService (d : StaticServiceDiscovery) (service : Bytes) (endpoint : Endpoint) : StaticServiceDiscovery :=
  match d.lookup service with
  | none => d
  | some eps => d.insert service (eps.filter fun ep => ¬ep.SameAddress endpoint)

end StaticServiceDiscovery

inductive DiscoveryCall
  | addEndpoint (service : Bytes) (ep : Endpoint)
  | registerService (service : Bytes) (endpoint : Endpoint)
  | deregisterService (service : Bytes) (endpoint : Endpoint)
  | discover (service : Bytes)

namespace DiscoveryCall

def registers (service : Bytes) : DiscoveryCall → Option Endpoint
  | addEndpoint s ep => if s = service then some ep else none
  | registerService s ep => if s = service then some ep else none
  | _ => none

def Undoes (service : Bytes) (ep : Endpoint) : DiscoveryCall → Prop
  | deregisterService s endpoint => s = service ∧ ep.SameAddress endpoint
  | _ => False

instance (service : Bytes) (ep : Endpoint) : DecidablePred (Undoes service ep)
  | addEndpoint _ _ => inferInstanceAs (Decidable False)
  | registerService _ _ => inferInstanceAs (Decidable False)
  | deregisterService _ _ => inferInstanceAs (Decidable (_ ∧ _))
  | discover _ => inferInstanceAs (Decidable False)

/-- The registrations for a service that no later call undoes, in the order of the calls. -/
def remaining (service : Bytes) : List DiscoveryCall → List Endpoint
  | [] => []
  | call :: later =>
      match call.registers service with
      | none => remaining service later
      | some ep =>
          if ∀ c ∈ later, ¬c.Undoes service ep then ep :: remaining service later else remaining service later

end DiscoveryCall

namespace StaticServiceDiscovery

def apply (d : StaticServiceDiscovery) : DiscoveryCall → StaticServiceDiscovery
  | .addEndpoint service ep => d.addEndpoint service ep
  | .registerService service endpoint => d.registerService service endpoint
  | .deregisterService service endpoint => d.deregisterService service endpoint
  | .discover _ => d

def after (calls : List DiscoveryCall) : StaticServiceDiscovery := calls.foldl apply ∅

theorem discover_insert (d : StaticServiceDiscovery) (service s : Bytes) (eps : List Endpoint) :
    discover (d.insert s eps) service = if s = service then eps else d.discover service := by
  by_cases h : s = service
  · subst h
    simp [discover]
  · rw [if_neg h, discover, AList.lookup_insert_ne (Ne.symm h), discover]

/-- What a call does to the endpoints of a service. -/
theorem discover_apply (d : StaticServiceDiscovery) (call : DiscoveryCall) (service : Bytes) :
    (d.apply call).discover service =
      (d.discover service).filter (fun ep => ¬call.Undoes service ep) ++ (call.registers service).toList := by
  cases call with
  | addEndpoint s ep =>
      rw [apply, addEndpoint, discover_insert]
      by_cases h : s = service
      · subst h
        simp [DiscoveryCall.Undoes, DiscoveryCall.registers]
      · simp [DiscoveryCall.Undoes, DiscoveryCall.registers, h]
  | registerService s ep =>
      rw [apply, registerService, addEndpoint, discover_insert]
      by_cases h : s = service
      · subst h
        simp [DiscoveryCall.Undoes, DiscoveryCall.registers]
      · simp [DiscoveryCall.Undoes, DiscoveryCall.registers, h]
  | deregisterService s endpoint =>
      rw [apply, deregisterService]
      cases hlook : d.lookup s with
      | none =>
          by_cases h : s = service
          · subst h
            simp [discover, hlook, DiscoveryCall.registers]
          · simp [DiscoveryCall.Undoes, DiscoveryCall.registers, h]
      | some eps =>
          simp only [discover_insert]
          by_cases h : s = service
          · subst h
            simp [discover, hlook, DiscoveryCall.Undoes, DiscoveryCall.registers]
          · simp [DiscoveryCall.Undoes, DiscoveryCall.registers, h]
  | discover s => simp [apply, DiscoveryCall.Undoes, DiscoveryCall.registers]

theorem remaining_concat (service : Bytes) (calls : List DiscoveryCall) (call : DiscoveryCall) :
    DiscoveryCall.remaining service (calls ++ [call]) =
      (DiscoveryCall.remaining service calls).filter (fun ep => ¬call.Undoes service ep) ++
        (call.registers service).toList := by
  induction calls with
  | nil =>
      simp only [List.nil_append, DiscoveryCall.remaining]
      cases call.registers service with
      | none => rfl
      | some ep => simp
  | cons first later ih =>
      rw [List.cons_append, DiscoveryCall.remaining, DiscoveryCall.remaining, ih]
      cases first.registers service with
      | none => rfl
      | some ep =>
          have hall : (∀ c ∈ later ++ [call], ¬c.Undoes service ep) ↔
              (∀ c ∈ later, ¬c.Undoes service ep) ∧ ¬call.Undoes service ep := by
            rw [List.forall_mem_append, List.forall_mem_singleton]
          simp only [hall]
          by_cases hlater : ∀ c ∈ later, ¬c.Undoes service ep
          · by_cases hcall : call.Undoes service ep
            · rw [if_neg (fun h => h.2 hcall), if_pos hlater, List.filter_cons_of_neg (by simpa using hcall)]
            · rw [if_pos ⟨hlater, hcall⟩, if_pos hlater, List.filter_cons_of_pos (by simpa using hcall),
                List.cons_append]
          · rw [if_neg (fun h => hlater h.1), if_neg hlater]

/-- After any calls `discover` returns the registrations of the service that no later deregistration of their
host and port has undone, in the order in which they were made. -/
theorem discover_follows_history (calls : List DiscoveryCall) (service : Bytes) :
    (after calls).discover service = DiscoveryCall.remaining service calls := by
  induction calls using List.reverseRecOn with
  | nil => rfl
  | append_singleton calls call ih =>
      rw [after, List.foldl_append, remaining_concat, ← ih]
      exact discover_apply _ call service

end StaticServiceDiscovery

end CoroRpc.Rpc

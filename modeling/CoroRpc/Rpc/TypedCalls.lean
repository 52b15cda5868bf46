import CoroRpc.Rpc.RemoteCalls

namespace CoroRpc.Rpc

open Memory Net Protocol Serializer Trace

variable {ι σ : Type}

/-! What a service is to its users: methods that are functions of values, of which no bytes are seen. -/

abbrev Value (t : Ty) : Type := { v : t.Val // Sized t v }

abbrev Signatures := Bytes → Bytes → Ty × Ty

abbrev Method (σ : Type) (types : Ty × Ty) := Value types.1 → σ → Option (Value types.2) × σ

abbrev Interface (sig : Signatures) (σ : Type) := (service method : Bytes) → Option (Method σ (sig service method))

structure TypedCall (sig : Signatures) where
  service : Bytes
  method : Bytes
  value : Value (sig service method).1
  timestamp : UInt64
  padding : UInt32

abbrev Answer := (t : Ty) × RpcResult t.Val

/-- The handler does what the method says, on the bytes of the values. -/
def CarriesOut {types : Ty × Ty} (handler : Bytes → σ → Except Unit Bytes × σ) (f : Method σ types) : Prop :=
  ∀ value world, handler (serialize types.1 value.1) world =
    (match (f value world).1 with
      | none => .error ()
      | some result => .ok (serialize types.2 result.1),
      (f value world).2)

inductive TypedRegistration (sig : Signatures) (σ : Type)
  | registerService (service : Bytes)
  | registerMethod (service method : Bytes) (f : Method σ (sig service method))
      (handler : Bytes → σ → Except Unit Bytes × σ) (carries : CarriesOut handler f) (terse : TerseHandler handler)
      (description : Bytes)
  | unregisterService (service : Bytes)

namespace TypedRegistration

variable {sig : Signatures}

def toCall : TypedRegistration sig σ → RegistryCall σ
  | registerService service => .registerService service
  | registerMethod service method _ handler _ _ description => .registerMethod service method handler description
  | unregisterService service => .unregisterService service

theorem toCall_terse (r : TypedRegistration sig σ) : r.toCall.Handler TerseHandler := by
  cases r with
  | registerMethod service method f handler carries terse description => exact terse
  | registerService | unregisterService => trivial

end TypedRegistration

namespace Interface

variable {sig : Signatures}

def empty : Interface sig σ := fun _ _ => none

def apply (I : Interface sig σ) : TypedRegistration sig σ → Interface sig σ
  | .registerService service | .unregisterService service => Function.update I service fun _ => none
  | .registerMethod service method f _ _ _ _ =>
      Function.update I service (Function.update (I service) method (some f))

def execute (o : Interface sig σ × σ) (call : TypedCall sig) : Answer × Interface sig σ × σ :=
  match o.1 call.service call.method with
  | none =>
      (⟨(sig call.service call.method).2, .makeError .serviceNotFound (text "Service or method not found")⟩, o)
  | some f =>
      let r := f call.value o.2
      (⟨(sig call.service call.method).2,
        match r.1 with
        | none => .makeError .unknown (text "Internal server error")
        | some result => .ok result.1⟩, o.1, r.2)

end Interface

namespace TypedCall

variable {sig : Signatures}

def arguments (call : TypedCall sig) : Arguments where
  request := (sig call.service call.method).1
  value := call.value.1
  service := call.service
  method := call.method
  timestamp := call.timestamp
  padding := call.padding

def response (call : TypedCall sig) : Ty := (sig call.service call.method).2

end TypedCall

inductive TypedEvent (ι : Type) (sig : Signatures) (σ : Type)
  | invoke (i : ι) (call : TypedCall sig)
  | serve (i : ι) (cut : Bool) (heap : Mem)
  | receive (i : ι) (cut : Bool) (heap : Mem)
  | fail (i : ι) (errno : Nat) (heap : Mem)
  | register (r : TypedRegistration sig σ)

namespace TypedEvent

variable {sig : Signatures}

def remote : TypedEvent ι sig σ → RemoteEvent ι σ
  | invoke i call => .invoke i call.arguments call.response
  | serve i cut heap => .serve i cut heap
  | receive i cut heap => .receive i cut heap
  | fail i errno heap => .fail i errno heap
  | register r => .register r.toCall r.toCall_terse

def label : TypedEvent ι sig σ → Atomic.Event ι (Interface sig σ × σ) (TypedCall sig)
  | invoke i call => .invoke i call
  | serve i _ _ => .take i
  | receive i _ _ => .finish i
  | fail i _ _ => .lose i
  | register r => .change fun o => (o.1.apply r, o.2)

end TypedEvent

def answered {sig : Signatures} (x : ι × TypedCall sig × Option Answer) : Returned ι :=
  match x.2.2 with
  | some answer => ⟨x.1, x.2.1.arguments, answer.1, answer.2⟩
  | none =>
      ⟨x.1, x.2.1.arguments, x.2.1.response, .makeError .connectionError (text "Failed to receive response")⟩

namespace ServiceRegistry

variable {sig : Signatures} {r : ServiceRegistry σ} {I : Interface sig σ}

structure Provides (r : ServiceRegistry σ) (I : Interface sig σ) : Prop where
  missing : ∀ service method, I service method = none → r.findMethod service method = none
  found : ∀ service method f, I service method = some f →
    ∃ handler, r.findMethod service method = some handler ∧ CarriesOut handler f

theorem provides_empty : (∅ : ServiceRegistry σ).Provides (.empty : Interface sig σ) :=
  ⟨fun _ _ _ => rfl, fun _ _ _ h => by cases h⟩

theorem findMethod_registerService (r : ServiceRegistry σ) (s t m : Bytes) :
    (r.registerService s).findMethod t m = if t = s then none else r.findMethod t m := by
  rw [findMethod_eq, methodsOf_registerService]
  by_cases h : t = s
  · simp [h]
  · simp [h, findMethod_eq]

theorem findMethod_unregisterService (r : ServiceRegistry σ) (s t m : Bytes) :
    (r.unregisterService s).findMethod t m = if t = s then none else r.findMethod t m := by
  rw [findMethod_eq, methodsOf_unregisterService]
  by_cases h : t = s
  · simp [h]
  · simp [h, findMethod_eq]

theorem findMethod_registerMethod (r : ServiceRegistry σ) (s m t n : Bytes) (handler : MethodHandler σ)
    (description : Bytes) : (r.registerMethod s m handler description).findMethod t n =
      if t = s ∧ n = m then handler else r.findMethod t n := by
  rw [findMethod_eq, methodsOf_registerMethod]
  by_cases h : t = s
  · subst h
    by_cases hn : n = m
    · subst hn
      simp
    · simp [hn, findMethod_eq]
  · simp [h, findMethod_eq]

theorem Provides.forget (h : r.Provides I) {r' : ServiceRegistry σ} (s : Bytes)
    (hr' : ∀ t m, r'.findMethod t m = if t = s then none else r.findMethod t m) :
    r'.Provides (Function.update I s fun _ => none) := by
  constructor
  · intro t m hnone
    rw [hr']
    by_cases ht : t = s
    · rw [if_pos ht]
    · rw [if_neg ht]
      rw [Function.update_of_ne ht] at hnone
      exact h.missing t m hnone
  · intro t m f hsome
    by_cases ht : t = s
    · subst ht
      rw [Function.update_self] at hsome
      cases hsome
    · rw [Function.update_of_ne ht] at hsome
      rw [hr', if_neg ht]
      exact h.found t m f hsome

theorem Provides.add (h : r.Provides I) {s m : Bytes} {f : Method σ (sig s m)}
    {handler : Bytes → σ → Except Unit Bytes × σ} (hf : CarriesOut handler f) (description : Bytes) :
    (r.registerMethod s m (some handler) description).Provides
      (Function.update I s (Function.update (I s) m (some f))) := by
  have hother {t n : Bytes} (hne : ¬(t = s ∧ n = m)) :
      Function.update I s (Function.update (I s) m (some f)) t n = I t n := by
    by_cases ht : t = s
    · subst ht
      have hn : n ≠ m := fun hn => hne ⟨rfl, hn⟩
      rw [Function.update_self, Function.update_of_ne hn]
    · rw [Function.update_of_ne ht]
  constructor
  · intro t n hnone
    rw [findMethod_registerMethod]
    by_cases heq : t = s ∧ n = m
    · obtain ⟨rfl, rfl⟩ := heq
      rw [Function.update_self, Function.update_self] at hnone
      cases hnone
    · rw [if_neg heq]
      rw [hother heq] at hnone
      exact h.missing t n hnone
  · intro t n g hsome
    rw [findMethod_registerMethod]
    by_cases heq : t = s ∧ n = m
    · rw [if_pos heq]
      obtain ⟨rfl, rfl⟩ := heq
      rw [Function.update_self, Function.update_self] at hsome
      cases hsome
      exact ⟨handler, rfl, hf⟩
    · rw [if_neg heq]
      rw [hother heq] at hsome
      exact h.found t n g hsome

theorem Provides.apply (h : r.Provides I) (reg : TypedRegistration sig σ) :
    (r.apply reg.toCall).Provides (I.apply reg) := by
  cases reg with
  | registerService s => exact h.forget s (r.findMethod_registerService s)
  | unregisterService s => exact h.forget s (r.findMethod_unregisterService s)
  | registerMethod s m f handler carries terse description => exact h.add carries description

end ServiceRegistry

namespace RemoteRun

variable {sig : Signatures}

def Types (op : Arguments × Ty) (call : TypedCall sig) : Prop := op = (call.arguments, call.response)

def Says (x : (Arguments × Ty) × Outcome) (x' : TypedCall sig × Answer) : Prop :=
  Types x.1 x'.1 ∧ x'.2 = ⟨x.1.2, x.2.seen x.1.2⟩

def Shows (o : ServiceRegistry σ × σ) (o' : Interface sig σ × σ) : Prop := o.1.Provides o'.1 ∧ o.2 = o'.2

/-- What a call on the bytes comes to is what the interface says. -/
theorem execute_says {o : ServiceRegistry σ × σ} {o' : Interface sig σ × σ} (ho : Shows o o') (call : TypedCall sig) :
    let r := execute o (call.arguments, call.response)
    let r' := Interface.execute o' call
    Shows r.2 r'.2 ∧ Says ((call.arguments, call.response), r.1) (call, r'.1) := by
  intro r r'
  obtain ⟨h, hworld⟩ := ho
  cases hI : o'.1 call.service call.method with
  | none =>
      have hfind : o.1.findMethod call.service call.method = none := h.missing _ _ hI
      have hr : r = (.notFound, o) := by
        simp [r, execute, outcome, TypedCall.arguments, hfind]
      have hr' : r' = (⟨call.response, .makeError .serviceNotFound (text "Service or method not found")⟩, o') := by
        simp [r', Interface.execute, hI, TypedCall.response]
      rw [hr, hr']
      exact ⟨⟨h, hworld⟩, rfl, rfl⟩
  | some f =>
      obtain ⟨handler, hfind, hcarries⟩ := h.found _ _ f hI
      have hrun := hcarries call.value o.2
      rw [hworld] at hrun
      cases hf : (f call.value o'.2).1 with
      | none =>
          rw [hf] at hrun
          have hr : r = (.threw, o.1, (f call.value o'.2).2) := by
            simp [r, execute, outcome, TypedCall.arguments, hfind, hworld, hrun]
          have hr' : r' = (⟨call.response, .makeError .unknown (text "Internal server error")⟩, o'.1,
              (f call.value o'.2).2) := by
            simp [r', Interface.execute, hI, TypedCall.response, hf]
          rw [hr, hr']
          exact ⟨⟨h, rfl⟩, rfl, rfl⟩
      | some result =>
          rw [hf] at hrun
          have hr : r = (.returned (serialize call.response result.1), o.1, (f call.value o'.2).2) := by
            simp [r, execute, outcome, TypedCall.arguments, TypedCall.response, hfind, hworld, hrun]
          have hr' : r' = (⟨call.response, .ok result.1⟩, o'.1, (f call.value o'.2).2) := by
            simp [r', Interface.execute, hI, TypedCall.response, hf]
          have hdecode := (decode_serialize call.response result.1 result.2).1 []
          rw [List.append_nil] at hdecode
          rw [hr, hr']
          exact ⟨⟨h, rfl⟩, rfl, by simp [Outcome.seen, hdecode]⟩

theorem standsFor_label (e : TypedEvent ι sig σ) :
    Atomic.Event.StandsFor Shows Types e.remote.label e.label := by
  cases e with
  | invoke i call => exact .invoke i rfl
  | serve i cut heap => exact .take i
  | receive i cut heap => exact .finish i
  | fail i errno heap => exact .lose i
  | register r => exact .change fun o o' ho => ⟨ho.1.apply r, ho.2⟩

theorem told_answered {x : ι × (Arguments × Ty) × Option Outcome} {x' : ι × TypedCall sig × Option Answer}
    (h : x'.1 = x.1 ∧ Types x.2.1 x'.2.1 ∧
      Option.Rel (fun r r' => Says (x.2.1, r) (x'.2.1, r')) x.2.2 x'.2.2) : told x = answered x' := by
  obtain ⟨i, op, o⟩ := x
  obtain ⟨i', call, a⟩ := x'
  obtain ⟨rfl, hop, hrel⟩ := h
  cases hop
  cases hrel with
  | none => rfl
  | some hsays =>
      obtain ⟨-, ha⟩ := hsays
      dsimp only at ha
      subst ha
      rfl

variable [DecidableEq ι] {s s' : RemoteRun ι σ} {I : Interface sig σ}

/-- To its users the server is its interface: each call is one application of a method to a value and the world, at
one moment between the call and its return, and the caller is given the value of the method; however the calls
interleave and whatever is registered meanwhile. -/
theorem typed_calls_atomic (h : s.Starts) (hI : s.registry.Provides I) {evs : List (TypedEvent ι sig σ)}
    (hrun : run step s (evs.map TypedEvent.remote) = some s') :
    ∃ c, run (Atomic.Callers.step Interface.execute) { object := (I, s.server.world) } (evs.map TypedEvent.label) =
        some c ∧
      s'.registry.Provides c.object.1 ∧ s'.server.world = c.object.2 ∧ s'.returned = c.returned.map answered ∧
      s'.server.totalRequests = s.server.totalRequests + .ofNat c.effects.length := by
  obtain ⟨c, hc, hsim⟩ := h.run_simulated hrun
  have hlabels : List.Forall₂ (Atomic.Event.StandsFor Shows Types)
      ((evs.map TypedEvent.remote).map RemoteEvent.label) (evs.map TypedEvent.label) := by
    rw [List.map_map, List.forall₂_map_left_iff, List.forall₂_map_right_iff]
    exact List.forall₂_same.mpr fun e _ => standsFor_label e
  have hstart : Atomic.Callers.StandsFor Shows Types Says
      ({ object := (s.registry, s.server.world) } : Atomic.Callers ι _ (Arguments × Ty) Outcome)
      ({ object := (I, s.server.world) } : Atomic.Callers ι (Interface sig σ × σ) (TypedCall sig) Answer) :=
    ⟨⟨hI, rfl⟩, fun _ => .idle, rfl, .nil, .nil⟩
  have hexecute (o : ServiceRegistry σ × σ) (o' : Interface sig σ × σ) (op : Arguments × Ty) (call : TypedCall sig)
      (ho : Shows o o') (hop : Types op call) :
      Shows (execute o op).2 (Interface.execute o' call).2 ∧
        Says (op, (execute o op).1) (call, (Interface.execute o' call).1) := by
    cases hop
    exact execute_says ho call
  obtain ⟨c', hc', hstands⟩ := Atomic.Callers.standsFor_run hexecute hstart hlabels hc
  obtain ⟨hprovides, hworld⟩ := hstands.object
  rw [hsim.object] at hprovides hworld
  refine ⟨c', hc', hprovides, hworld, ?_, ?_⟩
  · rw [hsim.returned, ← List.forall₂_eq_eq_eq, List.forall₂_map_left_iff, List.forall₂_map_right_iff]
    exact hstands.returned.imp fun _ _ => told_answered
  · rw [hsim.totalRequests, hstands.effects.length_eq]

def echoBool : Method Nat (.bool, .bool) := fun value calls => (some value, calls + 1)

theorem carriesOut_echoBool : CarriesOut (fun payload calls => (.ok payload, calls + 1)) echoBool :=
  fun _ _ => rfl

def boolSignatures : Signatures := fun _ _ => (.bool, .bool)

def sampleRegistration : TypedRegistration boolSignatures Nat :=
  .registerMethod [65] [66] echoBool _ carriesOut_echoBool terseHandler_echo []

def sampleInterface : Interface boolSignatures Nat := .apply .empty sampleRegistration

def sampleTypedCall : TypedCall boolSignatures :=
  { service := [65], method := [66], value := ⟨true, trivial⟩, timestamp := 0, padding := 0 }

def sampleTypedSteps : List (TypedEvent Bool boolSignatures Nat) :=
  [.invoke true sampleTypedCall, .invoke false sampleTypedCall, .serve false true fun _ => 0,
    .register (.unregisterService [65]), .serve true false fun _ => 0, .receive true true fun _ => 0,
    .receive false true fun _ => 0]

theorem typed_calls_atomic_unregistered :
    ∃ s', run step sampleRun (sampleTypedSteps.map TypedEvent.remote) = some s' ∧
      ∃ c, run (Atomic.Callers.step Interface.execute) { object := (sampleInterface, 0) }
          (sampleTypedSteps.map TypedEvent.label) = some c ∧
        s'.registry.Provides c.object.1 ∧ s'.server.world = c.object.2 ∧ s'.returned = c.returned.map answered ∧
        s'.server.totalRequests = 0 + .ofNat c.effects.length := by
  obtain ⟨s', hs'⟩ := Option.isSome_iff_exists.mp
    (by decide +kernel : (run step sampleRun (sampleTypedSteps.map TypedEvent.remote)).isSome = true)
  have hprovides : sampleRun.registry.Provides sampleInterface :=
    ServiceRegistry.provides_empty.apply sampleRegistration
  exact ⟨s', hs', typed_calls_atomic starts_sampleRun hprovides hs'⟩

end RemoteRun

end CoroRpc.Rpc

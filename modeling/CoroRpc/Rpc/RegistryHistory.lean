import CoroRpc.Lib.Trace
import CoroRpc.Rpc.Registration
import Mathlib.Data.List.Induction

namespace CoroRpc.Rpc

open Trace

variable {σ : Type}

inductive RegistryCall (σ : Type)
  | registerService (serviceName : Bytes)
  | registerMethod (serviceName methodName : Bytes) (handler : Bytes → σ → Except Unit Bytes × σ)
      (description : Bytes)
  | unregisterService (serviceName : Bytes)
  | lookup (serviceName methodName : Bytes)

namespace RegistryCall

def serviceName : RegistryCall σ → Bytes
  | registerService s => s
  | registerMethod s _ _ _ => s
  | unregisterService s => s
  | lookup s _ => s

def Registers (s m : Bytes) (handler : Bytes → σ → Except Unit Bytes × σ) (call : RegistryCall σ) : Prop :=
  ∃ description, call = registerMethod s m handler description

def Handler (P : (Bytes → σ → Except Unit Bytes × σ) → Prop) : RegistryCall σ → Prop
  | registerMethod _ _ handler _ => P handler
  | _ => True

/-- The methods that the service had are gone after the call. -/
def Empties (s : Bytes) (call : RegistryCall σ) : Prop := call = registerService s ∨ call = unregisterService s

def Replaces (s m : Bytes) (call : RegistryCall σ) : Prop := call.Empties s ∨ ∃ handler, call.Registers s m handler

theorem Replaces.serviceName {s m : Bytes} {call : RegistryCall σ} (h : call.Replaces s m) : call.serviceName = s := by
  rcases h with (rfl | rfl) | ⟨handler, description, rfl⟩ <;> rfl

end RegistryCall

namespace ServiceRegistry

def apply (r : ServiceRegistry σ) : RegistryCall σ → ServiceRegistry σ
  | .registerService s => r.registerService s
  | .registerMethod s m handler description => r.registerMethod s m (some handler) description
  | .unregisterService s => r.unregisterService s
  | .lookup _ _ => r

def after (calls : List (RegistryCall σ)) : ServiceRegistry σ := calls.foldl apply ∅

theorem after_concat (calls : List (RegistryCall σ)) (call : RegistryCall σ) :
    after (calls ++ [call]) = (after calls).apply call := List.foldl_concat apply ∅ call calls

theorem methodsOf_unregisterService (r : ServiceRegistry σ) (s t : Bytes) :
    (r.unregisterService s).methodsOf t = if t = s then ∅ else r.methodsOf t := by
  by_cases h : t = s
  · subst h
    simp [methodsOf, unregisterService]
  · simp [methodsOf, unregisterService, h]

/-- The entry for a method after a call. -/
theorem lookup_apply (r : ServiceRegistry σ) (call : RegistryCall σ) (s m : Bytes) :
    (call.Empties s ∧ ((r.apply call).methodsOf s).lookup m = none) ∨
      (∃ handler, call.Registers s m handler ∧ ((r.apply call).methodsOf s).lookup m = some (some handler)) ∨
      ¬call.Replaces s m ∧ ((r.apply call).methodsOf s).lookup m = (r.methodsOf s).lookup m := by
  cases call with
  | registerService s' =>
      rw [apply, methodsOf_registerService]
      by_cases h : s = s'
      · subst h
        exact .inl ⟨.inl rfl, by simp⟩
      · exact .inr (.inr ⟨fun hr => h hr.serviceName.symm, by rw [if_neg h]⟩)
  | unregisterService s' =>
      rw [apply, methodsOf_unregisterService]
      by_cases h : s = s'
      · subst h
        exact .inl ⟨.inr rfl, by simp⟩
      · exact .inr (.inr ⟨fun hr => h hr.serviceName.symm, by rw [if_neg h]⟩)
  | registerMethod s' m' handler description =>
      rw [apply, methodsOf_registerMethod]
      by_cases h : s = s'
      · subst h
        by_cases hm : m = m'
        · subst hm
          exact .inr (.inl ⟨handler, ⟨description, rfl⟩, by simp⟩)
        · refine .inr (.inr ⟨?_, by rw [if_pos rfl, AList.lookup_insert_ne hm]⟩)
          rintro ((heq | heq) | ⟨handler, description, heq⟩)
          · cases heq
          · cases heq
          · cases heq
            exact hm rfl
      · exact .inr (.inr ⟨fun hr => h hr.serviceName.symm, by rw [if_neg h]⟩)
  | lookup s' m' =>
      refine .inr (.inr ⟨?_, rfl⟩)
      rintro ((heq | heq) | ⟨handler, description, heq⟩) <;> cases heq

def Handlers (P : (Bytes → σ → Except Unit Bytes × σ) → Prop) (r : ServiceRegistry σ) : Prop :=
  ∀ service method handler, r.findMethod service method = some handler → P handler

variable {P : (Bytes → σ → Except Unit Bytes × σ) → Prop}

theorem handlers_empty : Handlers P ∅ := by
  intro service method handler h
  cases h

theorem Handlers.apply {r : ServiceRegistry σ} (h : r.Handlers P) {call : RegistryCall σ} (hcall : call.Handler P) :
    (r.apply call).Handlers P := by
  intro service method handler hfind
  rw [findMethod_eq] at hfind
  obtain ⟨-, hlook⟩ | ⟨handler', ⟨description, rfl⟩, hlook⟩ | ⟨-, hlook⟩ := r.lookup_apply call service method
  · rw [hlook] at hfind
    cases hfind
  · rw [hlook] at hfind
    cases hfind
    exact hcall
  · rw [hlook, ← findMethod_eq] at hfind
    exact h service method handler hfind

/-- The entries of the registry are the registrations that were not undone. -/
theorem lookup_after (calls : List (RegistryCall σ)) (s m : Bytes) (entry : MethodHandler σ) :
    ((after calls).methodsOf s).lookup m = some entry ↔
      ∃ handler, entry = some handler ∧
        Last (RegistryCall.Registers s m handler) (RegistryCall.Replaces s m) calls := by
  induction calls using List.reverseRecOn with
  | nil =>
      refine iff_of_false ?_ ?_
      · simp [after, methodsOf]
      · rintro ⟨handler, -, hlast⟩
        exact not_last_nil hlast
  | append_singleton calls call ih =>
      rw [after_concat]
      simp only [last_concat]
      rcases (after calls).lookup_apply call s m with ⟨hempties, hlook⟩ | ⟨handler, hreg, hlook⟩ | ⟨hkeep, hlook⟩
      · rw [hlook]
        refine iff_of_false (by simp) ?_
        rintro ⟨handler, -, ⟨description, rfl⟩ | ⟨hnot, -⟩⟩
        · rcases hempties with heq | heq <;> cases heq
        · exact hnot (.inl hempties)
      · rw [hlook, Option.some_inj]
        constructor
        · rintro rfl
          exact ⟨handler, rfl, .inl hreg⟩
        · rintro ⟨handler', rfl, ⟨description', rfl⟩ | ⟨hnot, -⟩⟩
          · obtain ⟨description, heq⟩ := hreg
            cases heq
            rfl
          · exact absurd (.inr ⟨handler, hreg⟩) hnot
      · rw [hlook, ih]
        constructor
        · rintro ⟨handler, rfl, hlast⟩
          exact ⟨handler, rfl, .inr ⟨hkeep, hlast⟩⟩
        · rintro ⟨handler, rfl, hreg | ⟨-, hlast⟩⟩
          · exact absurd (.inr ⟨handler, hreg⟩) hkeep
          · exact ⟨handler, rfl, hlast⟩

theorem findMethod_after_iff (calls : List (RegistryCall σ)) (s m : Bytes)
    (handler : Bytes → σ → Except Unit Bytes × σ) :
    (after calls).findMethod s m = some handler ↔
      Last (RegistryCall.Registers s m handler) (RegistryCall.Replaces s m) calls := by
  rw [findMethod_eq]
  cases hlook : ((after calls).methodsOf s).lookup m with
  | none =>
      refine iff_of_false nofun fun hlast => ?_
      rw [(lookup_after calls s m _).mpr ⟨handler, rfl, hlast⟩] at hlook
      cases hlook
  | some entry =>
      obtain ⟨handler', rfl, hlast'⟩ := (lookup_after calls s m entry).mp hlook
      rw [Option.getD_some]
      constructor
      · intro heq
        cases heq
        exact hlast'
      · intro hlast
        rw [(lookup_after calls s m _).mpr ⟨handler, rfl, hlast⟩] at hlook
        exact (Option.some.inj hlook).symm

/-- A method is there exactly when it can be called. -/
theorem mem_methodsOf_after (calls : List (RegistryCall σ)) (s m : Bytes) :
    m ∈ (after calls).methodsOf s ↔ ∃ handler, (after calls).findMethod s m = some handler := by
  rw [← AList.lookup_isSome, Option.isSome_iff_exists]
  constructor
  · rintro ⟨entry, hlook⟩
    obtain ⟨handler, -, hlast⟩ := (lookup_after calls s m entry).mp hlook
    exact ⟨handler, (findMethod_after_iff calls s m handler).mpr hlast⟩
  · rintro ⟨handler, hfind⟩
    exact ⟨_, (lookup_after calls s m _).mpr ⟨handler, rfl, (findMethod_after_iff calls s m handler).mp hfind⟩⟩

structure SameAnswers (s : Bytes) (a b : ServiceRegistry σ) : Prop where
  find : ∀ m, b.findMethod s m = a.findMethod s m
  has : ∀ m, b.hasMethod s m = a.hasMethod s m
  list : b.listMethods s = a.listMethods s
  service : b.hasService s = a.hasService s
  services : s ∈ b.listServices ↔ s ∈ a.listServices

theorem hasService_iff (r : ServiceRegistry σ) (s : Bytes) : r.hasService s = true ↔ s ∈ r.listServices := by
  rw [hasService, AList.lookup_isSome, listServices, AList.mem_keys]

/-- A call on another service. -/
theorem lookup_apply_ne (r : ServiceRegistry σ) {call : RegistryCall σ} {s : Bytes} (h : call.serviceName ≠ s) :
    (r.apply call).lookup s = r.lookup s := by
  cases call with
  | registerService s' => exact AList.lookup_insert_ne (Ne.symm h)
  | registerMethod s' m handler description => exact AList.lookup_insert_ne (Ne.symm h)
  | unregisterService s' => exact AList.lookup_erase_ne (Ne.symm h)
  | lookup s' m => rfl

theorem sameAnswers_of_lookup {a b : ServiceRegistry σ} {s : Bytes} (h : b.lookup s = a.lookup s) :
    SameAnswers s a b := by
  have hservice : b.hasService s = a.hasService s := by
    rw [hasService, hasService, h]
  refine ⟨fun m => ?_, fun m => ?_, ?_, hservice, ?_⟩
  · rw [findMethod, findMethod, h]
  · rw [hasMethod, hasMethod, h]
  · rw [listMethods, listMethods, h]
  · rw [← hasService_iff, ← hasService_iff, hservice]

end ServiceRegistry

/-- After any history of calls the registry finds the handler of the last registration of a method that no
later call for the service undid, and the other questions are answered accordingly. A call for one service
changes no answer for another. -/
theorem registry_follows_history (calls : List (RegistryCall σ)) :
    (∀ s m handler, (ServiceRegistry.after calls).findMethod s m = some handler ↔
        Last (RegistryCall.Registers s m handler) (RegistryCall.Replaces s m) calls) ∧
      (∀ s m, (ServiceRegistry.after calls).hasMethod s m = true ↔
        ∃ handler, (ServiceRegistry.after calls).findMethod s m = some handler) ∧
      (∀ s, ((ServiceRegistry.after calls).listMethods s).Nodup ∧
        ∀ m, m ∈ (ServiceRegistry.after calls).listMethods s ↔
          ∃ handler, (ServiceRegistry.after calls).findMethod s m = some handler) ∧
      ((ServiceRegistry.after calls).listServices.Nodup ∧
        ∀ s, (ServiceRegistry.after calls).hasService s = true ↔ s ∈ (ServiceRegistry.after calls).listServices) ∧
      ∀ call s, call.serviceName ≠ s →
        ServiceRegistry.SameAnswers s (ServiceRegistry.after calls) (ServiceRegistry.after (calls ++ [call])) := by
  refine ⟨ServiceRegistry.findMethod_after_iff calls, fun s m => ?_, fun s => ⟨?_, fun m => ?_⟩, ⟨?_, ?_⟩,
    fun call s h => ?_⟩
  · rw [ServiceRegistry.hasMethod_iff]
    exact ServiceRegistry.mem_methodsOf_after calls s m
  · rw [ServiceRegistry.listMethods_eq]
    exact AList.keys_nodup _
  · rw [ServiceRegistry.listMethods_eq, ← AList.mem_keys]
    exact ServiceRegistry.mem_methodsOf_after calls s m
  · exact AList.keys_nodup _
  · exact ServiceRegistry.hasService_iff _
  · rw [ServiceRegistry.after_concat]
    exact ServiceRegistry.sameAnswers_of_lookup (ServiceRegistry.lookup_apply_ne _ h)

end CoroRpc.Rpc

import CoroRpc.Rpc.ServiceRegistry

namespace CoroRpc.Rpc

variable {σ : Type}

structure Registration (σ : Type) where
  methodName : Bytes
  handler : MethodHandler σ
  description : Bytes := []

namespace ServiceRegistry

def registerMethods (r : ServiceRegistry σ) (serviceName : Bytes) (calls : List (Registration σ)) :
    ServiceRegistry σ :=
  calls.foldl (fun r c => r.registerMethod serviceName c.methodName c.handler c.description) r

structure SameMethods (a b : ServiceRegistry σ) : Prop where
  find : ∀ s m, a.findMethod s m = b.findMethod s m
  has : ∀ s m, a.hasMethod s m = b.hasMethod s m
  list : ∀ s, (a.listMethods s).Perm (b.listMethods s)

def methodsOf (r : ServiceRegistry σ) (s : Bytes) : AList fun _ : Bytes => MethodHandler σ :=
  ((r.lookup s).map ServiceInfo.methods).getD ∅

theorem findMethod_eq (r : ServiceRegistry σ) (s m : Bytes) :
    r.findMethod s m = ((r.methodsOf s).lookup m).getD none := by
  rw [findMethod, methodsOf]
  cases r.lookup s with
  | none => simp
  | some info =>
      simp only [Option.map_some, Option.getD_some]
      cases info.methods.lookup m <;> rfl

theorem hasMethod_eq (r : ServiceRegistry σ) (s m : Bytes) :
    r.hasMethod s m = ((r.methodsOf s).lookup m).isSome := by
  rw [hasMethod, methodsOf]
  cases r.lookup s <;> simp

theorem listMethods_eq (r : ServiceRegistry σ) (s : Bytes) : r.listMethods s = (r.methodsOf s).keys := by
  rw [listMethods, methodsOf]
  cases r.lookup s <;> simp

theorem hasMethod_iff {r : ServiceRegistry σ} {s m : Bytes} : r.hasMethod s m = true ↔ m ∈ r.methodsOf s := by
  rw [hasMethod_eq, AList.lookup_isSome]

theorem sameMethods_of_perm {a b : ServiceRegistry σ}
    (h : ∀ s, (a.methodsOf s).entries.Perm (b.methodsOf s).entries) : a.SameMethods b := by
  constructor
  · intro s m
    rw [findMethod_eq, findMethod_eq, AList.perm_lookup (h s)]
  · intro s m
    rw [hasMethod_eq, hasMethod_eq, AList.perm_lookup (h s)]
  · intro s
    rw [listMethods_eq, listMethods_eq]
    exact (h s).map Sigma.fst

theorem methodsOf_registerService (r : ServiceRegistry σ) (s t : Bytes) :
    (r.registerService s).methodsOf t = if t = s then ∅ else r.methodsOf t := by
  by_cases h : t = s
  · subst h
    simp [methodsOf, registerService]
  · simp [methodsOf, registerService, h]

theorem methodsOf_registerMethod (r : ServiceRegistry σ) (s t m : Bytes) (handler : MethodHandler σ)
    (description : Bytes) : (r.registerMethod s m handler description).methodsOf t =
      if t = s then (r.methodsOf s).insert m handler else r.methodsOf t := by
  by_cases h : t = s
  · subst h
    cases hr : r.lookup t <;> simp [methodsOf, registerMethod, hr]
  · simp [methodsOf, registerMethod, h]

def insertAll (methods : AList fun _ : Bytes => MethodHandler σ) (calls : List (Registration σ)) :
    AList fun _ : Bytes => MethodHandler σ :=
  calls.foldl (fun a c => a.insert c.methodName c.handler) methods

theorem methodsOf_registerMethods (r : ServiceRegistry σ) (s t : Bytes) (calls : List (Registration σ)) :
    (r.registerMethods s calls).methodsOf t =
      if t = s then insertAll (r.methodsOf s) calls else r.methodsOf t := by
  induction calls generalizing r with
  | nil =>
      by_cases h : t = s
      · rw [if_pos h, h]
        rfl
      · rw [if_neg h]
        rfl
  | cons c calls ih =>
      rw [registerMethods, List.foldl_cons]
      refine (ih _).trans ?_
      rw [methodsOf_registerMethod, methodsOf_registerMethod, if_pos rfl]
      by_cases h : t = s
      · rw [if_pos h, if_pos h]
        rfl
      · rw [if_neg h, if_neg h, if_neg h]

theorem insertAll_congr {a b : AList fun _ : Bytes => MethodHandler σ} (h : a.entries.Perm b.entries)
    (calls : List (Registration σ)) : (insertAll a calls).entries.Perm (insertAll b calls).entries := by
  induction calls generalizing a b with
  | nil => exact h
  | cons c calls ih => exact ih (AList.perm_insert h)

theorem insertAll_perm {calls calls' : List (Registration σ)} (h : calls.Perm calls')
    (hnd : (calls.map Registration.methodName).Nodup) (a : AList fun _ : Bytes => MethodHandler σ) :
    (insertAll a calls).entries.Perm (insertAll a calls').entries := by
  induction h generalizing a with
  | nil => exact List.Perm.refl _
  | cons c _ ih => exact ih (List.nodup_cons.mp hnd).2 (a.insert c.methodName c.handler)
  | swap c d calls =>
      have hne : d.methodName ≠ c.methodName := by
        intro heq
        simp [heq] at hnd
      exact insertAll_congr (AList.insert_insert_of_ne a hne) calls
  | trans h₁ _ ih₁ ih₂ => exact (ih₁ hnd a).trans (ih₂ ((h₁.map _).nodup_iff.mp hnd) a)

theorem mem_insertAll {a : AList fun _ : Bytes => MethodHandler σ} {calls : List (Registration σ)} {m : Bytes} :
    m ∈ insertAll a calls ↔ m ∈ a ∨ m ∈ calls.map Registration.methodName := by
  induction calls generalizing a with
  | nil => simp [insertAll]
  | cons c calls ih =>
      have hcons : insertAll a (c :: calls) = insertAll (a.insert c.methodName c.handler) calls := rfl
      rw [hcons, ih, AList.mem_insert, List.map_cons, List.mem_cons, or_assoc, or_left_comm]

def registerAround (r : ServiceRegistry σ) (s : Bytes) (before after : List (Registration σ)) : ServiceRegistry σ :=
  ((r.registerMethods s before).registerService s).registerMethods s after

structure OrderFree (r : ServiceRegistry σ) (s : Bytes) (before after : List (Registration σ)) : Prop where
  same : ∀ calls, (before ++ after).Perm calls →
    (r.registerAround s before after).SameMethods (r.registerAround s [] calls)
  kept : ∀ t m, (r.registerMethods s before).hasMethod t m →
    ((r.registerMethods s before).registerService s).hasMethod t m

theorem same_of_first {r : ServiceRegistry σ} {s : Bytes} {calls calls' : List (Registration σ)}
    (h : calls.Perm calls') (hnd : (calls.map Registration.methodName).Nodup) :
    (r.registerAround s [] calls).SameMethods (r.registerAround s [] calls') := by
  apply sameMethods_of_perm
  intro t
  rw [registerAround, registerAround, methodsOf_registerMethods, methodsOf_registerMethods]
  by_cases ht : t = s
  · rw [if_pos ht, if_pos ht]
    exact insertAll_perm h hnd _
  · rw [if_neg ht, if_neg ht]

/-- `register_service` puts an empty record in the place of the service's methods: its place among the calls does
not matter exactly when the service has no method yet when it comes. -/
theorem registration_orderFree_iff (r : ServiceRegistry σ) (s : Bytes) (before after : List (Registration σ))
    (hnd : ((before ++ after).map Registration.methodName).Nodup) :
    r.OrderFree s before after ↔ before = [] ∧ ∀ m, r.hasMethod s m = false := by
  constructor
  · intro h
    have hnone (m : Bytes) : m ∉ insertAll (r.methodsOf s) before := by
      intro hm
      have hhas : (r.registerMethods s before).hasMethod s m := by
        rw [hasMethod_iff, methodsOf_registerMethods, if_pos rfl]
        exact hm
      have hafter := h.kept s m hhas
      rw [hasMethod_iff, methodsOf_registerService, if_pos rfl] at hafter
      exact AList.notMem_empty m hafter
    constructor
    · cases before with
      | nil => rfl
      | cons c before =>
          exact absurd (mem_insertAll.mpr (Or.inr List.mem_cons_self)) (hnone c.methodName)
    · intro m
      rw [Bool.eq_false_iff, Ne, hasMethod_iff]
      exact fun hm => hnone m (mem_insertAll.mpr (Or.inl hm))
  · rintro ⟨rfl, hnone⟩
    refine ⟨fun calls hcalls => same_of_first hcalls hnd, fun t m hhas => ?_⟩
    have hhas : r.hasMethod t m := hhas
    rw [hasMethod_iff, methodsOf_registerService]
    by_cases ht : t = s
    · rw [ht, hnone m] at hhas
      cases hhas
    · rw [if_neg ht]
      exact hasMethod_iff.mp hhas

def echo : MethodHandler Unit := some fun data world => (.ok data, world)

theorem registration_orderFree_first :
    OrderFree ∅ [1] [] [{ methodName := [2], handler := echo }, { methodName := [3], handler := echo }] :=
  (registration_orderFree_iff ∅ [1] [] _ (by decide)).mpr ⟨rfl, fun _ => rfl⟩

/-- The method that was registered first is gone. -/
theorem registration_loses_method :
    (registerAround ∅ [1] [{ methodName := [2], handler := echo }] []).hasMethod [1] [2] = false ∧
      (registerAround ∅ [1] [] [{ methodName := [2], handler := echo }]).hasMethod [1] [2] = true ∧
      ¬OrderFree ∅ [1] [{ methodName := [2], handler := echo }] [] := by
  refine ⟨by decide, by decide, fun h => ?_⟩
  exact absurd ((h.same _ (List.Perm.refl _)).has [1] [2]) (by decide)

end ServiceRegistry

end CoroRpc.Rpc

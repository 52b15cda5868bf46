import Mathlib.Data.List.Basic
import Mathlib.Logic.Relation
import Mathlib.Order.Basic

namespace CoroRpc.Trace

variable {σ ε : Type}

/-- The state after the events, if each of them was possible when it came. -/
def run (step : σ → ε → Option σ) : σ → List ε → Option σ
  | s, [] => some s
  | s, e :: es => (step s e).bind fun t => run step t es

variable {step : σ → ε → Option σ}

theorem run_nil {s t : σ} : run step s [] = some t ↔ s = t := Option.some_inj

theorem run_cons {s t : σ} {e : ε} {es : List ε} :
    run step s (e :: es) = some t ↔ ∃ u, step s e = some u ∧ run step u es = some t := Option.bind_eq_some_iff

theorem run_append {s t u : σ} {es fs : List ε} (hes : run step s es = some t) (hfs : run step t fs = some u) :
    run step s (es ++ fs) = some u := by
  induction es generalizing s with
  | nil =>
      rw [run_nil] at hes
      subst hes
      exact hfs
  | cons e es ih =>
      obtain ⟨v, hv, ht⟩ := run_cons.mp hes
      exact run_cons.mpr ⟨v, hv, ih ht⟩

theorem run_split {s u : σ} {es fs : List ε} (h : run step s (es ++ fs) = some u) :
    ∃ t, run step s es = some t ∧ run step t fs = some u := by
  induction es generalizing s with
  | nil => exact ⟨s, run_nil.mpr rfl, h⟩
  | cons e es ih =>
      obtain ⟨v, hv, hu⟩ := run_cons.mp h
      obtain ⟨t, ht, hfs⟩ := ih hu
      exact ⟨t, run_cons.mpr ⟨v, hv, ht⟩, hfs⟩

theorem run_inv {I : σ → Prop} (hstep : ∀ s e t, I s → step s e = some t → I t) {s t : σ} {es : List ε}
    (hs : I s) (h : run step s es = some t) : I t := by
  induction es generalizing s with
  | nil =>
      rw [run_nil] at h
      subst h
      exact hs
  | cons e es ih =>
      obtain ⟨u, hu, ht⟩ := run_cons.mp h
      exact ih (hstep s e u hs hu) ht

/-- `P` holds in every state that the events lead through. -/
def Throughout (step : σ → ε → Option σ) (P : σ → Prop) (s : σ) (es : List ε) : Prop :=
  ∀ fs t, fs <+: es → run step s fs = some t → P t

/-- Every event comes in a state that meets `C` for it. -/
def EachStep (step : σ → ε → Option σ) (C : σ → ε → Prop) (s : σ) (es : List ε) : Prop :=
  ∀ fs e t, fs ++ [e] <+: es → run step s fs = some t → C t e

variable {P : σ → Prop} {C : σ → ε → Prop}

theorem throughout_nil {s : σ} : Throughout step P s [] ↔ P s := by
  constructor
  · intro h
    exact h [] s List.prefix_rfl (run_nil.mpr rfl)
  · intro h fs t hfs ht
    rw [List.prefix_nil.mp hfs, run_nil] at ht
    exact ht ▸ h

theorem throughout_cons {s u : σ} {e : ε} {es : List ε} (hu : step s e = some u) :
    Throughout step P s (e :: es) ↔ P s ∧ Throughout step P u es := by
  constructor
  · intro h
    refine ⟨h [] s List.nil_prefix (run_nil.mpr rfl), fun fs t hfs ht => ?_⟩
    exact h (e :: fs) t (List.cons_prefix_cons.mpr ⟨rfl, hfs⟩) (run_cons.mpr ⟨u, hu, ht⟩)
  · rintro ⟨hs, h⟩ fs t hfs ht
    cases fs with
    | nil =>
        rw [run_nil] at ht
        exact ht ▸ hs
    | cons f fs =>
        obtain ⟨rfl, hrest⟩ := List.cons_prefix_cons.mp hfs
        obtain ⟨v, hv, ht⟩ := run_cons.mp ht
        rw [hu] at hv
        cases hv
        exact h fs t hrest ht

theorem eachStep_nil {s : σ} : EachStep step C s [] := by
  intro fs e t h _
  exact absurd (List.prefix_nil.mp h) (List.append_ne_nil_of_right_ne_nil _ (List.cons_ne_nil _ _))

theorem eachStep_cons {s u : σ} {e : ε} {es : List ε} (hu : step s e = some u) :
    EachStep step C s (e :: es) ↔ C s e ∧ EachStep step C u es := by
  constructor
  · intro h
    refine ⟨h [] e s (List.prefix_append [e] es) (run_nil.mpr rfl), fun fs f t hfs ht => ?_⟩
    exact h (e :: fs) f t (List.cons_prefix_cons.mpr ⟨rfl, hfs⟩) (run_cons.mpr ⟨u, hu, ht⟩)
  · rintro ⟨hs, h⟩ fs f t hfs ht
    cases fs with
    | nil =>
        rw [run_nil] at ht
        obtain ⟨rfl, -⟩ := List.cons_prefix_cons.mp hfs
        exact ht ▸ hs
    | cons g fs =>
        obtain ⟨rfl, hrest⟩ := List.cons_prefix_cons.mp hfs
        obtain ⟨v, hv, ht⟩ := run_cons.mp ht
        rw [hu] at hv
        cases hv
        exact h fs f t hrest ht

theorem throughout_append {s t : σ} {es fs : List ε} (hes : run step s es = some t)
    (h : Throughout step P s (es ++ fs)) : Throughout step P t fs := by
  intro gs u hgs hu
  exact h (es ++ gs) u ((List.prefix_append_right_inj es).mpr hgs) (run_append hes hu)

/-- A quantity that no step lowers, under an invariant `I` and as long as `P` holds, is not lower at the
end of a run that keeps `P`. -/
theorem le_of_throughout {α : Type} [Preorder α] {I : σ → Prop} {f : σ → α}
    (hinv : ∀ s e t, I s → step s e = some t → I t)
    (hstep : ∀ s e t, I s → P s → step s e = some t → f s ≤ f t) {s t : σ} {es : List ε}
    (hI : I s) (hP : Throughout step P s es) (h : run step s es = some t) : f s ≤ f t := by
  induction es generalizing s with
  | nil =>
      rw [run_nil] at h
      exact le_of_eq (congrArg f h)
  | cons e es ih =>
      obtain ⟨u, hu, ht⟩ := run_cons.mp h
      obtain ⟨hs, hrest⟩ := (throughout_cons hu).mp hP
      exact (hstep s e u hI hs hu).trans (ih (hinv s e u hI hu) hrest ht)

/-- The invariant rule for runs whose steps all meet `C`. -/
theorem throughout_of_eachStep (hstep : ∀ s e t, P s → C s e → step s e = some t → P t) {s : σ} {es : List ε}
    (hs : P s) (hC : EachStep step C s es) : Throughout step P s es := by
  intro fs t hfs ht
  induction fs generalizing s es with
  | nil =>
      rw [run_nil] at ht
      exact ht ▸ hs
  | cons f fs ih =>
      obtain ⟨es, rfl⟩ := hfs
      obtain ⟨u, hu, ht⟩ := run_cons.mp ht
      obtain ⟨hf, hrest⟩ := (eachStep_cons hu).mp hC
      exact ih (hstep s f u hs hf hu) hrest (List.prefix_append fs es) ht

/-- If a step that comes while `I` and `P` hold keeps `P` exactly when it meets `C`, and keeps `I` if it keeps
`P`, then a run keeps `P` throughout exactly when each of its steps meets `C`. What `I` says may depend on the
events still to come. -/
theorem throughout_iff_within {I : List ε → σ → Prop}
    (hinv : ∀ s e es t, I (e :: es) s → P s → step s e = some t → P t → I es t)
    (hstep : ∀ s e es t, I (e :: es) s → P s → step s e = some t → (P t ↔ C s e)) {s t : σ} {es : List ε}
    (hI : I es s) (hP : P s) (h : run step s es = some t) :
    Throughout step P s es ↔ EachStep step C s es := by
  induction es generalizing s with
  | nil => exact iff_of_true (throughout_nil.mpr hP) eachStep_nil
  | cons e es ih =>
      obtain ⟨u, hu, ht⟩ := run_cons.mp h
      rw [throughout_cons hu, eachStep_cons hu, ← hstep s e es u hI hP hu]
      constructor
      · rintro ⟨-, hrest⟩
        have hPu := hrest [] u List.nil_prefix (run_nil.mpr rfl)
        exact ⟨hPu, (ih (hinv s e es u hI hP hu hPu) hPu ht).mp hrest⟩
      · rintro ⟨hPu, hrest⟩
        exact ⟨hP, (ih (hinv s e es u hI hP hu hPu) hPu ht).mpr hrest⟩

theorem throughout_iff_keeping {I : σ → Prop} (hinv : ∀ s e t, I s → P s → step s e = some t → P t → I t)
    (hstep : ∀ s e t, I s → P s → step s e = some t → (P t ↔ C s e)) {s t : σ} {es : List ε}
    (hI : I s) (hP : P s) (h : run step s es = some t) :
    Throughout step P s es ↔ EachStep step C s es :=
  throughout_iff_within (I := fun _ => I) (fun s e _ t => hinv s e t) (fun s e _ t => hstep s e t) hI hP h

/-- The same for an invariant that every step keeps. -/
theorem throughout_iff {I : σ → Prop} (hinv : ∀ s e t, I s → step s e = some t → I t)
    (hstep : ∀ s e t, I s → P s → step s e = some t → (P t ↔ C s e)) {s t : σ} {es : List ε}
    (hI : I s) (hP : P s) (h : run step s es = some t) :
    Throughout step P s es ↔ EachStep step C s es :=
  throughout_iff_keeping (fun s e t hI _ hs _ => hinv s e t hI hs) hstep hI hP h

theorem concat_split {es before after : List ε} {e f : ε} (h : es ++ [e] = before ++ f :: after) :
    before = es ∧ f = e ∨ ∃ after', after = after' ++ [e] ∧ es = before ++ f :: after' := by
  rcases List.eq_nil_or_concat after with rfl | ⟨after', last, rfl⟩
  · obtain ⟨hbefore, hlast⟩ := List.append_inj' h rfl
    exact .inl ⟨hbefore.symm, (List.cons.inj hlast).1.symm⟩
  · rw [List.concat_eq_append, ← List.cons_append, ← List.append_assoc] at h
    obtain ⟨hes, hlast⟩ := List.append_inj' h rfl
    refine .inr ⟨after', ?_, hes⟩
    rw [List.concat_eq_append, (List.cons.inj hlast).1]

def Last (p q : ε → Prop) (es : List ε) : Prop :=
  ∃ before e after, es = before ++ e :: after ∧ p e ∧ ∀ f ∈ after, ¬q f

theorem not_last_nil {p q : ε → Prop} : ¬Last p q [] := by
  rintro ⟨before, e, after, h, -⟩
  exact absurd h.symm (by simp)

theorem last_concat {p q : ε → Prop} {es : List ε} {e : ε} : Last p q (es ++ [e]) ↔ p e ∨ ¬q e ∧ Last p q es := by
  constructor
  · rintro ⟨before, f, after, heq, hf, hafter⟩
    rcases concat_split heq with ⟨-, rfl⟩ | ⟨after', rfl, hes⟩
    · exact .inl hf
    · refine .inr ⟨hafter e (by simp), before, f, after', hes, hf, fun g hg => ?_⟩
      exact hafter g (List.mem_append_left _ hg)
  · rintro (he | ⟨hq, before, f, after, rfl, hf, hafter⟩)
    · exact ⟨es, e, [], rfl, he, by simp⟩
    · refine ⟨before, f, after ++ [e], by rw [List.append_assoc, List.cons_append], hf, ?_⟩
      exact List.forall_mem_append.mpr ⟨hafter, List.forall_mem_singleton.mpr hq⟩

def Only (step : σ → ε → Option σ) (s t : σ) : Prop := ∃ e, step s e = some t ∧ ∀ f u, step s f = some u → f = e

/-- Where each step on the way to a last state is the only one possible, every run is a beginning of
one run, which ends there. -/
theorem run_of_only {s t : σ} (h : Relation.ReflTransGen (Only step) s t) (ht : ∀ e, step t e = none) :
    ∃ es, run step s es = some t ∧ ∀ fs u, run step s fs = some u → fs <+: es := by
  induction h using Relation.ReflTransGen.head_induction_on with
  | refl =>
      refine ⟨[], run_nil.mpr rfl, fun fs u hu => ?_⟩
      cases fs with
      | nil => exact List.prefix_rfl
      | cons f fs =>
          obtain ⟨v, hv, -⟩ := run_cons.mp hu
          rw [ht f] at hv
          cases hv
  | head hstep _ ih =>
      obtain ⟨e, he, honly⟩ := hstep
      obtain ⟨es, hes, hall⟩ := ih
      refine ⟨e :: es, run_cons.mpr ⟨_, he, hes⟩, fun fs u hu => ?_⟩
      cases fs with
      | nil => exact List.nil_prefix
      | cons f fs =>
          obtain ⟨v, hv, hu⟩ := run_cons.mp hu
          obtain rfl := honly f v hv
          rw [he] at hv
          cases hv
          exact List.cons_prefix_cons.mpr ⟨rfl, hall fs u hu⟩

end CoroRpc.Trace

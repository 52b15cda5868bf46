import CoroRpc.Lib.Trace
import Mathlib.Data.List.Forall2
import Mathlib.Data.List.Induction
import Mathlib.Logic.Function.Basic

/-! An object with concurrent callers: an operation takes effect at one moment between its call and its
return. -/

namespace CoroRpc.Atomic

open Trace

variable {ι ω α ρ : Type}

inductive Phase (α ρ : Type)
  | idle
  | pending (op : α)
  | done (op : α) (result : ρ)

-- A caller that is `lost` will not be told the result of its operation, and it was told so. `effects` lists the
-- operations in the order in which they took effect, `returned` in the order of their returns.
structure Callers (ι ω α ρ : Type) where
  object : ω
  phase : ι → Phase α ρ := fun _ => .idle
  lost : ι → Bool := fun _ => false
  effects : List (ι × α × ρ) := []
  returned : List (ι × α × Option ρ) := []

inductive Event (ι ω α : Type)
  | invoke (i : ι) (op : α)
  | take (i : ι)
  | finish (i : ι)
  | lose (i : ι)
  | change (f : ω → ω)

namespace Callers

variable [DecidableEq ι]

def step (execute : ω → α → ρ × ω) (c : Callers ι ω α ρ) : Event ι ω α → Option (Callers ι ω α ρ)
  | .invoke i op =>
      match c.phase i, c.lost i with
      | .idle, false => some { c with phase := Function.update c.phase i (.pending op) }
      | _, _ => none
  | .take i =>
      match c.phase i with
      | .pending op =>
          let r := execute c.object op
          some
            { c with
              object := r.2
              phase := Function.update c.phase i (.done op r.1)
              effects := c.effects ++ [(i, op, r.1)] }
      | _ => none
  | .finish i =>
      match c.phase i, c.lost i with
      | .done op result, false =>
          some
            { c with
              phase := Function.update c.phase i .idle
              returned := c.returned ++ [(i, op, some result)] }
      | _, _ => none
  | .lose i =>
      match c.phase i, c.lost i with
      | .pending op, false | .done op _, false =>
          some
            { c with
              lost := Function.update c.lost i true
              returned := c.returned ++ [(i, op, none)] }
      | _, _ => none
  | .change f => some { c with object := f c.object }

def effectsOf (c : Callers ι ω α ρ) (i : ι) : List (α × ρ) :=
  c.effects.filterMap fun e => if e.1 = i then some e.2 else none

def returnedTo (c : Callers ι ω α ρ) (i : ι) : List (α × ρ) :=
  c.returned.filterMap fun e => if e.1 = i then e.2.2.map (e.2.1, ·) else none

end Callers

namespace Phase

def called : Phase α ρ → Option α
  | idle => none
  | pending op => some op
  | done op _ => some op

def waiting : Phase α ρ → List α
  | pending op => [op]
  | _ => []

def finished : Phase α ρ → List (α × ρ)
  | done op result => [(op, result)]
  | _ => []

end Phase

namespace Event

variable [DecidableEq ι]

def invocations (i : ι) (evs : List (Event ι ω α)) : List α :=
  evs.filterMap fun
    | invoke j op => if j = i then some op else none
    | _ => none

theorem invocations_concat (i : ι) (evs : List (Event ι ω α)) (e : Event ι ω α) :
    invocations i (evs ++ [e]) = invocations i evs ++ invocations i [e] := List.filterMap_append

end Event

/-- A forward simulation in which each step of one system is a run of the other, of events that `P` admits. -/
theorem run_refines {σ τ ε δ : Type} {step : σ → ε → Option σ} {step' : τ → δ → Option τ} {P : ε → List δ → Prop}
    {R : σ → τ → Prop}
    (hstep : ∀ s t e s', R s t → step s e = some s' → ∃ ds t', P e ds ∧ run step' t ds = some t' ∧ R s' t')
    {s s' : σ} {t : τ} {es : List ε} (hR : R s t) (h : run step s es = some s') :
    ∃ (dss : List (List δ)) (t' : τ), List.Forall₂ P es dss ∧ run step' t dss.flatten = some t' ∧ R s' t' := by
  induction es generalizing s t with
  | nil =>
      rw [run_nil] at h
      subst h
      exact ⟨[], t, .nil, run_nil.mpr rfl, hR⟩
  | cons e es ih =>
      obtain ⟨u, hu, hrest⟩ := run_cons.mp h
      obtain ⟨ds, v, hP, hv, hRuv⟩ := hstep s t e u hR hu
      obtain ⟨dss, t', hall, ht', hR'⟩ := ih hRuv hrest
      exact ⟨ds :: dss, t', .cons hP hall, by rw [List.flatten_cons]; exact run_append hv ht', hR'⟩

/-- A simulation in which each step of one system is the same step of the other, or none. -/
theorem run_thinned {σ τ ε : Type} {step : σ → ε → Option σ} {step' : τ → ε → Option τ} {R : σ → τ → Prop}
    (hstep : ∀ s t e s', R s t → step s e = some s' → R s' t ∨ ∃ t', step' t e = some t' ∧ R s' t')
    {s s' : σ} {t : τ} {es : List ε} (hR : R s t) (h : run step s es = some s') :
    ∃ fs t', fs.Sublist es ∧ run step' t fs = some t' ∧ R s' t' := by
  have hrefines (s : σ) (t : τ) (e : ε) (s' : σ) (hR : R s t) (hs : step s e = some s') :
      ∃ ds t', List.Sublist ds [e] ∧ run step' t ds = some t' ∧ R s' t' := by
    obtain hR' | ⟨t', ht', hR'⟩ := hstep s t e s' hR hs
    · exact ⟨[], t, List.nil_sublist _, run_nil.mpr rfl, hR'⟩
    · exact ⟨[e], t', List.Sublist.refl _, run_cons.mpr ⟨t', ht', run_nil.mpr rfl⟩, hR'⟩
  obtain ⟨dss, t', hall, ht', hR'⟩ := run_refines hrefines hR h
  refine ⟨dss.flatten, t', ?_, ht', hR'⟩
  clear ht' h
  induction hall with
  | nil => exact List.Sublist.refl _
  | cons hd _ ih => exact hd.append ih

namespace Callers

variable [DecidableEq ι] {execute : ω → α → ρ × ω} {c c' : Callers ι ω α ρ}

def lossOf (c : Callers ι ω α ρ) (i : ι) : List α := if c.lost i then (c.phase i).called.toList else []

structure Once (c : Callers ι ω α ρ) (invoked : List α) (i : ι) : Prop where
  invoked_eq : invoked = (c.effectsOf i).map Prod.fst ++ (c.phase i).waiting
  effects_eq : c.effectsOf i = c.returnedTo i ++ (c.phase i).finished
  returned_eq : (c.returned.filter fun e => e.1 = i) =
    (c.returnedTo i).map (fun e => (i, e.1, some e.2)) ++ (c.lossOf i).map fun op => (i, op, none)

theorem lose_some {j : ι} (h : c.step execute (.lose j) = some c') :
    ∃ op, (c.phase j).called = some op ∧ c.lost j = false ∧
      c' = { c with lost := Function.update c.lost j true, returned := c.returned ++ [(j, op, none)] } := by
  simp only [step] at h
  split at h
  · next op hphase hlost =>
      cases h
      exact ⟨op, by rw [hphase]; rfl, hlost, rfl⟩
  · next op result hphase hlost =>
      cases h
      exact ⟨op, by rw [hphase]; rfl, hlost, rfl⟩
  · cases h

theorem once_step {e : Event ι ω α} (h : c.step execute e = some c') {i : ι} {invoked : List α}
    (hc : c.Once invoked i) : c'.Once (invoked ++ Event.invocations i [e]) i := by
  obtain ⟨hinv, heff, hret⟩ := hc
  cases e with
  | invoke j op =>
      simp only [step] at h
      split at h
      · next hphase hlost =>
          cases h
          by_cases hj : j = i
          · subst hj
            simp only [lossOf, hphase, hlost] at hinv heff hret
            refine ⟨?_, ?_, ?_⟩
            · simpa [Event.invocations, effectsOf, Phase.waiting] using hinv
            · simpa [effectsOf, returnedTo, Phase.finished] using heff
            · simpa [returnedTo, lossOf, hlost] using hret
          · refine ⟨?_, ?_, ?_⟩
            · simpa [Event.invocations, effectsOf, hj, Ne.symm hj] using hinv
            · simpa [effectsOf, returnedTo, Ne.symm hj] using heff
            · simpa [returnedTo, lossOf, Ne.symm hj] using hret
      · cases h
  | take j =>
      simp only [step] at h
      split at h
      · next op hphase =>
          cases h
          by_cases hj : j = i
          · subst hj
            simp only [lossOf, hphase] at hinv heff hret
            refine ⟨?_, ?_, ?_⟩
            · simpa [Event.invocations, effectsOf, Phase.waiting] using hinv
            · simpa [effectsOf, returnedTo, Phase.finished] using heff
            · simpa [returnedTo, lossOf, Phase.called] using hret
          · refine ⟨?_, ?_, ?_⟩
            · simpa [Event.invocations, effectsOf, hj, Ne.symm hj] using hinv
            · simpa [effectsOf, returnedTo, hj, Ne.symm hj] using heff
            · simpa [returnedTo, lossOf, Ne.symm hj] using hret
      · cases h
  | finish j =>
      simp only [step] at h
      split at h
      · next op result hphase hlost =>
          cases h
          by_cases hj : j = i
          · subst hj
            simp only [lossOf, hphase, hlost] at hinv heff hret
            refine ⟨?_, ?_, ?_⟩
            · simpa [Event.invocations, effectsOf, Phase.waiting] using hinv
            · simpa [effectsOf, returnedTo, Phase.finished] using heff
            · simpa [returnedTo, lossOf, hlost] using hret
          · refine ⟨?_, ?_, ?_⟩
            · simpa [Event.invocations, effectsOf, Ne.symm hj] using hinv
            · simpa [effectsOf, returnedTo, hj, Ne.symm hj] using heff
            · simpa [returnedTo, lossOf, hj, Ne.symm hj] using hret
      · cases h
  | lose j =>
      obtain ⟨op, hop, hlost, rfl⟩ := lose_some h
      refine ⟨?_, ?_, ?_⟩
      · simpa [Event.invocations, effectsOf] using hinv
      · simpa [effectsOf, returnedTo] using heff
      · by_cases hj : j = i
        · subst hj
          simp only [lossOf, hlost] at hret
          simpa [returnedTo, lossOf, hop] using hret
        · simpa [returnedTo, lossOf, hj, Ne.symm hj] using hret
  | change f =>
      cases h
      refine ⟨?_, heff, hret⟩
      simpa [Event.invocations, effectsOf] using hinv

/-- Every operation that a caller calls takes effect once, in the order of its calls, up to the one that is
waiting; and it returns with the result of that, up to the one that has not returned. -/
theorem once_run {object : ω} {evs : List (Event ι ω α)} (h : run (step execute) { object } evs = some c) (i : ι) :
    c.Once (Event.invocations i evs) i := by
  induction evs using List.reverseRecOn generalizing c with
  | nil =>
      rw [run_nil] at h
      subst h
      exact ⟨rfl, rfl, rfl⟩
  | append_singleton evs e ih =>
      obtain ⟨u, hu, hlast⟩ := run_split h
      obtain ⟨v, hv, hnil⟩ := run_cons.mp hlast
      rw [run_nil] at hnil
      subst hnil
      rw [Event.invocations_concat]
      exact once_step hv (ih hu)

end Callers

/-! The same callers over another object, with operations and results that stand for those of the first. -/

section Data

variable {ω' α' ρ' : Type}

inductive Phase.StandsFor (P : α → α' → Prop) (Q : α × ρ → α' × ρ' → Prop) : Phase α ρ → Phase α' ρ' → Prop
  | idle : StandsFor P Q .idle .idle
  | pending {op : α} {op' : α'} (hop : P op op') : StandsFor P Q (.pending op) (.pending op')
  | done {op : α} {op' : α'} {result : ρ} {result' : ρ'} (hop : P op op') (hresult : Q (op, result) (op', result')) :
      StandsFor P Q (.done op result) (.done op' result')

inductive Event.StandsFor (R : ω → ω' → Prop) (P : α → α' → Prop) : Event ι ω α → Event ι ω' α' → Prop
  | invoke (i : ι) {op : α} {op' : α'} (hop : P op op') : StandsFor R P (.invoke i op) (.invoke i op')
  | take (i : ι) : StandsFor R P (.take i) (.take i)
  | finish (i : ι) : StandsFor R P (.finish i) (.finish i)
  | lose (i : ι) : StandsFor R P (.lose i) (.lose i)
  | change {f : ω → ω} {f' : ω' → ω'} (hf : ∀ o o', R o o' → R (f o) (f' o')) : StandsFor R P (.change f) (.change f')

variable {P : α → α' → Prop} {Q : α × ρ → α' × ρ' → Prop}

theorem Phase.StandsFor.of_idle {p : Phase α' ρ'} (h : StandsFor P Q (.idle : Phase α ρ) p) : p = .idle := by
  cases h
  rfl

theorem Phase.StandsFor.of_pending {op : α} {p : Phase α' ρ'} (h : StandsFor P Q (.pending op : Phase α ρ) p) :
    ∃ op', p = .pending op' ∧ P op op' := by
  cases h with
  | pending hop => exact ⟨_, rfl, hop⟩

theorem Phase.StandsFor.of_done {op : α} {result : ρ} {p : Phase α' ρ'} (h : StandsFor P Q (.done op result) p) :
    ∃ op' result', p = .done op' result' ∧ P op op' ∧ Q (op, result) (op', result') := by
  cases h with
  | done hop hresult => exact ⟨_, _, rfl, hop, hresult⟩

theorem Phase.StandsFor.called {op : α} {p : Phase α ρ} {p' : Phase α' ρ'} (h : p.StandsFor P Q p')
    (hop : p.called = some op) : ∃ op', p'.called = some op' ∧ P op op' := by
  cases h with
  | idle => cases hop
  | pending h => cases hop; exact ⟨_, rfl, h⟩
  | done h _ => cases hop; exact ⟨_, rfl, h⟩

namespace Callers

structure StandsFor (R : ω → ω' → Prop) (P : α → α' → Prop) (Q : α × ρ → α' × ρ' → Prop) (c : Callers ι ω α ρ)
    (c' : Callers ι ω' α' ρ') : Prop where
  object : R c.object c'.object
  phase : ∀ i, (c.phase i).StandsFor P Q (c'.phase i)
  lost : c'.lost = c.lost
  effects : List.Forall₂ (fun e e' => e'.1 = e.1 ∧ Q e.2 e'.2) c.effects c'.effects
  returned : List.Forall₂
    (fun e e' => e'.1 = e.1 ∧ P e.2.1 e'.2.1 ∧ Option.Rel (fun r r' => Q (e.2.1, r) (e'.2.1, r')) e.2.2 e'.2.2)
    c.returned c'.returned

variable [DecidableEq ι] {execute : ω → α → ρ × ω} {execute' : ω' → α' → ρ' × ω'} {R : ω → ω' → Prop}
  {c d : Callers ι ω α ρ} {c' : Callers ι ω' α' ρ'}

theorem standsFor_update {phase : ι → Phase α ρ} {phase' : ι → Phase α' ρ'}
    (h : ∀ i, (phase i).StandsFor P Q (phase' i)) (i : ι) {p : Phase α ρ} {p' : Phase α' ρ'} (hp : p.StandsFor P Q p')
    (j : ι) : (Function.update phase i p j).StandsFor P Q (Function.update phase' i p' j) := by
  by_cases hj : j = i
  · subst hj
    rw [Function.update_self, Function.update_self]
    exact hp
  · rw [Function.update_of_ne hj, Function.update_of_ne hj]
    exact h j

theorem lose_of_called {i : ι} {op : α} (hop : (c.phase i).called = some op) (hlost : c.lost i = false) :
    c.step execute (.lose i) =
      some { c with lost := Function.update c.lost i true, returned := c.returned ++ [(i, op, none)] } := by
  simp only [Callers.step]
  cases hphase : c.phase i with
  | idle => rw [hphase] at hop; cases hop
  | pending op => rw [hphase] at hop; cases hop; simp [hlost]
  | done op result => rw [hphase] at hop; cases hop; simp [hlost]

/-- If operations on objects that stand for one another give results that do and lead to such objects, then so do
the steps of the callers. -/
theorem standsFor_step
    (hexecute : ∀ o o' op op', R o o' → P op op' →
      R (execute o op).2 (execute' o' op').2 ∧ Q (op, (execute o op).1) (op', (execute' o' op').1))
    (h : c.StandsFor R P Q c') {e : Event ι ω α} {e' : Event ι ω' α'} (he : e.StandsFor R P e')
    (hs : c.step execute e = some d) : ∃ d', c'.step execute' e' = some d' ∧ d.StandsFor R P Q d' := by
  cases he with
  | invoke i hop =>
      simp only [Callers.step] at hs ⊢
      split at hs
      · next hphase hlost =>
          cases hs
          have hidle := (hphase ▸ h.phase i).of_idle
          rw [hidle, h.lost, hlost]
          exact ⟨_, rfl, h.object, standsFor_update h.phase i (.pending hop), rfl, h.effects, h.returned⟩
      · cases hs
  | take i =>
      simp only [Callers.step] at hs ⊢
      split at hs
      · next op hphase =>
          cases hs
          obtain ⟨op', hpending, hop⟩ := (hphase ▸ h.phase i).of_pending
          obtain ⟨hobject, hresult⟩ := hexecute _ _ _ _ h.object hop
          rw [hpending]
          exact ⟨_, rfl, hobject, standsFor_update h.phase i (.done hop hresult), h.lost,
            List.rel_append h.effects (.cons ⟨rfl, hresult⟩ .nil), h.returned⟩
      · cases hs
  | finish i =>
      simp only [Callers.step] at hs ⊢
      split at hs
      · next op result hphase hlost =>
          cases hs
          obtain ⟨op', result', hdone, hop, hresult⟩ := (hphase ▸ h.phase i).of_done
          rw [hdone, h.lost, hlost]
          exact ⟨_, rfl, h.object, standsFor_update h.phase i .idle, rfl, h.effects,
            List.rel_append h.returned (.cons ⟨rfl, hop, .some hresult⟩ .nil)⟩
      · cases hs
  | lose i =>
      obtain ⟨op, hop, hlost, rfl⟩ := lose_some hs
      obtain ⟨op', hop', hP⟩ := (h.phase i).called hop
      refine ⟨_, lose_of_called hop' (by rw [h.lost, hlost]), h.object, h.phase, ?_, h.effects,
        List.rel_append h.returned (.cons ⟨rfl, hP, .none⟩ .nil)⟩
      show Function.update c'.lost i true = _
      rw [h.lost]
  | change hf =>
      cases hs
      exact ⟨_, rfl, hf _ _ h.object, h.phase, h.lost, h.effects, h.returned⟩

theorem standsFor_run
    (hexecute : ∀ o o' op op', R o o' → P op op' →
      R (execute o op).2 (execute' o' op').2 ∧ Q (op, (execute o op).1) (op', (execute' o' op').1))
    (h : c.StandsFor R P Q c') {es : List (Event ι ω α)} {es' : List (Event ι ω' α')}
    (hes : List.Forall₂ (Event.StandsFor R P) es es') (hrun : run (step execute) c es = some d) :
    ∃ d', run (step execute') c' es' = some d' ∧ d.StandsFor R P Q d' := by
  induction hes generalizing c c' with
  | nil =>
      rw [run_nil] at hrun
      subst hrun
      exact ⟨c', run_nil.mpr rfl, h⟩
  | cons he _ ih =>
      obtain ⟨u, hu, hrest⟩ := run_cons.mp hrun
      obtain ⟨u', hu', hstands⟩ := standsFor_step hexecute h he hu
      obtain ⟨d', hd', hstands'⟩ := ih hstands hrest
      exact ⟨d', run_cons.mpr ⟨u', hu', hd'⟩, hstands'⟩

end Callers

end Data

end CoroRpc.Atomic

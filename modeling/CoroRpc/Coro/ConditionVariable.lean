import CoroRpc.Lib.Trace
import Mathlib.Data.List.Nodup
import Mathlib.Logic.Function.Basic

namespace CoroRpc.Coro

open Trace

variable {κ : Type}

structure HeldMutex (κ : Type) where
  holder : Option κ := none
  waiters : List κ := []

namespace HeldMutex

def lock (m : HeldMutex κ) (c : κ) : Bool × HeldMutex κ :=
  match m.holder with
  | none => (true, { m with holder := some c })
  | some _ => (false, { m with waiters := m.waiters ++ [c] })

def unlock (m : HeldMutex κ) : Option κ × HeldMutex κ :=
  match m.waiters with
  | [] => (none, { m with holder := none })
  | next :: waiters => (some next, { holder := some next, waiters })

end HeldMutex

/-- Where a coroutine stands: outside, suspended in `lock`, between the completion of `lock` or `wait` and the
next `unlock` or `wait`, or suspended in `wait`. -/
inductive WaitPhase
  | outside | locking | inside | waiting
  deriving DecidableEq

/-- Where the mutex of `waiters_` is held: nowhere, in `notify_one` before its pop, in the loop of `notify_all`,
or in either behind the last resumption. -/
inductive Notifying
  | no | one | all | done
  deriving DecidableEq

-- `unlocking` counts the calls of `await_suspend` of each coroutine that have pushed its handle and have still
-- to unlock the mutex.
structure ConditionRun (κ : Type) where
  mutex : HeldMutex κ := {}
  waiters : List κ := []
  notifying : Notifying := .no
  unlocking : κ → Nat := fun _ => 0
  phase : κ → WaitPhase := fun _ => .outside

inductive ConditionEvent (κ : Type)
  | lock (c : κ)
  | unlock (c : κ)
  | wait (c : κ)
  | waitUnlock (c : κ)
  | notifyOne
  | notifyAll
  | resumeNext
  | notified

namespace ConditionRun

variable [DecidableEq κ]

def setPhase (r : ConditionRun κ) (c : κ) (p : WaitPhase) : ConditionRun κ :=
  { r with phase := Function.update r.phase c p }

def release (r : ConditionRun κ) : ConditionRun κ :=
  match r.mutex.unlock with
  | (none, mutex) => { r with mutex }
  | (some next, mutex) => setPhase { r with mutex } next .inside

def step (r : ConditionRun κ) : ConditionEvent κ → Option (ConditionRun κ)
  | .lock c =>
      if r.phase c = .outside then
        match r.mutex.lock c with
        | (true, mutex) => some (setPhase { r with mutex } c .inside)
        | (false, mutex) => some (setPhase { r with mutex } c .locking)
      else none
  | .unlock c => if r.phase c = .inside then some (r.setPhase c .outside).release else none
  | .wait c =>
      if r.phase c = .inside ∧ r.notifying = .no then
        let unlocking := Function.update r.unlocking c (r.unlocking c + 1)
        some (setPhase { r with waiters := r.waiters ++ [c], unlocking } c .waiting)
      else none
  | .waitUnlock c =>
      if 0 < r.unlocking c then
        some (release { r with unlocking := Function.update r.unlocking c (r.unlocking c - 1) })
      else none
  | .notifyOne => if r.notifying = .no then some { r with notifying := .one } else none
  | .notifyAll => if r.notifying = .no then some { r with notifying := .all } else none
  | .resumeNext =>
      if r.notifying = .one ∨ r.notifying = .all then
        match r.waiters with
        | [] => some { r with notifying := .done }
        | next :: waiters =>
            let notifying := if r.notifying = .one then .done else r.notifying
            some (setPhase { r with waiters, notifying } next .inside)
      else none
  | .notified => if r.notifying = .done then some { r with notifying := .no } else none

def InsideHolds (r : ConditionRun κ) : Prop := ∀ c, r.phase c = .inside → r.mutex.holder = some c

/-- A waiter that is resumed has not yet unlocked the mutex, and the `unlock` of a `wait` does not take
it from a coroutine inside. -/
def StillLocked (r : ConditionRun κ) : ConditionEvent κ → Prop
  | .resumeNext => ∀ c, r.waiters.head? = some c → r.mutex.holder = some c
  | .waitUnlock _ => ∀ c, r.mutex.holder = some c → r.phase c ≠ .inside
  | _ => True

structure StandIn (p : WaitPhase) (queue : List κ) (phase : κ → WaitPhase) : Prop where
  nodup : queue.Nodup
  phase_eq : ∀ c ∈ queue, phase c = p

section

variable {p : WaitPhase} {queue : List κ} {phase : κ → WaitPhase} {c : κ}

theorem StandIn.update (h : StandIn p queue phase) (hc : phase c ≠ p) (q : WaitPhase) :
    StandIn p queue (Function.update phase c q) := by
  refine ⟨h.nodup, fun d hd => ?_⟩
  have hne : d ≠ c := by
    rintro rfl
    exact hc (h.phase_eq d hd)
  rw [Function.update_of_ne hne]
  exact h.phase_eq d hd

theorem StandIn.append (h : StandIn p queue phase) (hc : phase c ≠ p) :
    StandIn p (queue ++ [c]) (Function.update phase c p) := by
  have hmem : c ∉ queue := fun hmem => hc (h.phase_eq c hmem)
  refine ⟨?_, fun d hd => ?_⟩
  · rw [← List.concat_eq_append]
    exact h.nodup.concat hmem
  · by_cases hne : d = c
    · rw [hne, Function.update_self]
    · rw [Function.update_of_ne hne]
      exact h.phase_eq d (by simpa [hne] using hd)

theorem StandIn.tail (h : StandIn p (c :: queue) phase) (q : WaitPhase) :
    StandIn p queue (Function.update phase c q) := by
  obtain ⟨hmem, hnd⟩ := List.nodup_cons.mp h.nodup
  refine ⟨hnd, fun d hd => ?_⟩
  rw [Function.update_of_ne (ne_of_mem_of_not_mem hd hmem)]
  exact h.phase_eq d (List.mem_cons_of_mem c hd)

end

structure Queued (r : ConditionRun κ) : Prop where
  locking : StandIn .locking r.mutex.waiters r.phase
  waiting : StandIn .waiting r.waiters r.phase

omit [DecidableEq κ] in
theorem queued_start : Queued ({} : ConditionRun κ) := by
  constructor <;> constructor <;> simp

omit [DecidableEq κ] in
theorem insideHolds_start : InsideHolds ({} : ConditionRun κ) := by
  intro c hc
  cases hc

variable {r r' : ConditionRun κ}

theorem release_nil (hm : r.mutex.waiters = []) : r.release = { r with mutex := {} } := by
  simp [release, HeldMutex.unlock, hm]

theorem release_cons {next : κ} {waiters : List κ} (hm : r.mutex.waiters = next :: waiters) :
    r.release = ConditionRun.setPhase { r with mutex := { holder := some next, waiters } } next .inside := by
  simp [release, HeldMutex.unlock, hm]

omit [DecidableEq κ] in
theorem Queued.next_locking (h : r.Queued) {next : κ} {waiters : List κ} (hm : r.mutex.waiters = next :: waiters) :
    r.phase next = .locking := by
  apply h.locking.phase_eq
  rw [hm]
  exact List.mem_cons_self

theorem Queued.release (h : r.Queued) : r.release.Queued := by
  cases hm : r.mutex.waiters with
  | nil =>
      rw [release_nil hm]
      exact ⟨⟨List.nodup_nil, by simp⟩, h.waiting⟩
  | cons next waiters =>
      rw [release_cons hm]
      have hnext := h.next_locking hm
      have hl := h.locking
      rw [hm] at hl
      exact ⟨hl.tail .inside, h.waiting.update (by simp [hnext]) .inside⟩

theorem insideHolds_release (hout : ∀ c, r.phase c ≠ .inside) : r.release.InsideHolds := by
  intro c hc
  cases hm : r.mutex.waiters with
  | nil =>
      rw [release_nil hm] at hc
      exact absurd hc (hout c)
  | cons next waiters =>
      rw [release_cons hm] at hc ⊢
      by_cases hn : c = next
      · rw [hn]
        rfl
      · simp only [ConditionRun.setPhase, Function.update_of_ne hn] at hc
        exact absurd hc (hout c)

theorem not_insideHolds_release (h : r.Queued) {c : κ} (hc : r.phase c = .inside) : ¬r.release.InsideHolds := by
  intro hin
  cases hm : r.mutex.waiters with
  | nil =>
      rw [release_nil hm] at hin
      cases hin c hc
  | cons next waiters =>
      have hnext := h.next_locking hm
      have hne : c ≠ next := by
        rintro rfl
        rw [hc] at hnext
        cases hnext
      rw [release_cons hm] at hin
      have hholder := hin c (by simpa [ConditionRun.setPhase, hne] using hc)
      exact hne (Option.some.inj hholder).symm

theorem step_queued {e : ConditionEvent κ} (h : r.Queued) (hs : r.step e = some r') : r'.Queued := by
  cases e with
  | lock c =>
      simp only [step, HeldMutex.lock] at hs
      split at hs
      · next hc =>
          cases hm : r.mutex.holder with
          | none =>
              simp only [hm] at hs
              cases hs
              exact ⟨h.locking.update (by simp [hc]) .inside, h.waiting.update (by simp [hc]) .inside⟩
          | some d =>
              simp only [hm] at hs
              cases hs
              exact ⟨h.locking.append (by simp [hc]), h.waiting.update (by simp [hc]) .locking⟩
      · cases hs
  | unlock c =>
      simp only [step] at hs
      split at hs
      · next hc =>
          cases hs
          apply Queued.release
          exact ⟨h.locking.update (by simp [hc]) .outside, h.waiting.update (by simp [hc]) .outside⟩
      · cases hs
  | wait c =>
      simp only [step] at hs
      split at hs
      · next hc =>
          cases hs
          exact ⟨h.locking.update (by simp [hc.1]) .waiting, h.waiting.append (by simp [hc.1])⟩
      · cases hs
  | waitUnlock c =>
      simp only [step] at hs
      split at hs
      · cases hs
        apply Queued.release
        exact ⟨h.locking, h.waiting⟩
      · cases hs
  | notifyOne | notifyAll | notified =>
      simp only [step] at hs
      split at hs
      · cases hs
        exact ⟨h.locking, h.waiting⟩
      · cases hs
  | resumeNext =>
      simp only [step] at hs
      split at hs
      · cases hw : r.waiters with
        | nil =>
            simp only [hw] at hs
            cases hs
            exact ⟨h.locking, hw ▸ h.waiting⟩
        | cons next waiters =>
            simp only [hw] at hs
            cases hs
            have hwait := h.waiting
            rw [hw] at hwait
            have hnext : r.phase next = .waiting := hwait.phase_eq next List.mem_cons_self
            exact ⟨h.locking.update (by simp [hnext]) .inside, hwait.tail .inside⟩
      · cases hs

theorem insideHolds_lock {c : κ} (hin : r.InsideHolds) (hs : r.step (.lock c) = some r') : r'.InsideHolds := by
  intro d hd
  simp only [step, HeldMutex.lock] at hs
  split at hs
  · cases hm : r.mutex.holder with
    | none =>
        simp only [hm] at hs
        cases hs
        by_cases hdc : d = c
        · rw [hdc]
          rfl
        · simp only [setPhase, Function.update_of_ne hdc] at hd
          have hholder := hin d hd
          rw [hm] at hholder
          cases hholder
    | some d' =>
        simp only [hm] at hs
        cases hs
        have hdc : d ≠ c := by
          rintro rfl
          simp [setPhase] at hd
        simp only [setPhase, Function.update_of_ne hdc] at hd
        exact hm.symm.trans (hin d hd)
  · cases hs

theorem insideHolds_resumeNext_iff (hin : r.InsideHolds) (hs : r.step .resumeNext = some r') :
    r'.InsideHolds ↔ r.StillLocked .resumeNext := by
  simp only [step] at hs
  split at hs
  · cases hw : r.waiters with
    | nil =>
        simp only [hw] at hs
        cases hs
        refine iff_of_true hin ?_
        simp [StillLocked, hw]
    | cons next waiters =>
        simp only [hw] at hs
        cases hs
        constructor
        · intro hres d hd
          rw [hw, List.head?_cons] at hd
          cases hd
          exact hres next (by simp [setPhase])
        · intro hstill d hd
          by_cases hdn : d = next
          · rw [hdn]
            exact hstill next (by rw [hw]; rfl)
          · simp only [setPhase, Function.update_of_ne hdn] at hd
            exact hin d hd
  · cases hs

theorem insideHolds_step_iff {e : ConditionEvent κ} (h : r.Queued) (hin : r.InsideHolds) (hs : r.step e = some r') :
    r'.InsideHolds ↔ r.StillLocked e := by
  cases e with
  | lock c => exact iff_of_true (insideHolds_lock hin hs) trivial
  | unlock c =>
      refine iff_of_true ?_ trivial
      simp only [step] at hs
      split at hs
      · next hc =>
          cases hs
          apply insideHolds_release
          intro d hd
          by_cases hdc : d = c
          · subst hdc
            simp [setPhase] at hd
          · simp only [setPhase, Function.update_of_ne hdc] at hd
            have hholder := hin d hd
            rw [hin c hc] at hholder
            exact hdc (Option.some.inj hholder).symm
      · cases hs
  | wait c =>
      refine iff_of_true (fun d hd => ?_) trivial
      simp only [step] at hs
      split at hs
      · cases hs
        have hdc : d ≠ c := by
          rintro rfl
          simp [setPhase] at hd
        simp only [setPhase, Function.update_of_ne hdc] at hd
        exact hin d hd
      · cases hs
  | waitUnlock c =>
      simp only [step] at hs
      split at hs
      · cases hs
        constructor
        · intro hrel d _ hd
          refine absurd hrel (not_insideHolds_release ?_ hd)
          exact ⟨h.locking, h.waiting⟩
        · intro hstill
          apply insideHolds_release
          intro d hd
          exact hstill d (hin d hd) hd
      · cases hs
  | notifyOne | notifyAll | notified =>
      refine iff_of_true ?_ trivial
      simp only [step] at hs
      split at hs
      · cases hs
        exact hin
      · cases hs
  | resumeNext => exact insideHolds_resumeNext_iff hin hs

end ConditionRun

/-- `wait` does not lock the mutex again: those inside hold it throughout a run exactly when every
waiter is resumed before its `wait` has unlocked the mutex. -/
theorem wait_insideHolds_iff [DecidableEq κ] (evs : List (ConditionEvent κ)) (r : ConditionRun κ)
    (h : run ConditionRun.step {} evs = some r) :
    Throughout ConditionRun.step ConditionRun.InsideHolds {} evs ↔
      EachStep ConditionRun.step ConditionRun.StillLocked {} evs :=
  throughout_iff (I := ConditionRun.Queued) (fun _ _ _ hq hs => ConditionRun.step_queued hq hs)
    (fun _ _ _ hq hin hs => ConditionRun.insideHolds_step_iff hq hin hs) ConditionRun.queued_start
    ConditionRun.insideHolds_start h

def notifyEarly : List (ConditionEvent Nat) :=
  [.lock 0, .wait 0, .notifyOne, .resumeNext, .unlock 0, .waitUnlock 0]

theorem wait_insideHolds_early : Throughout ConditionRun.step ConditionRun.InsideHolds {} notifyEarly := by
  refine (wait_insideHolds_iff notifyEarly _ rfl).mpr ?_
  iterate 3 refine (eachStep_cons rfl).mpr ⟨trivial, ?_⟩
  refine (eachStep_cons rfl).mpr ⟨fun c hc => ?_, (eachStep_cons rfl).mpr ⟨trivial, ?_⟩⟩
  · cases hc
    rfl
  · refine (eachStep_cons rfl).mpr ⟨fun c hc => ?_, eachStep_nil⟩
    cases hc

/-- A coroutine notifies while it holds the mutex, and the waiter goes on beside it. -/
theorem wait_two_inside :
    ∃ r, run ConditionRun.step ({} : ConditionRun Nat)
        [.lock 0, .wait 0, .waitUnlock 0, .lock 1, .notifyOne, .resumeNext] = some r ∧
      r.phase 0 = .inside ∧ r.phase 1 = .inside ∧ ¬r.InsideHolds := by
  refine ⟨_, rfl, by decide, by decide, fun hin => ?_⟩
  exact absurd (hin 0 (by decide)) (by decide)

end CoroRpc.Coro

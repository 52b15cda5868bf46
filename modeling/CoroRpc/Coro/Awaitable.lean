import CoroRpc.Lib.Trace
import Mathlib.Data.List.Nodup
import Mathlib.Logic.Function.Iterate

namespace CoroRpc.Coro

open Trace

variable {ι α ε : Type}

inductive Completion (α ε : Type)
  | result (value : α)
  | exception (e : ε)

structure AsyncAwaiter (ι α ε : Type) where
  ready : Bool := false
  continuation : Option ι := none
  result : α
  exception : Option ε := none

namespace AsyncAwaiter

def set (a : AsyncAwaiter ι α ε) : Completion α ε → AsyncAwaiter ι α ε
  | .result value => { a with result := value }
  | .exception e => { a with exception := some e }

-- `moved` is what is left of a value that has been moved from.
def awaitResume (moved : α → α) (a : AsyncAwaiter ι α ε) : Except ε α × AsyncAwaiter ι α ε :=
  match a.exception with
  | some e => (.error e, a)
  | none => (.ok a.result, { a with result := moved a.result })

end AsyncAwaiter

/-- A coroutine has not come to its `co_await`, has been told to suspend, is suspended, or goes on. -/
inductive WaiterPhase
  | running | refused | suspended | resumed
  deriving DecidableEq

inductive CompleterPhase
  | idle | written | stored | done
  deriving DecidableEq

structure AwaiterRun (ι α ε : Type) where
  awaiter : AsyncAwaiter ι α ε
  waiter : ι → WaiterPhase := fun _ => .running
  completer : CompleterPhase := .idle
  resumes : List (ι × Except ε α) := []

inductive AwaiterEvent (ι : Type)
  | awaitReady (i : ι)
  | awaitSuspend (i : ι)
  | write
  | store
  | check

namespace AwaiterRun

variable [DecidableEq ι]

def resume (moved : α → α) (s : AwaiterRun ι α ε) (i : ι) : AwaiterRun ι α ε :=
  let r := s.awaiter.awaitResume moved
  { s with
    awaiter := r.2
    waiter := Function.update s.waiter i .resumed
    resumes := s.resumes ++ [(i, r.1)] }

def step (moved : α → α) (completion : Completion α ε) (s : AwaiterRun ι α ε) :
    AwaiterEvent ι → Option (AwaiterRun ι α ε)
  | .awaitReady i =>
      if s.waiter i = .running then
        some (if s.awaiter.ready then s.resume moved i
          else { s with waiter := Function.update s.waiter i .refused })
      else none
  | .awaitSuspend i =>
      if s.waiter i = .refused then
        some { s with
          awaiter.continuation := some i
          waiter := Function.update s.waiter i .suspended }
      else none
  | .write =>
      if s.completer = .idle then some { s with awaiter := s.awaiter.set completion, completer := .written } else none
  | .store =>
      if s.completer = .written then some { s with awaiter.ready := true, completer := .stored } else none
  | .check =>
      if s.completer = .stored then
        match s.awaiter.continuation with
        | some i => some { s.resume moved i with completer := .done }
        | none => some { s with completer := .done }
      else none

def Served (s : AwaiterRun ι α ε) : Prop := ∀ i, s.waiter i = .running ∨ s.waiter i = .resumed

/-- When the completion looks for a continuation, nobody is about to suspend, and nobody is suspended whose handle
another one has replaced. -/
def Timely (s : AwaiterRun ι α ε) : AwaiterEvent ι → Prop
  | .check => ∀ i, s.waiter i ≠ .refused ∧ (s.waiter i = .suspended → s.awaiter.continuation = some i)
  | _ => True

end AwaiterRun

def Completion.outcome (moved : α → α) (n : Nat) : Completion α ε → Except ε α
  | .result value => .ok (moved^[n] value)
  | .exception e => .error e

namespace AsyncAwaiter

def Holds (moved : α → α) (n : Nat) (a : AsyncAwaiter ι α ε) : Completion α ε → Prop
  | .result value => a.exception = none ∧ a.result = moved^[n] value
  | .exception e => a.exception = some e

variable {moved : α → α} {c : Completion α ε} {n : Nat} {a : AsyncAwaiter ι α ε}

theorem Holds.set (h : a.exception = none) (c : Completion α ε) : (a.set c).Holds moved 0 c := by
  cases c with
  | result value => exact ⟨h, rfl⟩
  | exception e => rfl

theorem Holds.awaitResume (h : a.Holds moved n c) :
    (a.awaitResume moved).1 = c.outcome moved n ∧ (a.awaitResume moved).2.Holds moved (n + 1) c := by
  cases c with
  | result value =>
      obtain ⟨hnone, hvalue⟩ := h
      simp only [AsyncAwaiter.awaitResume, hnone, hvalue]
      exact ⟨rfl, rfl, (Function.iterate_succ_apply' ..).symm⟩
  | exception e =>
      have hsome : a.exception = some e := h
      simp only [AsyncAwaiter.awaitResume, hsome]
      exact ⟨rfl, hsome⟩

theorem awaitResume_frame (moved : α → α) (a : AsyncAwaiter ι α ε) :
    (a.awaitResume moved).2.ready = a.ready ∧ (a.awaitResume moved).2.continuation = a.continuation ∧
      (a.awaitResume moved).2.exception = a.exception := by
  rw [AsyncAwaiter.awaitResume]
  split <;> exact ⟨rfl, rfl, rfl⟩

end AsyncAwaiter

namespace AwaiterRun

structure ToldInTurn (moved : α → α) (c : Completion α ε) (s : AwaiterRun ι α ε) : Prop where
  mem_iff : ∀ i, i ∈ s.resumes.map Prod.fst ↔ s.waiter i = .resumed
  nodup : (s.resumes.map Prod.fst).Nodup
  outcomes : s.resumes.map Prod.snd = (List.range s.resumes.length).map fun n => c.outcome moved n

structure Sound (moved : α → α) (c : Completion α ε) (s : AwaiterRun ι α ε) : Prop where
  ready_iff : s.awaiter.ready = true ↔ s.completer = .stored ∨ s.completer = .done
  fresh : s.completer = .idle → s.awaiter.exception = none
  holds : s.completer ≠ .idle → s.awaiter.Holds moved s.resumes.length c
  quiet : s.awaiter.ready = false → s.resumes = []
  awaited : ∀ i, s.awaiter.continuation = some i → s.completer ≠ .done → s.waiter i = .suspended
  told : s.ToldInTurn moved c

variable [DecidableEq ι] {moved : α → α} {c : Completion α ε} {s t : AwaiterRun ι α ε} {i : ι}

theorem Sound.resume (h : s.Sound moved c) (hready : s.awaiter.ready = true) (hi : s.waiter i ≠ .resumed)
    (hother : s.completer ≠ .done → s.awaiter.continuation ≠ some i) : (s.resume moved i).Sound moved c := by
  obtain ⟨hr, hcont, hexc⟩ := AsyncAwaiter.awaitResume_frame moved s.awaiter
  have hlate := h.ready_iff.mp hready
  have hidle : s.completer ≠ .idle := by
    rintro heq
    simp [heq] at hlate
  obtain ⟨houtcome, hholds⟩ := (h.holds hidle).awaitResume
  refine ⟨?_, fun heq => absurd heq hidle, fun _ => ?_, ?_, ?_, ?_, ?_, ?_⟩
  · simp only [AwaiterRun.resume, hr]
    exact h.ready_iff
  · simpa [AwaiterRun.resume] using hholds
  · intro hfalse
    simp only [AwaiterRun.resume, hr, hready] at hfalse
    cases hfalse
  · intro j hj hdone
    simp only [AwaiterRun.resume, hcont] at hj hdone ⊢
    have hne : j ≠ i := by
      rintro rfl
      exact hother hdone hj
    rw [Function.update_of_ne hne]
    exact h.awaited j hj hdone
  · intro j
    simp only [AwaiterRun.resume, List.map_append, List.map_cons, List.map_nil, List.mem_append, List.mem_singleton,
      h.told.mem_iff]
    by_cases hj : j = i
    · simp [hj]
    · simp [hj]
  · simp only [AwaiterRun.resume, List.map_append, List.map_cons, List.map_nil]
    exact List.Nodup.append h.told.nodup (List.nodup_singleton i)
      (List.disjoint_singleton.mpr (mt (h.told.mem_iff i).mp hi))
  · simp only [AwaiterRun.resume, List.map_append, List.map_cons, List.map_nil, List.length_append,
      List.length_singleton, List.range_succ, h.told.outcomes, houtcome]

theorem Sound.move (h : s.Sound moved c) {p : WaiterPhase} (hi : s.waiter i ≠ .resumed) (hp : p ≠ .resumed)
    (hother : s.completer ≠ .done → s.awaiter.continuation ≠ some i) :
    Sound moved c { s with waiter := Function.update s.waiter i p } := by
  refine ⟨h.ready_iff, h.fresh, h.holds, h.quiet, ?_, ?_, h.told.nodup, h.told.outcomes⟩
  · intro j hj hdone
    have hne : j ≠ i := by
      rintro rfl
      exact hother hdone hj
    simp only [Function.update_of_ne hne]
    exact h.awaited j hj hdone
  · intro j
    rw [h.told.mem_iff]
    by_cases hj : j = i
    · simp [hj, hi, hp]
    · simp [hj]

theorem step_sound {e : AwaiterEvent ι} (h : s.Sound moved c) (hs : s.step moved c e = some t) : t.Sound moved c := by
  cases e with
  | awaitReady i =>
      simp only [step, Option.ite_none_right_eq_some, Option.some.injEq] at hs
      obtain ⟨hi, rfl⟩ := hs
      have hne : s.waiter i ≠ .resumed := by
        rw [hi]
        decide
      have hother : s.completer ≠ .done → s.awaiter.continuation ≠ some i := by
        intro hdone hcont
        rw [h.awaited i hcont hdone] at hi
        cases hi
      split
      · next hready => exact h.resume hready hne hother
      · exact h.move hne (by decide) hother
  | awaitSuspend i =>
      simp only [step, Option.ite_none_right_eq_some, Option.some.injEq] at hs
      obtain ⟨hi, rfl⟩ := hs
      have hne : s.waiter i ≠ .resumed := by
        rw [hi]
        decide
      refine ⟨h.ready_iff, h.fresh, ?_, h.quiet, ?_, ?_, h.told.nodup, h.told.outcomes⟩
      · intro hidle
        have hholds := h.holds hidle
        cases c <;> exact hholds
      · intro j hj hdone
        cases hj
        simp
      · intro j
        rw [h.told.mem_iff]
        by_cases hj : j = i
        · simp [hj, hi]
        · simp [hj]
  | write =>
      simp only [step, Option.ite_none_right_eq_some, Option.some.injEq] at hs
      obtain ⟨hidle, rfl⟩ := hs
      have hfalse : s.awaiter.ready = false := by
        rw [Bool.eq_false_iff, Ne, h.ready_iff, hidle]
        decide
      have hset : (s.awaiter.set c).ready = s.awaiter.ready ∧
          (s.awaiter.set c).continuation = s.awaiter.continuation := by
        cases c <;> exact ⟨rfl, rfl⟩
      refine ⟨?_, (fun h => by cases h), fun _ => ?_, ?_, ?_, h.told.mem_iff, h.told.nodup, h.told.outcomes⟩
      · simp [hset.1, hfalse]
      · simp only [h.quiet hfalse, List.length_nil]
        exact .set (h.fresh hidle) c
      · exact fun _ => h.quiet hfalse
      · intro j hj _
        rw [hset.2] at hj
        exact h.awaited j hj (by rw [hidle]; decide)
  | store =>
      simp only [step, Option.ite_none_right_eq_some, Option.some.injEq] at hs
      obtain ⟨hwritten, rfl⟩ := hs
      refine ⟨by simp, (fun h => by cases h), fun _ => ?_, (fun h => by cases h), ?_, h.told.mem_iff, h.told.nodup,
        h.told.outcomes⟩
      · have hholds := h.holds (by rw [hwritten]; decide)
        cases c <;> exact hholds
      · intro j hj _
        exact h.awaited j hj (by rw [hwritten]; decide)
  | check =>
      simp only [step, Option.ite_none_right_eq_some] at hs
      obtain ⟨hstored, hs⟩ := hs
      have hready : s.awaiter.ready = true := h.ready_iff.mpr (.inl hstored)
      have hidle : s.completer ≠ .idle := by
        rw [hstored]
        decide
      have hdone : Sound moved c { s with completer := .done } :=
        ⟨by simp [hready], (fun h => by cases h), fun _ => h.holds hidle, h.quiet, fun _ _ hne => absurd rfl hne,
          h.told.mem_iff, h.told.nodup, h.told.outcomes⟩
      split at hs
      · next i hcont =>
          cases hs
          have hsusp := h.awaited i hcont (by rw [hstored]; decide)
          refine hdone.resume hready ?_ fun hne => absurd rfl hne
          rw [hsusp]
          decide
      · cases hs
        exact hdone

/-- When the completion is done, nobody who waits goes on any more. -/
theorem step_done {e : AwaiterEvent ι} (h : s.Sound moved c) (hdone : s.completer = .done)
    (hs : s.step moved c e = some t) : t.completer = .done ∧ s.Timely e ∧ (t.Served ↔ s.Served) := by
  cases e with
  | awaitReady i =>
      simp only [step, Option.ite_none_right_eq_some, Option.some.injEq] at hs
      obtain ⟨hi, rfl⟩ := hs
      rw [if_pos (h.ready_iff.mpr (.inr hdone))]
      refine ⟨hdone, trivial, forall_congr' fun j => ?_⟩
      by_cases hj : j = i
      · simp [AwaiterRun.resume, hj, hi]
      · simp [AwaiterRun.resume, hj]
  | awaitSuspend i =>
      simp only [step, Option.ite_none_right_eq_some, Option.some.injEq] at hs
      obtain ⟨hi, rfl⟩ := hs
      refine ⟨hdone, trivial, iff_of_false (fun hserved => ?_) fun hserved => ?_⟩
      · simpa using hserved i
      · simpa [hi] using hserved i
  | write | store | check => simp [step, hdone] at hs

theorem run_done {es : List (AwaiterEvent ι)} (h : s.Sound moved c) (hdone : s.completer = .done)
    (hrun : run (step moved c) s es = some t) : EachStep (step moved c) Timely s es ∧ (t.Served ↔ s.Served) := by
  induction es generalizing s with
  | nil =>
      rw [run_nil] at hrun
      subst hrun
      exact ⟨eachStep_nil, Iff.rfl⟩
  | cons e es ih =>
      obtain ⟨u, hu, hrest⟩ := run_cons.mp hrun
      obtain ⟨hdone', htimely, hserved⟩ := step_done h hdone hu
      obtain ⟨heach, hserved'⟩ := ih (step_sound h hu) hdone' hrest
      exact ⟨(eachStep_cons hu).mpr ⟨htimely, heach⟩, hserved'.trans hserved⟩

theorem timely_check_iff (h : s.Sound moved c) (hs : s.step moved c .check = some t) :
    t.completer = .done ∧ (t.Served ↔ s.Timely .check) := by
  simp only [step, Option.ite_none_right_eq_some] at hs
  obtain ⟨hstored, hs⟩ := hs
  cases hcont : s.awaiter.continuation with
  | none =>
      rw [hcont] at hs
      cases hs
      refine ⟨rfl, forall_congr' fun j => ?_⟩
      rw [hcont]
      cases s.waiter j <;> simp
  | some i =>
      rw [hcont] at hs
      cases hs
      have hsusp := h.awaited i hcont (by rw [hstored]; decide)
      refine ⟨rfl, forall_congr' fun j => ?_⟩
      rw [hcont]
      by_cases hj : j = i
      · simp [AwaiterRun.resume, hj, hsusp]
      · simp only [AwaiterRun.resume, Function.update_of_ne hj, Option.some_inj, Ne.symm hj]
        cases s.waiter j <;> simp

theorem run_served_iff {es : List (AwaiterEvent ι)} (h : s.Sound moved c) (hearly : s.completer ≠ .done)
    (hrun : run (step moved c) s es = some t) (hdone : t.completer = .done) :
    t.Served ↔ EachStep (step moved c) Timely s es := by
  induction es generalizing s with
  | nil =>
      rw [run_nil] at hrun
      exact absurd (hrun ▸ hdone) hearly
  | cons e es ih =>
      obtain ⟨u, hu, hrest⟩ := run_cons.mp hrun
      rw [eachStep_cons hu]
      by_cases hu' : u.completer = .done
      · obtain ⟨heach, hserved⟩ := run_done (step_sound h hu) hu' hrest
        have hcheck : e = .check := by
          cases e with
          | check => rfl
          | awaitReady i =>
              simp only [step, Option.ite_none_right_eq_some, Option.some.injEq] at hu
              obtain ⟨-, rfl⟩ := hu
              refine absurd ?_ hearly
              split at hu' <;> exact hu'
          | awaitSuspend i =>
              simp only [step, Option.ite_none_right_eq_some, Option.some.injEq] at hu
              obtain ⟨-, rfl⟩ := hu
              exact absurd hu' hearly
          | write | store =>
              simp only [step, Option.ite_none_right_eq_some, Option.some.injEq] at hu
              obtain ⟨-, rfl⟩ := hu
              cases hu'
        subst hcheck
        rw [hserved, (timely_check_iff h hu).2, and_iff_left heach]
      · have htimely : s.Timely e := by
          cases e with
          | check => exact absurd (timely_check_iff h hu).1 hu'
          | awaitReady | awaitSuspend | write | store => trivial
        rw [ih (step_sound h hu) hu' hrest, and_iff_right htimely]

end AwaiterRun

open AwaiterRun in
/-- Every coroutine that awaits the operation is served if and only if the completion does not look for a
continuation while one of them is about to suspend or has had its handle replaced; those that go on are told the
outcome in either case. -/
theorem awaiter_serves_iff [DecidableEq ι] (moved : α → α) (c : Completion α ε) (init : α)
    {es : List (AwaiterEvent ι)} {s : AwaiterRun ι α ε}
    (h : run (step moved c) { awaiter := { result := init } } es = some s) (hdone : s.completer = .done) :
    (s.Served ↔ EachStep (step moved c) Timely { awaiter := { result := init } } es) ∧ s.ToldInTurn moved c := by
  have hstart : Sound moved c ({ awaiter := { result := init } } : AwaiterRun ι α ε) :=
    ⟨by simp, fun _ => rfl, fun h => absurd rfl h, fun _ => rfl, (fun _ h => by cases h), by simp, List.nodup_nil,
      rfl⟩
  refine ⟨run_served_iff hstart (fun h => by cases h) h hdone, ?_⟩
  exact (run_inv (fun _ _ _ hI hs => step_sound hI hs) hstart h).told

def replacedHandle : List (AwaiterEvent Bool) :=
  [.awaitReady false, .awaitSuspend false, .awaitReady true, .awaitSuspend true, .write, .store, .check]

def seven : Completion Nat String := .result 7

theorem awaiter_serves_iff_replacedHandle :
    ∃ s : AwaiterRun Bool Nat String,
      run (AwaiterRun.step (fun _ => 0) seven) { awaiter := { result := 0 } } replacedHandle = some s ∧
      ¬EachStep (AwaiterRun.step (fun _ => 0) seven) AwaiterRun.Timely { awaiter := { result := 0 } }
        replacedHandle ∧
      s.ToldInTurn (fun _ => 0) seven := by
  refine ⟨_, rfl, ?_⟩
  have hrun : run (AwaiterRun.step (fun _ => 0) seven) { awaiter := { result := 0 } } replacedHandle = some _ := rfl
  obtain ⟨hiff, htold⟩ := awaiter_serves_iff (fun _ => 0) seven 0 hrun rfl
  refine ⟨fun heach => ?_, htold⟩
  have hleft := hiff.mpr heach false
  revert hleft
  decide

end CoroRpc.Coro

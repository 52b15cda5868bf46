import CoroRpc.Lib.Trace

namespace CoroRpc.Coro

open Trace

variable {α ε κ : Type}

inductive CoroutineState
  | created | running | suspended | completed | cancelled
  deriving DecidableEq

structure TaskPromise (α ε κ : Type) where
  result : Option α := none
  exception : Option ε := none
  state : CoroutineState := .created
  continuation : Option κ := none

namespace TaskPromise

def returnValue (p : TaskPromise α ε κ) (value : α) : TaskPromise α ε κ := { p with result := some value }

def unhandledException (p : TaskPromise α ε κ) (e : ε) : TaskPromise α ε κ := { p with exception := some e }

def settle (p : TaskPromise α ε κ) : Except ε α → TaskPromise α ε κ
  | .ok value => p.returnValue value
  | .error e => p.unhandledException e

def finalSuspend (p : TaskPromise α ε κ) : Option κ × TaskPromise α ε κ :=
  (p.continuation, { p with state := .completed })

def start (p : TaskPromise α ε κ) : Bool × TaskPromise α ε κ :=
  if p.state = .created then (true, { p with state := .running }) else (false, p)

def awaitReady (p : TaskPromise α ε κ) : Bool := p.state = .completed || p.state = .cancelled

def awaitSuspend (p : TaskPromise α ε κ) (handle cont : κ) : κ × TaskPromise α ε κ :=
  let q := { p with continuation := some cont }
  if q.state = .created then (handle, { q with state := .running }) else (cont, q)

-- `none` is a read through the empty `result`.
def awaitResume (p : TaskPromise α ε κ) : Option (Except ε α) :=
  match p.exception with
  | some e => some (.error e)
  | none => p.result.map .ok

def get (p : TaskPromise α ε κ) : Option (Except ε α) := if p.awaitReady then p.awaitResume else none

def cancel (p : TaskPromise α ε κ) : TaskPromise α ε κ :=
  if p.state ≠ .completed then { p with state := .cancelled } else p

theorem awaitResume_settle {p : TaskPromise α ε κ} (h : p.exception = none) (o : Except ε α) :
    (p.settle o).awaitResume = some o := by
  cases o with
  | ok value => simp [settle, returnValue, awaitResume, h]
  | error e => simp [settle, unhandledException, awaitResume]

@[simp] theorem settle_continuation (p : TaskPromise α ε κ) (o : Except ε α) :
    (p.settle o).continuation = p.continuation := by
  cases o <;> rfl

@[simp] theorem finalSuspend_fst (p : TaskPromise α ε κ) : p.finalSuspend.1 = p.continuation := rfl

@[simp] theorem finalSuspend_continuation (p : TaskPromise α ε κ) :
    p.finalSuspend.2.continuation = p.continuation := rfl

@[simp] theorem finalSuspend_state (p : TaskPromise α ε κ) : p.finalSuspend.2.state = .completed := rfl

end TaskPromise

inductive Handle
  | task | awaiter

structure AwaitRun (α ε : Type) where
  promise : TaskPromise α ε Handle
  suspended : Bool := false
  outcome : Option (Except ε α) := none
  awaited : Bool := false
  resumed : List (Option (Except ε α)) := []

inductive AwaitEvent (α ε : Type)
  | start (upTo : Option (Except ε α))
  | await (upTo : Option (Except ε α))
  | resume (upTo : Option (Except ε α))
  | cancel

namespace AwaitRun

def resumeAwaiter (r : AwaitRun α ε) : AwaitRun α ε := { r with resumed := r.resumed ++ [r.promise.awaitResume] }

def resumeTask (r : AwaitRun α ε) : Option (Except ε α) → AwaitRun α ε
  | none => { r with suspended := true }
  | some o =>
      let f := (r.promise.settle o).finalSuspend
      let s := { r with promise := f.2, suspended := false, outcome := some o }
      match f.1 with
      | some .awaiter => s.resumeAwaiter
      | _ => s

def step (r : AwaitRun α ε) : AwaitEvent α ε → Option (AwaitRun α ε)
  | .start upTo =>
      let s := r.promise.start
      let t := { r with promise := s.2 }
      some (if s.1 then t.resumeTask upTo else t)
  | .await upTo =>
      if r.awaited then none
      else if r.promise.awaitReady then some (resumeAwaiter { r with awaited := true })
      else
        let s := r.promise.awaitSuspend .task .awaiter
        let t := { r with promise := s.2, awaited := true }
        match s.1 with
        | .task => some (t.resumeTask upTo)
        | .awaiter => some t.resumeAwaiter
  | .resume upTo => if r.suspended then some (r.resumeTask upTo) else none
  | .cancel => some { r with promise := r.promise.cancel }

def AwaitedOnce (r : AwaitRun α ε) : Prop :=
  r.awaited = true → r.resumed = r.outcome.toList.map some

/-- The task is awaited before its start or after its end. -/
def AtRest (r : AwaitRun α ε) : AwaitEvent α ε → Prop
  | .await _ => r.promise.state = .created ∨ r.promise.state = .completed
  | _ => True

structure Coherent (r : AwaitRun α ε) : Prop where
  completed : r.promise.state = .completed ↔ r.outcome.isSome
  ended : ∀ o, r.outcome = some o → r.promise.awaitResume = some o ∧ r.suspended = false
  exception : r.outcome = none → r.promise.exception = none
  created : r.promise.state = .created → r.awaited = false ∧ r.suspended = false
  unawaited : r.awaited = false → r.resumed = [] ∧ r.promise.continuation = none
  stored : r.awaited = true → r.resumed = [] → r.promise.continuation = some .awaiter

theorem Coherent.outcome_of_suspended {r : AwaitRun α ε} (h : r.Coherent) (hs : r.suspended = true) :
    r.outcome = none := by
  cases hout : r.outcome with
  | none => rfl
  | some o => exact absurd (hs.symm.trans (h.ended o hout).2) (by decide)

theorem Coherent.resumeAwaiter {r : AwaitRun α ε} (h : r.Coherent) (ha : r.awaited = true) :
    r.resumeAwaiter.Coherent := by
  refine ⟨h.completed, h.ended, h.exception, h.created, fun hn => ?_, fun _ hn => ?_⟩
  · exact absurd (ha.symm.trans hn) (by decide)
  · exact absurd hn (List.append_ne_nil_of_right_ne_nil _ (List.cons_ne_nil _ _))

theorem Coherent.ended_awaitResume {r : AwaitRun α ε} (h : r.Coherent) (hout : r.outcome = none) (o : Except ε α) :
    (r.promise.settle o).finalSuspend.2.awaitResume = some o :=
  TaskPromise.awaitResume_settle (h.exception hout) o

theorem Coherent.resumeTask {r : AwaitRun α ε} (h : r.Coherent) (hout : r.outcome = none)
    (hc : r.promise.state ≠ .created) (upTo : Option (Except ε α)) : (r.resumeTask upTo).Coherent := by
  cases upTo with
  | none =>
      refine ⟨h.completed, fun o ho => ?_, h.exception, fun hs => absurd hs hc, h.unawaited, h.stored⟩
      exact absurd (hout.symm.trans ho) (by simp)
  | some o =>
      have hend : Coherent
          { r with promise := (r.promise.settle o).finalSuspend.2, suspended := false, outcome := some o } := by
        refine ⟨by simp, fun p hp => ?_, fun hn => ?_, fun hs => ?_, ?_, ?_⟩
        · cases hp
          exact ⟨h.ended_awaitResume hout o, rfl⟩
        · cases hn
        · cases hs
        · simpa using h.unawaited
        · simpa using h.stored
      simp only [AwaitRun.resumeTask, TaskPromise.finalSuspend_fst, TaskPromise.settle_continuation]
      split
      · rename_i hcont
        refine hend.resumeAwaiter ?_
        -- a task that nobody awaits has no continuation
        cases ha : r.awaited with
        | true => rfl
        | false =>
            rw [(h.unawaited ha).2] at hcont
            cases hcont
      · exact hend

theorem AwaitedOnce.resumeTask {r : AwaitRun α ε} (hP : r.AwaitedOnce) (h : r.Coherent) (hout : r.outcome = none)
    (upTo : Option (Except ε α)) : (r.resumeTask upTo).AwaitedOnce := by
  cases upTo with
  | none => exact hP
  | some o =>
      cases ha : r.awaited with
      | true =>
          have hempty : r.resumed = [] := by simpa [hout] using hP ha
          have hcont := h.stored ha hempty
          intro _
          simp [AwaitRun.resumeTask, hcont, AwaitRun.resumeAwaiter, hempty, h.ended_awaitResume hout o]
      | false =>
          have hcont := (h.unawaited ha).2
          intro ha'
          simp [AwaitRun.resumeTask, hcont, ha] at ha'

theorem Coherent.start {r : AwaitRun α ε} (h : r.Coherent) (hs : r.promise.state = .created) :
    Coherent { r with promise := { r.promise with state := .running } } ∧ r.outcome = none := by
  have hout : r.outcome = none := by simpa [hs] using h.completed
  refine ⟨⟨by simp [hout], fun o ho => ?_, h.exception, fun hs => ?_, h.unawaited, h.stored⟩, hout⟩
  · exact absurd (hout.symm.trans ho) (by simp)
  · cases hs

theorem await_created {r : AwaitRun α ε} (ha : r.awaited = false) (hs : r.promise.state = .created)
    (upTo : Option (Except ε α)) :
    r.step (.await upTo) =
      some (AwaitRun.resumeTask
        { r with promise := { r.promise with continuation := some .awaiter, state := .running }, awaited := true }
        upTo) := by
  simp [step, ha, TaskPromise.awaitReady, TaskPromise.awaitSuspend, hs]

theorem await_begun {r : AwaitRun α ε} (ha : r.awaited = false) (hs : r.promise.state ≠ .created)
    (upTo : Option (Except ε α)) :
    ∃ continuation, r.step (.await upTo) =
      some (AwaitRun.resumeAwaiter { r with promise := { r.promise with continuation }, awaited := true }) := by
  by_cases hready : r.promise.awaitReady = true
  · exact ⟨r.promise.continuation, by simp [step, ha, hready]⟩
  · exact ⟨some .awaiter, by simp [step, ha, hready, TaskPromise.awaitSuspend, hs]⟩

theorem Coherent.await_created {r : AwaitRun α ε} (h : r.Coherent) (hs : r.promise.state = .created) :
    Coherent
      { r with promise := { r.promise with continuation := some .awaiter, state := .running }, awaited := true } := by
  obtain ⟨hrun, -⟩ := h.start hs
  refine ⟨hrun.completed, hrun.ended, hrun.exception, fun hc => ?_, fun hn => ?_, fun _ _ => rfl⟩
  · cases hc
  · cases hn

theorem Coherent.await_begun {r : AwaitRun α ε} (h : r.Coherent) (hs : r.promise.state ≠ .created)
    (continuation : Option Handle) :
    Coherent (AwaitRun.resumeAwaiter { r with promise := { r.promise with continuation }, awaited := true }) := by
  refine ⟨h.completed, h.ended, h.exception, fun hc => absurd hc hs, fun hn => ?_, fun _ hn => ?_⟩
  · cases hn
  · exact absurd hn (List.append_ne_nil_of_right_ne_nil _ (List.cons_ne_nil _ _))

theorem Coherent.cancel {r : AwaitRun α ε} (h : r.Coherent) : Coherent { r with promise := r.promise.cancel } := by
  by_cases hc : r.promise.state = .completed
  · simpa [TaskPromise.cancel, hc] using h
  · simp only [TaskPromise.cancel, ne_eq, hc, not_false_eq_true, if_true]
    refine ⟨by simp [← h.completed, hc], h.ended, h.exception, fun hs => ?_, h.unawaited, h.stored⟩
    cases hs

theorem awaitedOnce_begun_iff {r : AwaitRun α ε} (h : r.Coherent) (ha : r.awaited = false)
    (continuation : Option Handle) :
    (AwaitRun.resumeAwaiter { r with promise := { r.promise with continuation }, awaited := true }).AwaitedOnce ↔
      r.promise.state = .completed := by
  have hempty := (h.unawaited ha).1
  have hres : TaskPromise.awaitResume { r.promise with continuation } = r.promise.awaitResume := rfl
  simp only [AwaitedOnce, AwaitRun.resumeAwaiter, hempty, hres, List.nil_append, forall_const, h.completed]
  cases hout : r.outcome with
  | none => simp
  | some o => simp [(h.ended o hout).1]

/-- What a step can do: it resumes the body, or it is an `await` that lets the awaiting coroutine go on
at once, or it does neither. -/
theorem Coherent.step_cases {r s : AwaitRun α ε} {e : AwaitEvent α ε} (h : r.Coherent) (hs : r.step e = some s) :
    (∃ (t : AwaitRun α ε) (upTo : Option (Except ε α)), s = t.resumeTask upTo ∧ t.Coherent ∧ t.outcome = none ∧
      t.promise.state ≠ .created ∧ (r.AwaitedOnce → t.AwaitedOnce) ∧ r.AtRest e) ∨
    (∃ upTo continuation, e = .await upTo ∧ r.awaited = false ∧ r.promise.state ≠ .created ∧
      s = AwaitRun.resumeAwaiter { r with promise := { r.promise with continuation }, awaited := true }) ∨
    s.Coherent ∧ (r.AwaitedOnce → s.AwaitedOnce) ∧ r.AtRest e := by
  cases e with
  | start upTo =>
      by_cases hc : r.promise.state = .created
      · obtain ⟨hrun, hout⟩ := h.start hc
        simp only [AwaitRun.step, TaskPromise.start, hc, if_true, Option.some.injEq] at hs
        exact .inl ⟨_, upTo, hs.symm, hrun, hout, by simp, id, trivial⟩
      · simp only [AwaitRun.step, TaskPromise.start, hc, if_false, Option.some.injEq] at hs
        exact .inr (.inr ⟨hs ▸ h, fun hP => hs ▸ hP, trivial⟩)
  | await upTo =>
      have ha : r.awaited = false := by
        by_contra hn
        simp [AwaitRun.step, hn] at hs
      by_cases hc : r.promise.state = .created
      · rw [AwaitRun.await_created ha hc] at hs
        cases hs
        have hout := (h.start hc).2
        refine .inl ⟨_, upTo, rfl, h.await_created hc, hout, by simp, fun _ _ => ?_, .inl hc⟩
        rw [(h.unawaited ha).1, hout]
        rfl
      · obtain ⟨continuation, hstep⟩ := AwaitRun.await_begun ha hc upTo
        rw [hstep] at hs
        cases hs
        exact .inr (.inl ⟨upTo, continuation, rfl, ha, hc, rfl⟩)
  | resume upTo =>
      simp only [AwaitRun.step] at hs
      split at hs
      · rename_i hsus
        cases hs
        refine .inl ⟨r, upTo, rfl, h, h.outcome_of_suspended hsus, fun hc => ?_, id, trivial⟩
        exact absurd (hsus.symm.trans (h.created hc).2) (by decide)
      · cases hs
  | cancel =>
      cases hs
      exact .inr (.inr ⟨h.cancel, id, trivial⟩)

theorem Coherent.step {r s : AwaitRun α ε} {e : AwaitEvent α ε} (h : r.Coherent) (hs : r.step e = some s) :
    s.Coherent := by
  obtain ⟨t, upTo, rfl, ht, hout, hc, -, -⟩ | ⟨upTo, continuation, -, -, hc, rfl⟩ | ⟨hs, -, -⟩ := h.step_cases hs
  · exact ht.resumeTask hout hc upTo
  · exact h.await_begun hc continuation
  · exact hs

theorem awaitedOnce_step_iff {r s : AwaitRun α ε} {e : AwaitEvent α ε} (h : r.Coherent) (hP : r.AwaitedOnce)
    (hs : r.step e = some s) : s.AwaitedOnce ↔ r.AtRest e := by
  obtain ⟨t, upTo, rfl, ht, hout, -, hPt, hrest⟩ | ⟨upTo, continuation, rfl, ha, hc, rfl⟩ | ⟨-, hPs, hrest⟩ :=
    h.step_cases hs
  · exact iff_of_true ((hPt hP).resumeTask ht hout upTo) hrest
  · rw [awaitedOnce_begun_iff h ha]
    simp only [AtRest, hc, false_or]
  · exact iff_of_true (hPs hP) hrest

theorem coherent_start (result : Option α) : Coherent ({ promise := { result } } : AwaitRun α ε) := by
  constructor <;> simp

end AwaitRun

/-- A coroutine that awaits a task goes on exactly once, behind the end of its body, if and only if
the task was not under way or cancelled when it was awaited. -/
theorem await_once_iff (result : Option α) (evs : List (AwaitEvent α ε)) (r : AwaitRun α ε)
    (h : run AwaitRun.step { promise := { result } } evs = some r) :
    Throughout AwaitRun.step AwaitRun.AwaitedOnce { promise := { result } } evs ↔
      EachStep AwaitRun.step AwaitRun.AtRest { promise := { result } } evs := by
  refine throughout_iff (I := AwaitRun.Coherent) (fun _ _ _ hI hs => hI.step hs)
    (fun _ _ _ hI hP hs => AwaitRun.awaitedOnce_step_iff hI hP hs) (AwaitRun.coherent_start result) (fun hn => ?_) h
  cases hn

/-- A task that is awaited before its start, suspends twice and returns. -/
theorem await_once_created :
    ∃ r, run AwaitRun.step ({ promise := {} } : AwaitRun Nat String)
        [.await none, .resume none, .resume (some (.ok 7))] = some r ∧
      r.resumed = [some (.ok 7)] ∧ r.AwaitedOnce := by
  have hC : EachStep AwaitRun.step AwaitRun.AtRest ({ promise := {} } : AwaitRun Nat String)
      [.await none, .resume none, .resume (some (.ok 7))] := by
    refine (eachStep_cons rfl).mpr ⟨.inl rfl, ?_⟩
    iterate 2 refine (eachStep_cons rfl).mpr ⟨trivial, ?_⟩
    exact eachStep_nil
  exact ⟨_, rfl, rfl, (await_once_iff none _ _ rfl).mpr hC _ _ List.prefix_rfl rfl⟩

/-- A started task that is awaited while it waits for an event: the awaiting coroutine goes on at once,
through the empty result, and again when the body returns. -/
theorem await_twice_running :
    ∃ r, run AwaitRun.step ({ promise := {} } : AwaitRun Nat String)
        [.start none, .await none, .resume (some (.ok 7))] = some r ∧
      r.resumed = [none, some (.ok 7)] ∧ ¬r.AwaitedOnce := by
  refine ⟨_, rfl, rfl, fun h => ?_⟩
  have hlen : 2 = 1 := congrArg List.length (h rfl)
  cases hlen

end CoroRpc.Coro

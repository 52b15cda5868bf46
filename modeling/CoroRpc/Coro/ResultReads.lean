import CoroRpc.Coro.Task

namespace CoroRpc.Coro

open Trace

variable {α ε : Type}

inductive Caller
  | task
  | awaiter (n : Nat)
  deriving DecidableEq

-- A task with all that is done to it. `suspended` says that the body waits for an event and `ended` that it has
-- ended, `awaits` counts the `co_await`s and `waiting` the calls of `get` that are in their loop. `reads` lists
-- what `get` and `await_resume` gave or threw, with `none` for a read through the empty `result`.
structure ReadRun (α ε : Type) where
  promise : TaskPromise α ε Caller
  suspended : Bool := false
  ended : Bool := false
  awaits : Nat := 0
  waiting : Nat := 0
  reads : List (Option (Except ε α)) := []

/-- The argument says how far the body comes when the step resumes it: to its next suspension, or to its end. -/
inductive ReadEvent (α ε : Type)
  | start (upTo : Option (Except ε α))
  | await (upTo : Option (Except ε α))
  | get (upTo : Option (Except ε α))
  | getReturn
  | resume (upTo : Option (Except ε α))
  | cancel

namespace ReadRun

def awaitResume (r : ReadRun α ε) : ReadRun α ε := { r with reads := r.reads ++ [r.promise.awaitResume] }

def resumeTask (r : ReadRun α ε) : Option (Except ε α) → ReadRun α ε
  | none => { r with suspended := true }
  | some o =>
      let f := (r.promise.settle o).finalSuspend
      let s := { r with promise := f.2, suspended := false, ended := true }
      match f.1 with
      | some (.awaiter _) => s.awaitResume
      | _ => s

def startTask (r : ReadRun α ε) (upTo : Option (Except ε α)) : ReadRun α ε :=
  let s := r.promise.start
  let t := { r with promise := s.2 }
  if s.1 then t.resumeTask upTo else t

def step (r : ReadRun α ε) : ReadEvent α ε → Option (ReadRun α ε)
  | .start upTo => some (r.startTask upTo)
  | .await upTo =>
      let s := { r with awaits := r.awaits + 1 }
      if r.promise.awaitReady then some s.awaitResume
      else
        let a := r.promise.awaitSuspend .task (.awaiter r.awaits)
        let t := { s with promise := a.2 }
        match a.1 with
        | .task => some (t.resumeTask upTo)
        | .awaiter _ => some t.awaitResume
  | .get upTo => some { r.startTask upTo with waiting := r.waiting + 1 }
  | .getReturn =>
      if r.waiting = 0 ∨ ¬r.promise.awaitReady then none
      else some { r with waiting := r.waiting - 1, reads := r.reads ++ [r.promise.get] }
  | .resume upTo => if r.suspended then some (r.resumeTask upTo) else none
  | .cancel => some { r with promise := r.promise.cancel }

def NoNullRead (r : ReadRun α ε) : Prop := none ∉ r.reads

/-- The task is awaited before its start or after its end, and no `get` returns from a task that is
cancelled. -/
def Finished (r : ReadRun α ε) : ReadEvent α ε → Prop
  | .await _ => r.promise.state = .created ∨ r.promise.state = .completed
  | .getReturn => r.promise.state ≠ .cancelled
  | _ => True

structure Coherent (r : ReadRun α ε) : Prop where
  completed : r.promise.state = .completed ↔ r.ended = true
  settled : r.ended = true → r.promise.awaitResume ≠ none
  unsettled : r.ended = false → r.promise.exception = none ∧ r.promise.result = none
  suspended : r.suspended = true → r.ended = false ∧ r.promise.state ≠ .created

theorem coherent_fresh : Coherent ({ promise := {} } : ReadRun α ε) := by
  refine ⟨by simp, nofun, fun _ => ⟨rfl, rfl⟩, nofun⟩

variable {r s : ReadRun α ε}

theorem Coherent.awaitResume (h : r.Coherent) : r.awaitResume.Coherent :=
  ⟨h.completed, h.settled, h.unsettled, h.suspended⟩

theorem noNullRead_concat {r s : ReadRun α ε} (hP : r.NoNullRead) {read : Option (Except ε α)}
    (hs : s.reads = r.reads ++ [read]) : s.NoNullRead ↔ read ≠ none := by
  rw [NoNullRead, hs, List.mem_append, List.mem_singleton, not_or]
  exact ⟨fun hnot heq => hnot.2 heq.symm, fun hne => ⟨hP, hne.symm⟩⟩

theorem Coherent.awaitResume_ne_iff (h : r.Coherent) :
    r.promise.awaitResume ≠ none ↔ r.promise.state = .completed := by
  rw [h.completed]
  cases hend : r.ended with
  | true => exact iff_of_true (h.settled hend) rfl
  | false =>
      obtain ⟨hexc, hres⟩ := h.unsettled hend
      refine iff_of_false ?_ Bool.false_ne_true
      simp [TaskPromise.awaitResume, hexc, hres]

theorem Coherent.resumeTask (h : r.Coherent) (hend : r.ended = false) (hs : r.promise.state ≠ .created)
    (upTo : Option (Except ε α)) : (r.resumeTask upTo).Coherent := by
  cases upTo with
  | none => exact ⟨h.completed, h.settled, h.unsettled, fun _ => ⟨hend, hs⟩⟩
  | some o =>
      have hread := TaskPromise.awaitResume_settle (h.unsettled hend).1 o
      have hcoherent : Coherent
          { r with promise := (r.promise.settle o).finalSuspend.2, suspended := false, ended := true } := by
        refine ⟨by simp, fun _ => ?_, nofun, nofun⟩
        show (r.promise.settle o).awaitResume ≠ none
        rw [hread]
        exact Option.some_ne_none o
      rw [ReadRun.resumeTask]
      split
      · exact hcoherent.awaitResume
      · exact hcoherent

/-- What resumes the awaiting coroutine at the end of the body comes after the result. -/
theorem Coherent.noNullRead_resumeTask (h : r.Coherent) (hend : r.ended = false) (hP : r.NoNullRead)
    (upTo : Option (Except ε α)) : (r.resumeTask upTo).NoNullRead := by
  cases upTo with
  | none => exact hP
  | some o =>
      have hread := TaskPromise.awaitResume_settle (h.unsettled hend).1 o
      rw [ReadRun.resumeTask]
      split
      · apply (noNullRead_concat hP rfl).mpr
        show (r.promise.settle o).awaitResume ≠ none
        rw [hread]
        exact Option.some_ne_none o
      · exact hP

theorem Coherent.running (h : r.Coherent) (hs : r.promise.state = .created) (continuation : Option Caller) :
    Coherent { r with promise := { r.promise with state := .running, continuation } } ∧ r.ended = false := by
  have hend : r.ended = false := by
    rw [Bool.eq_false_iff, Ne, ← h.completed, hs]
    exact nofun
  refine ⟨⟨by simp [hend], h.settled, h.unsettled, fun hsus => ?_⟩, hend⟩
  exact absurd hs (h.suspended hsus).2

theorem Coherent.startTask (h : r.Coherent) (upTo : Option (Except ε α)) :
    (r.startTask upTo).Coherent ∧ (r.NoNullRead → (r.startTask upTo).NoNullRead) := by
  by_cases hs : r.promise.state = .created
  · obtain ⟨hrun, hend⟩ := h.running hs r.promise.continuation
    simp only [ReadRun.startTask, TaskPromise.start, hs, if_true]
    exact ⟨hrun.resumeTask hend (by simp) upTo, fun hP => hrun.noNullRead_resumeTask hend hP upTo⟩
  · simp only [ReadRun.startTask, TaskPromise.start, hs, if_false]
    exact ⟨h, id⟩

theorem Coherent.cancel (h : r.Coherent) : Coherent { r with promise := r.promise.cancel } := by
  by_cases hc : r.promise.state = .completed
  · simpa [TaskPromise.cancel, hc] using h
  · simp only [TaskPromise.cancel, ne_eq, hc, not_false_eq_true, if_true]
    refine ⟨by simp [← h.completed, hc], h.settled, h.unsettled, fun hsus => ⟨(h.suspended hsus).1, by simp⟩⟩

/-- What a step can do: it keeps what was read, or reads what is there once the body has ended, or it lets
a caller go on at once. -/
def Follows (r s : ReadRun α ε) (e : ReadEvent α ε) : Prop :=
  s.Coherent ∧
    ((r.NoNullRead → s.NoNullRead) ∧ r.Finished e ∨
      s.reads = r.reads ++ [r.promise.awaitResume] ∧ (r.Finished e ↔ r.promise.state = .completed))

theorem Coherent.follows_await (h : r.Coherent) {upTo : Option (Except ε α)} (hs : r.step (.await upTo) = some s) :
    r.Follows s (.await upTo) := by
  simp only [ReadRun.step] at hs
  by_cases hready : r.promise.awaitReady = true
  · rw [if_pos hready] at hs
    cases hs
    refine ⟨Coherent.awaitResume ⟨h.completed, h.settled, h.unsettled, h.suspended⟩, .inr ⟨rfl, ?_⟩⟩
    have hcreated : r.promise.state ≠ .created := by
      intro hc
      simp [TaskPromise.awaitReady, hc] at hready
    exact or_iff_right hcreated
  · rw [if_neg hready] at hs
    by_cases hc : r.promise.state = .created
    · obtain ⟨hrun, hend⟩ := h.running hc (some (.awaiter r.awaits))
      have hrun' : Coherent
          { r with
            promise := { r.promise with state := .running, continuation := some (.awaiter r.awaits) }
            awaits := r.awaits + 1 } :=
        ⟨hrun.completed, hrun.settled, hrun.unsettled, hrun.suspended⟩
      simp only [TaskPromise.awaitSuspend, hc, if_true, Option.some.injEq] at hs
      subst hs
      exact ⟨hrun'.resumeTask hend (by simp) upTo,
        .inl ⟨fun hP => hrun'.noNullRead_resumeTask hend hP upTo, .inl hc⟩⟩
    · simp only [TaskPromise.awaitSuspend, hc, if_false, Option.some.injEq] at hs
      subst hs
      refine ⟨Coherent.awaitResume ⟨h.completed, h.settled, h.unsettled, h.suspended⟩, .inr ⟨rfl, ?_⟩⟩
      exact or_iff_right hc

theorem Coherent.follows_getReturn (h : r.Coherent) (hs : r.step .getReturn = some s) : r.Follows s .getReturn := by
  simp only [ReadRun.step] at hs
  split at hs
  · cases hs
  · next hready =>
      cases hs
      have hready : r.promise.awaitReady = true := by
        by_contra hnot
        exact hready (.inr hnot)
      refine ⟨⟨h.completed, h.settled, h.unsettled, h.suspended⟩, .inr ⟨?_, ?_⟩⟩
      · show r.reads ++ [r.promise.get] = _
        rw [TaskPromise.get, if_pos hready]
      · simp only [TaskPromise.awaitReady, Bool.or_eq_true, decide_eq_true_eq] at hready
        rcases hready with hdone | hcancelled
        · simp [Finished, hdone]
        · simp [Finished, hcancelled]

theorem Coherent.step_cases {e : ReadEvent α ε} (h : r.Coherent) (hs : r.step e = some s) : r.Follows s e := by
  cases e with
  | start upTo =>
      cases hs
      obtain ⟨hcoherent, hread⟩ := h.startTask upTo
      exact ⟨hcoherent, .inl ⟨hread, trivial⟩⟩
  | get upTo =>
      cases hs
      obtain ⟨hcoherent, hread⟩ := h.startTask upTo
      exact ⟨⟨hcoherent.completed, hcoherent.settled, hcoherent.unsettled, hcoherent.suspended⟩,
        .inl ⟨hread, trivial⟩⟩
  | await upTo => exact h.follows_await hs
  | getReturn => exact h.follows_getReturn hs
  | resume upTo =>
      simp only [ReadRun.step] at hs
      split at hs
      · next hsus =>
          cases hs
          obtain ⟨hend, hc⟩ := h.suspended hsus
          exact ⟨h.resumeTask hend hc upTo, .inl ⟨fun hP => h.noNullRead_resumeTask hend hP upTo, trivial⟩⟩
      · cases hs
  | cancel =>
      cases hs
      exact ⟨h.cancel, .inl ⟨id, trivial⟩⟩

theorem noNullRead_step_iff {e : ReadEvent α ε} (h : r.Coherent) (hP : r.NoNullRead) (hs : r.step e = some s) :
    s.NoNullRead ↔ r.Finished e := by
  obtain ⟨-, ⟨hkeep, hfinished⟩ | ⟨hreads, hfinished⟩⟩ := h.step_cases hs
  · exact iff_of_true (hkeep hP) hfinished
  · rw [noNullRead_concat hP hreads, h.awaitResume_ne_iff, hfinished]

end ReadRun

/-- In every run `get` and `co_await` find a result or an exception each time, if and only if the task is
never awaited while it is under way or cancelled and no `get` returns while it is cancelled. -/
theorem result_reads_iff (evs : List (ReadEvent α ε)) (r : ReadRun α ε)
    (h : run ReadRun.step { promise := {} } evs = some r) :
    Throughout ReadRun.step ReadRun.NoNullRead { promise := {} } evs ↔
      EachStep ReadRun.step ReadRun.Finished { promise := {} } evs := by
  apply throughout_iff (I := ReadRun.Coherent) _ _ ReadRun.coherent_fresh _ h
  · intro _ _ _ hI hs
    exact (hI.step_cases hs).1
  · intro _ _ _ hI hP hs
    exact ReadRun.noNullRead_step_iff hI hP hs
  · exact List.not_mem_nil

/-- A task that is awaited before its start and read by `get` after its end, and cancelled only then. -/
theorem result_reads_completed :
    ∃ r, run ReadRun.step ({ promise := {} } : ReadRun Nat String)
        [.await none, .resume (some (.ok 7)), .cancel, .get none, .getReturn] = some r ∧
      r.reads = [some (.ok 7), some (.ok 7)] ∧ r.NoNullRead := by
  have hC : EachStep ReadRun.step ReadRun.Finished ({ promise := {} } : ReadRun Nat String)
      [.await none, .resume (some (.ok 7)), .cancel, .get none, .getReturn] := by
    refine (eachStep_cons rfl).mpr ⟨.inl rfl, ?_⟩
    iterate 3 refine (eachStep_cons rfl).mpr ⟨trivial, ?_⟩
    refine (eachStep_cons rfl).mpr ⟨?_, eachStep_nil⟩
    exact CoroutineState.noConfusion
  exact ⟨_, rfl, rfl, (result_reads_iff _ _ rfl).mpr hC _ _ List.prefix_rfl rfl⟩

/-- `get` on a task that was cancelled before its start, or while it was suspended. -/
theorem result_reads_cancelled :
    (∃ r, run ReadRun.step ({ promise := {} } : ReadRun Nat String) [.cancel, .get none, .getReturn] = some r ∧
        r.reads = [none] ∧ ¬r.NoNullRead) ∧
      ∃ r, run ReadRun.step ({ promise := {} } : ReadRun Nat String) [.start none, .cancel, .await none] = some r ∧
        r.reads = [none] ∧ ¬r.NoNullRead := by
  constructor
  · exact ⟨_, rfl, rfl, fun h => h List.mem_cons_self⟩
  · exact ⟨_, rfl, rfl, fun h => h List.mem_cons_self⟩

end CoroRpc.Coro

import CoroRpc.Lib.Trace

namespace CoroRpc.Io

open Trace

/-- Where a loop stands in `process_tasks`: outside of it, at the test of its loop with the tasks it has moved
out of the queue, or in a task, with those behind it. -/
inductive Draining (τ : Type)
  | out
  | between (tasks : List τ)
  | inside (task : τ) (tasks : List τ)

-- The queue of a loop. `pushed` lists the tasks in the order of their locked pushes, `executed` those that were
-- called, and `mark` is the number of pushes before the last swap.
structure LoopRun (τ : Type) where
  queue : List τ := []
  draining : Draining τ := .out
  pushed : List τ := []
  executed : List τ := []
  mark : Nat := 0

inductive LoopEvent (τ : Type)
  | post (task : τ)
  | swap
  | call
  | pop
  | endRound

namespace LoopRun

variable {τ : Type}

/-- `callable` tells whether the loop calls a task or passes over it. A queue is empty when it has been
moved out. -/
def step (callable : τ → Bool) (r : LoopRun τ) : LoopEvent τ → Option (LoopRun τ)
  | .post task => some { r with queue := r.queue ++ [task], pushed := r.pushed ++ [task] }
  | .swap =>
      match r.draining with
      | .out => some { r with queue := [], draining := .between r.queue, mark := r.pushed.length }
      | _ => none
  | .call =>
      match r.draining with
      | .between (task :: tasks) =>
          let executed := if callable task then r.executed ++ [task] else r.executed
          some { r with draining := .inside task tasks, executed }
      | _ => none
  | .pop =>
      match r.draining with
      | .inside _ tasks => some { r with draining := .between tasks }
      | _ => none
  | .endRound =>
      match r.draining with
      | .between [] => some { r with draining := .out }
      | _ => none

def batch (r : LoopRun τ) : List τ :=
  match r.draining with
  | .out => []
  | .between tasks | .inside _ tasks => tasks

structure InOrder (callable : τ → Bool) (r : LoopRun τ) : Prop where
  mark_le : r.mark ≤ r.pushed.length
  executed_eq : r.executed ++ r.batch.filter callable = (r.pushed.take r.mark).filter callable
  queue_eq : r.queue = r.pushed.drop r.mark

variable {callable : τ → Bool} {r r' : LoopRun τ}

theorem inOrder_start : InOrder callable ({} : LoopRun τ) := ⟨Nat.le_refl 0, rfl, rfl⟩

theorem InOrder.post (h : InOrder callable r) (task : τ) :
    InOrder callable { r with queue := r.queue ++ [task], pushed := r.pushed ++ [task] } := by
  refine ⟨?_, ?_, ?_⟩
  · rw [List.length_append]
    exact Nat.le_add_right_of_le h.mark_le
  · rw [List.take_append_of_le_length h.mark_le]
    exact h.executed_eq
  · rw [List.drop_append_of_le_length h.mark_le, ← h.queue_eq]

theorem InOrder.swap (h : InOrder callable r) (hout : r.draining = .out) :
    InOrder callable { r with queue := [], draining := .between r.queue, mark := r.pushed.length } := by
  refine ⟨Nat.le_refl _, ?_, List.drop_length.symm⟩
  have hdone : r.executed = (r.pushed.take r.mark).filter callable := by
    have he := h.executed_eq
    simpa only [batch, hout, List.filter_nil, List.append_nil] using he
  calc r.executed ++ r.queue.filter callable
      = (r.pushed.take r.mark).filter callable ++ (r.pushed.drop r.mark).filter callable := by
        rw [← hdone, ← h.queue_eq]
    _ = r.pushed.filter callable := by rw [← List.filter_append, List.take_append_drop]
    _ = (r.pushed.take r.pushed.length).filter callable := by rw [List.take_length]

theorem InOrder.call (h : InOrder callable r) {task : τ} {tasks : List τ}
    (hb : r.draining = .between (task :: tasks)) :
    InOrder callable
      { r with
        draining := .inside task tasks
        executed := if callable task then r.executed ++ [task] else r.executed } := by
  refine ⟨h.mark_le, Eq.trans ?_ h.executed_eq, h.queue_eq⟩
  by_cases hc : callable task
  · simp [batch, hb, hc]
  · simp [batch, hb, hc]

theorem step_inOrder {e : LoopEvent τ} (h : InOrder callable r) (hs : r.step callable e = some r') :
    InOrder callable r' := by
  cases e with
  | post task =>
      cases hs
      exact h.post task
  | swap =>
      simp only [step] at hs
      split at hs
      · next hout =>
          cases hs
          exact h.swap hout
      · cases hs
  | call =>
      simp only [step] at hs
      split at hs
      · next hb =>
          cases hs
          exact h.call hb
      · cases hs
  | pop =>
      simp only [step] at hs
      split at hs
      · next hb =>
          cases hs
          refine ⟨h.mark_le, Eq.trans ?_ h.executed_eq, h.queue_eq⟩
          simp only [batch, hb]
      · cases hs
  | endRound =>
      simp only [step] at hs
      split at hs
      · next hb =>
          cases hs
          refine ⟨h.mark_le, Eq.trans ?_ h.executed_eq, h.queue_eq⟩
          simp only [batch, hb]
      · cases hs

structure RunsInOrder (callable : τ → Bool) (r : LoopRun τ) : Prop where
  executed_prefix : r.executed <+: r.pushed.filter callable
  round_over : r.draining = .out → r.executed = (r.pushed.take r.mark).filter callable
  queue_eq : r.queue = r.pushed.drop r.mark

theorem InOrder.runsInOrder (h : InOrder callable r) : RunsInOrder callable r := by
  refine ⟨?_, fun hout => ?_, h.queue_eq⟩
  · have hmark : (r.pushed.take r.mark).filter callable <+: r.pushed.filter callable :=
      (List.take_prefix r.mark r.pushed).filter callable
    rw [← h.executed_eq] at hmark
    exact (List.prefix_append _ _).trans hmark
  · have he := h.executed_eq
    simpa only [batch, hout, List.filter_nil, List.append_nil] using he

end LoopRun

def EventLoop.step {τ : Type} : LoopRun τ → LoopEvent τ → Option (LoopRun τ) := LoopRun.step fun _ => true

structure CrossThreadTask (φ : Type) where
  type : UInt64 := 0
  data : UInt64 := 0
  fn : Option φ

namespace EventLoopThread

def callable {φ : Type} (task : CrossThreadTask φ) : Bool := task.fn.isSome

structure ThreadRun (φ : Type) where
  loop : LoopRun (CrossThreadTask φ) := {}
  drained : Bool := false

inductive ThreadEvent (φ : Type)
  | drainPending
  | queue (e : LoopEvent (CrossThreadTask φ))

variable {φ : Type}

/-- The loop over `pending_tasks_` holds the mutex, so nothing is pushed meanwhile. -/
def step (r : ThreadRun φ) : ThreadEvent φ → Option (ThreadRun φ)
  | .drainPending =>
      match r.loop.draining, r.drained with
      | .out, false => some { r with drained := true }
      | _, _ => none
  | .queue .swap => if r.drained then (r.loop.step callable .swap).map fun loop => { loop } else none
  | .queue e => (r.loop.step callable e).map fun loop => { r with loop }

theorem step_loop {r r' : ThreadRun φ} {e : ThreadEvent φ} (h : step r e = some r') :
    r'.loop = r.loop ∨ ∃ e', r.loop.step callable e' = some r'.loop := by
  cases e with
  | drainPending =>
      simp only [step] at h
      split at h
      · cases h
        exact .inl rfl
      · cases h
  | queue e =>
      right
      cases e with
      | swap =>
          simp only [step] at h
          split at h
          · obtain ⟨loop, hl, rfl⟩ := Option.map_eq_some_iff.mp h
            exact ⟨_, hl⟩
          · cases h
      | post | call | pop | endRound =>
          simp only [step] at h
          obtain ⟨loop, hl, rfl⟩ := Option.map_eq_some_iff.mp h
          exact ⟨_, hl⟩

theorem step_inOrder {r r' : ThreadRun φ} {e : ThreadEvent φ} (h : r.loop.InOrder callable)
    (hs : step r e = some r') : r'.loop.InOrder callable := by
  obtain heq | ⟨e', he⟩ := step_loop hs
  · rw [heq]
    exact h
  · exact LoopRun.step_inOrder h he

end EventLoopThread

theorem posted_runsInOrder (τ φ : Type) :
    (∀ es (r : LoopRun τ), run EventLoop.step {} es = some r → r.RunsInOrder fun _ => true) ∧
      ∀ es (r : EventLoopThread.ThreadRun φ), run EventLoopThread.step {} es = some r →
        r.loop.RunsInOrder EventLoopThread.callable := by
  constructor
  · intro es r h
    have hinv : r.InOrder fun _ => true := run_inv (fun _ _ _ => LoopRun.step_inOrder) LoopRun.inOrder_start h
    exact hinv.runsInOrder
  · intro es r h
    have hinv : r.loop.InOrder EventLoopThread.callable :=
      run_inv (I := fun r => r.loop.InOrder EventLoopThread.callable) (fun _ _ _ => EventLoopThread.step_inOrder)
        LoopRun.inOrder_start h
    exact hinv.runsInOrder

def postMeanwhile : List (LoopEvent Nat) := [.post 1, .swap, .post 2, .call, .post 3, .pop, .endRound]

def postEmpty : List (EventLoopThread.ThreadEvent Nat) :=
  [.queue (.post { fn := none }), .queue (.post { fn := some 1 }), .drainPending, .queue .swap, .queue .call,
    .queue .pop, .queue .call]

theorem posted_runsInOrder_meanwhile :
    (∃ r, run EventLoop.step {} postMeanwhile = some r ∧ r.executed = [1] ∧ r.queue = [2, 3] ∧
      r.RunsInOrder fun _ => true) ∧
    ∃ r, run EventLoopThread.step {} postEmpty = some r ∧ r.loop.executed = [{ fn := some 1 }] ∧
      r.loop.RunsInOrder EventLoopThread.callable :=
  ⟨⟨_, rfl, rfl, rfl, (posted_runsInOrder Nat Nat).1 postMeanwhile _ rfl⟩,
    ⟨_, rfl, rfl, (posted_runsInOrder Nat Nat).2 postEmpty _ rfl⟩⟩

end CoroRpc.Io

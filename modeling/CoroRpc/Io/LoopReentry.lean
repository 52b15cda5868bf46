import CoroRpc.Lib.CallStack
import Mathlib.Data.List.AList
import Mathlib.Data.List.Sort

namespace CoroRpc.Io

open CallStack Trace

variable {κ : Type}

inductive LoopMutex
  | tasks | timers
  deriving DecidableEq

structure ThreadTasks (κ : Type) where
  nextTaskId : UInt64 := 1
  pendingTasks : AList fun _ : UInt64 => Option κ := ∅
  taskQueue : List (Option κ) := []

/-- The parts of the members that lock `tasks_mutex_`: the two of `process_tasks`, `post` (and `spawn`, which
posts), and the two of `post_via_msg_ring`. -/
inductive ThreadOp (κ : Type)
  | processPending
  | takeQueue
  | post (fn : Option κ)
  | insertPending (fn : Option κ)
  | erasePending (taskId : UInt64)

inductive ThreadDrain (κ : Type)
  | pending (fns : List κ)
  | queued (fns : List κ)

namespace ThreadOp

def callable : ThreadOp κ → Bool
  | processPending | takeQueue => false
  | post _ | insertPending _ | erasePending _ => true

def locked (s : ThreadTasks κ) : ThreadOp κ → ThreadTasks κ × Option (ThreadDrain κ)
  | processPending =>
      ({ s with pendingTasks := ∅ }, some (.pending (s.pendingTasks.entries.filterMap fun entry => entry.2)))
  | takeQueue => ({ s with taskQueue := [] }, some (.queued (s.taskQueue.filterMap id)))
  | post fn => ({ s with taskQueue := s.taskQueue ++ [fn] }, none)
  | insertPending fn =>
      ({ s with nextTaskId := s.nextTaskId + 1, pendingTasks := s.pendingTasks.insert s.nextTaskId fn }, none)
  | erasePending taskId => ({ s with pendingTasks := s.pendingTasks.erase taskId }, none)

end ThreadOp

namespace ThreadDrain

def holds : ThreadDrain κ → Option LoopMutex
  | pending _ => some .tasks
  | queued _ => none

def next : ThreadDrain κ → κ × ThreadDrain κ ⊕ Option (ThreadOp κ)
  | pending (fn :: fns) => .inl (fn, .pending fns)
  | pending [] => .inr (some .takeQueue)
  | queued (fn :: fns) => .inl (fn, .queued fns)
  | queued [] => .inr none

end ThreadDrain

def eventLoopThread (κ : Type) : Looper LoopMutex (ThreadTasks κ) (ThreadDrain κ) (ThreadOp κ) κ where
  mutex _ := .tasks
  callable := ThreadOp.callable
  locked op s := op.locked s
  returns op s h := by
    cases op with
    | processPending | takeQueue => cases h
    | post | insertPending | erasePending => rfl
  holds := ThreadDrain.holds
  next d s := (s, d.next)

structure TimerHandle (κ : Type) where
  id : UInt64
  expireTime : Int64
  callback : κ
  cancelled : Bool := false

structure LoopTasks (κ : Type) where
  pendingTasks : List κ := []
  timers : List (TimerHandle κ) := []
  timerMap : List UInt64 := []
  nextTimerId : UInt64 := 0

inductive LoopOp (κ : Type)
  | processTimers (now : Int64)
  | takeTasks
  | post (task : κ)
  | setTimer (expireTime : Int64) (callback : κ)
  | cancelTimer (timerId : UInt64)

inductive LoopDrain (κ : Type)
  | timers (now : Int64)
  | tasks (fns : List κ)

namespace LoopOp

def mutex : LoopOp κ → LoopMutex
  | processTimers _ | setTimer _ _ | cancelTimer _ => .timers
  | takeTasks | post _ => .tasks

def callable : LoopOp κ → Bool
  | processTimers _ | takeTasks => false
  | post _ | setTimer _ _ | cancelTimer _ => true

def locked (s : LoopTasks κ) : LoopOp κ → LoopTasks κ × Option (LoopDrain κ)
  | processTimers now => (s, some (.timers now))
  | takeTasks => ({ s with pendingTasks := [] }, some (.tasks s.pendingTasks))
  | post task => ({ s with pendingTasks := s.pendingTasks ++ [task] }, none)
  | setTimer expireTime callback =>
      let timer := { id := s.nextTimerId, expireTime, callback }
      ({ s with
        nextTimerId := s.nextTimerId + 1
        timers := s.timers.orderedInsert (fun a b => a.expireTime ≤ b.expireTime) timer }, none)
  | cancelTimer timerId =>
      if timerId ∈ s.timerMap then
        ({ s with
          timers := s.timers.map fun t => if t.id = timerId then { t with cancelled := true } else t
          timerMap := s.timerMap.erase timerId }, none)
      else (s, none)

end LoopOp

namespace LoopDrain

def holds : LoopDrain κ → Option LoopMutex
  | timers _ => some .timers
  | tasks _ => none

def next (s : LoopTasks κ) : LoopDrain κ → LoopTasks κ × (κ × LoopDrain κ ⊕ Option (LoopOp κ))
  | timers now =>
      match s.timers.dropWhile fun t => t.cancelled && t.expireTime ≤ now with
      | [] => ({ s with timers := [] }, .inr (some .takeTasks))
      | t :: rest =>
          if t.expireTime ≤ now then
            ({ s with timers := rest, timerMap := s.timerMap.erase t.id }, .inl (t.callback, .timers now))
          else ({ s with timers := t :: rest }, .inr (some .takeTasks))
  | tasks (fn :: fns) => (s, .inl (fn, .tasks fns))
  | tasks [] => (s, .inr none)

end LoopDrain

def eventLoop (κ : Type) : Looper LoopMutex (LoopTasks κ) (LoopDrain κ) (LoopOp κ) κ where
  mutex := LoopOp.mutex
  callable := LoopOp.callable
  locked op s := op.locked s
  returns op s h := by
    cases op with
    | processTimers | takeTasks => cases h
    | post | setTimer => rfl
    | cancelTimer timerId =>
        rw [LoopOp.locked]
        split <;> rfl
  holds := LoopDrain.holds
  next d s := d.next s

/-- A function that is called from `pending_tasks_` does not post to its loop. -/
def PendingApart (s : LooperState (ThreadTasks κ) (ThreadDrain κ) (ThreadOp κ) κ) : LooperEvent (ThreadOp κ) κ → Prop
  | .call _ => ∀ c fns, s.stack ≠ [.callback c, .draining (.pending fns)]
  | _ => True

/-- A callback of a timer sets or cancels no timer of its loop. -/
def TimersApart (s : LooperState (LoopTasks κ) (LoopDrain κ) (LoopOp κ) κ) : LooperEvent (LoopOp κ) κ → Prop
  | .call op => op.mutex = .timers → ∀ c now, s.stack ≠ [.callback c, .draining (.timers now)]
  | _ => True

theorem outside_eventLoopThread : (eventLoopThread κ).Outside = PendingApart := by
  funext s e
  apply propext
  cases e with
  | enter | callback | lock | next | done | remote => exact Iff.rfl
  | call op =>
      constructor
      · intro h c fns hstack
        exact h c (.pending fns) hstack rfl
      · intro h c d hstack
        cases d with
        | pending fns => exact absurd hstack (h c fns)
        | queued fns => nofun

theorem outside_eventLoop : (eventLoop κ).Outside = TimersApart := by
  funext s e
  apply propext
  cases e with
  | enter | callback | lock | next | done | remote => exact Iff.rfl
  | call op =>
      constructor
      · intro h hop c now hstack
        exact h c (.timers now) hstack (congrArg some hop.symm)
      · intro h c d hstack hheld
        cases d with
        | timers now => exact h (Option.some.inj hheld).symm c now hstack
        | tasks fns => cases hheld

/-- The thread of a loop never waits for a mutex that it holds exactly when no function called from
`pending_tasks_` posts to the loop, and no callback of a timer sets or cancels one; the functions called
from the queue may do all of it. -/
theorem callbacks_reenter_iff (κ : Type) :
    (∀ (tasks : ThreadTasks κ) es t, run (eventLoopThread κ).step { data := tasks } es = some t →
      (Throughout (eventLoopThread κ).step (eventLoopThread κ).NoSelfLock { data := tasks } es ↔
        EachStep (eventLoopThread κ).step PendingApart { data := tasks } es)) ∧
    ∀ (tasks : LoopTasks κ) es t, run (eventLoop κ).step { data := tasks } es = some t →
      (Throughout (eventLoop κ).step (eventLoop κ).NoSelfLock { data := tasks } es ↔
        EachStep (eventLoop κ).step TimersApart { data := tasks } es) := by
  constructor
  · intro tasks es t h
    rw [← outside_eventLoopThread]
    exact (eventLoopThread κ).noSelfLock_iff tasks es t h
  · intro tasks es t h
    rw [← outside_eventLoop]
    exact (eventLoop κ).noSelfLock_iff tasks es t h

/-- A function from the queue posts another, and a callback of a timer posts one. -/
theorem callbacks_reenter_posting :
    Throughout (eventLoopThread Nat).step (eventLoopThread Nat).NoSelfLock { data := {} }
      [.remote (.post (some 0)), .enter .processPending, .lock, .next, .lock, .next, .call (.post (some 1)), .lock,
        .done, .next] ∧
    Throughout (eventLoop Nat).step (eventLoop Nat).NoSelfLock { data := {} }
      [.remote (.setTimer 5 0), .enter (.processTimers 7), .lock, .next, .call (.post 1), .lock, .done] := by
  constructor
  · refine ((callbacks_reenter_iff Nat).1 {} _ _ rfl).mpr ?_
    iterate 6 refine (eachStep_cons rfl).mpr ⟨trivial, ?_⟩
    refine (eachStep_cons rfl).mpr ⟨fun c fns => nofun, ?_⟩
    iterate 3 refine (eachStep_cons rfl).mpr ⟨trivial, ?_⟩
    exact eachStep_nil
  · refine ((callbacks_reenter_iff Nat).2 {} _ _ rfl).mpr ?_
    iterate 4 refine (eachStep_cons rfl).mpr ⟨trivial, ?_⟩
    refine (eachStep_cons rfl).mpr ⟨nofun, ?_⟩
    iterate 2 refine (eachStep_cons rfl).mpr ⟨trivial, ?_⟩
    exact eachStep_nil

/-- A dispatched function spawns on the loop that calls it, and a callback of a timer sets the next timer. -/
theorem callbacks_self_lock :
    (∃ t, run (eventLoopThread Nat).step { data := {} }
        [.remote (.insertPending (some 0)), .enter .processPending, .lock, .next, .call (.post (some 1))] = some t ∧
      ¬(eventLoopThread Nat).NoSelfLock t) ∧
    ∃ t, run (eventLoop Nat).step { data := {} }
        [.remote (.setTimer 5 0), .enter (.processTimers 7), .lock, .next, .call (.setTimer 12 1)] = some t ∧
      ¬(eventLoop Nat).NoSelfLock t := by
  refine ⟨⟨_, rfl, fun h => h ⟨.tasks, rfl, .draining (.pending []), ?_, rfl⟩⟩,
    ⟨_, rfl, fun h => h ⟨.timers, rfl, .draining (.timers 7), ?_, rfl⟩⟩⟩
  · exact List.mem_cons_of_mem _ List.mem_cons_self
  · exact List.mem_cons_of_mem _ List.mem_cons_self

end CoroRpc.Io

import CoroRpc.Lib.Shares
import CoroRpc.Lib.Trace
import Mathlib.Algebra.GroupWithZero.Nat
import Mathlib.Algebra.Order.Group.Multiset

namespace CoroRpc.Coro

open Shares Trace

def kDefaultThreadCount : Nat := 4

def threadCount (count : Nat) : Nat := if 0 < count then count else kDefaultThreadCount

instance (count : Nat) : NeZero (threadCount count) := by
  constructor
  by_cases h : 0 < count
  · rw [threadCount, if_pos h]
    exact Nat.ne_of_gt h
  · rw [threadCount, if_neg h]
    decide

structure WorkStealingQueue (κ : Type) where
  queue : List κ := []

namespace WorkStealingQueue

variable {κ : Type}

def push (q : WorkStealingQueue κ) (task : κ) : WorkStealingQueue κ := ⟨q.queue ++ [task]⟩

def pop (q : WorkStealingQueue κ) : Option (κ × WorkStealingQueue κ) :=
  match q.queue.getLast? with
  | none => none
  | some task => some (task, ⟨q.queue.dropLast⟩)

def steal (q : WorkStealingQueue κ) : Option (κ × WorkStealingQueue κ) :=
  match q.queue with
  | [] => none
  | task :: queue => some (task, ⟨queue⟩)

def size (q : WorkStealingQueue κ) : Nat := q.queue.length

def tasks (q : WorkStealingQueue κ) : Multiset κ := ↑q.queue

theorem tasks_push (q : WorkStealingQueue κ) (task : κ) : (q.push task).tasks = q.tasks + {task} :=
  (Multiset.coe_add q.queue [task]).symm

theorem tasks_pop {q q' : WorkStealingQueue κ} {task : κ} (h : q.pop = some (task, q')) :
    q.tasks = q'.tasks + {task} := by
  rw [pop] at h
  split at h
  · cases h
  · next t ht =>
      cases h
      rw [← tasks_push]
      exact congrArg Multiset.ofList (List.dropLast_append_getLast? task ht).symm

theorem tasks_steal {q q' : WorkStealingQueue κ} {task : κ} (h : q.steal = some (task, q')) :
    q.tasks = q'.tasks + {task} := by
  obtain ⟨queue⟩ := q
  cases queue with
  | nil => cases h
  | cons t queue =>
      cases h
      exact (Multiset.singleton_add task queue).symm.trans (Multiset.add_comm _ _)

end WorkStealingQueue

/-- Where a worker stands in `worker_loop`: at its top, in the loop over the queues of the others, with a task
that it has taken, in the `resume` of it, in the wait, or behind the loop. -/
inductive WorkerPhase (κ : Type)
  | top
  | stealing (i : Nat)
  | holding (task : κ)
  | resuming (task : κ)
  | waiting
  | ended

/-- Where a thread stands in `schedule`: outside of it, at its top, in the loop over the sizes, or before the
push. `rest` is what a `schedule_batch` has still to schedule. -/
inductive CallPhase (κ : Type) (n : Nat)
  | out
  | entered (handle : κ) (threadId : Int) (rest : List κ)
  | scanning (handle : κ) (i : Nat) (minIdx : Fin n) (minSize : Nat) (rest : List κ)
  | pushing (handle : κ) (target : Fin n) (rest : List κ)

-- A scheduler with `n` workers and `m` threads that call it; the thread of a worker calls it while it resumes.
-- `begun`, `passed` and `resumed` list the handles of the calls begun, of the calls that came to their push,
-- and of the resumptions.
structure SchedulerRun (κ : Type) (n m : Nat) where
  running : Bool := true
  localQueues : Fin n → WorkStealingQueue κ := fun _ => {}
  worker : Fin n → WorkerPhase κ := fun _ => .top
  caller : Fin m → CallPhase κ n := fun _ => .out
  begun : List κ := []
  passed : List κ := []
  resumed : List κ := []

inductive SchedulerEvent (κ : Type) (n m : Nat)
  | schedule (t : Fin m) (handle : κ) (threadId : Int)
  | scheduleBatch (t : Fin m) (handles : List κ)
  | choose (t : Fin m)
  | scan (t : Fin m)
  | push (t : Fin m)
  | pop (w : Fin n)
  | steal (w : Fin n)
  | resume (w : Fin n)
  | suspended (w : Fin n)
  | wake (w : Fin n)
  | stop

namespace SchedulerRun

variable {κ : Type} {n m : Nat}

def setCaller (r : SchedulerRun κ n m) (t : Fin m) (p : CallPhase κ n) : SchedulerRun κ n m :=
  { r with caller := Function.update r.caller t p }

def setWorker (r : SchedulerRun κ n m) (w : Fin n) (p : WorkerPhase κ) : SchedulerRun κ n m :=
  { r with worker := Function.update r.worker w p }

def setQueue (r : SchedulerRun κ n m) (i : Fin n) (q : WorkStealingQueue κ) : SchedulerRun κ n m :=
  { r with localQueues := Function.update r.localQueues i q }

def enter (r : SchedulerRun κ n m) (t : Fin m) (handle : κ) (threadId : Int) (rest : List κ) :
    SchedulerRun κ n m := setCaller { r with begun := r.begun ++ [handle] } t (.entered handle threadId rest)

def enterBatch (r : SchedulerRun κ n m) (t : Fin m) : List κ → SchedulerRun κ n m
  | [] => r.setCaller t .out
  | handle :: rest => r.enter t handle (-1) rest

/-- The pushes, pops and steals happen under the mutex of their queue, and so does each reading of a
size. -/
def step [NeZero n] (r : SchedulerRun κ n m) : SchedulerEvent κ n m → Option (SchedulerRun κ n m)
  | .schedule t handle threadId =>
      match r.caller t with
      | .out => some (r.enter t handle threadId [])
      | _ => none
  | .scheduleBatch t handles =>
      match r.caller t with
      | .out => some (r.enterBatch t handles)
      | _ => none
  | .choose t =>
      match r.caller t with
      | .entered handle threadId rest =>
          if h : 0 ≤ threadId ∧ threadId.toNat < n then
            some (r.setCaller t (.pushing handle ⟨threadId.toNat, h.2⟩ rest))
          else some (r.setCaller t (.scanning handle 1 0 (r.localQueues 0).size rest))
      | _ => none
  | .scan t =>
      match r.caller t with
      | .scanning handle i minIdx minSize rest =>
          if h : i < n then
            let size := (r.localQueues ⟨i, h⟩).size
            if size < minSize then some (r.setCaller t (.scanning handle (i + 1) ⟨i, h⟩ size rest))
            else some (r.setCaller t (.scanning handle (i + 1) minIdx minSize rest))
          else some (r.setCaller t (.pushing handle minIdx rest))
      | _ => none
  | .push t =>
      match r.caller t with
      | .pushing handle target rest =>
          let r := r.setQueue target ((r.localQueues target).push handle)
          some (enterBatch { r with passed := r.passed ++ [handle] } t rest)
      | _ => none
  | .pop w =>
      match r.worker w with
      | .top =>
          if r.running then
            match (r.localQueues w).pop with
            | some (task, q) => some ((r.setQueue w q).setWorker w (.holding task))
            | none => some (r.setWorker w (.stealing 0))
          else some (r.setWorker w .ended)
      | _ => none
  | .steal w =>
      match r.worker w with
      | .stealing i =>
          if h : i < n then
            if i = w then some (r.setWorker w (.stealing (i + 1)))
            else
              match (r.localQueues ⟨i, h⟩).steal with
              | some (task, q) => some ((r.setQueue ⟨i, h⟩ q).setWorker w (.holding task))
              | none => some (r.setWorker w (.stealing (i + 1)))
          else some (r.setWorker w .waiting)
      | _ => none
  | .resume w =>
      match r.worker w with
      | .holding task => some (setWorker { r with resumed := r.resumed ++ [task] } w (.resuming task))
      | _ => none
  | .suspended w =>
      match r.worker w with
      | .resuming _ => some (r.setWorker w .top)
      | _ => none
  | .wake w =>
      match r.worker w with
      | .waiting => some (r.setWorker w .top)
      | _ => none
  | .stop => some { r with running := false }

def held : WorkerPhase κ → Multiset κ
  | .holding task => {task}
  | _ => 0

def carried : CallPhase κ n → Multiset κ
  | .out => 0
  | .entered handle _ _ | .scanning handle _ _ _ _ | .pushing handle _ _ => {handle}

structure Conserved (r : SchedulerRun κ n m) : Prop where
  passed_eq : (r.passed : Multiset κ) = r.resumed + total held r.worker + total WorkStealingQueue.tasks r.localQueues
  begun_eq : (r.begun : Multiset κ) = r.passed + total carried r.caller

theorem conserved_start : Conserved ({} : SchedulerRun κ n m) := by
  have hworker : total held (fun _ : Fin n => (.top : WorkerPhase κ)) = 0 := total_zero rfl
  have hqueue : total WorkStealingQueue.tasks (fun _ : Fin n => ({} : WorkStealingQueue κ)) = 0 := total_zero rfl
  have hcaller : total carried (fun _ : Fin m => (.out : CallPhase κ n)) = 0 := total_zero rfl
  constructor
  · simp only [hworker, hqueue, Multiset.coe_nil, add_zero]
  · simp only [hcaller, Multiset.coe_nil, add_zero]

variable {r : SchedulerRun κ n m}

theorem Conserved.setCaller (h : r.Conserved) {t : Fin m} {p : CallPhase κ n}
    (hp : carried p = carried (r.caller t)) : (r.setCaller t p).Conserved :=
  ⟨h.passed_eq, h.begun_eq.trans (congrArg _ (total_keep hp).symm)⟩

theorem Conserved.setWorker (h : r.Conserved) {w : Fin n} {p : WorkerPhase κ}
    (hp : held p = held (r.worker w)) : (r.setWorker w p).Conserved := by
  refine ⟨h.passed_eq.trans ?_, h.begun_eq⟩
  simp only [SchedulerRun.setWorker, total_keep hp]

theorem Conserved.enter (h : r.Conserved) {t : Fin m} (ht : carried (r.caller t) = 0) (handle : κ) (threadId : Int)
    (rest : List κ) : (r.enter t handle threadId rest).Conserved := by
  refine ⟨h.passed_eq, ?_⟩
  have hgain : carried (.entered handle threadId rest : CallPhase κ n) = carried (r.caller t) + {handle} := by
    rw [ht, zero_add]
    rfl
  calc ((r.begun ++ [handle] : List κ) : Multiset κ)
      = r.begun + {handle} := (Multiset.coe_add r.begun [handle]).symm
    _ = r.passed + total carried r.caller + {handle} := by rw [h.begun_eq]
    _ = r.passed + total carried (Function.update r.caller t (.entered handle threadId rest)) := by
        rw [total_gain hgain, add_assoc]

theorem Conserved.enterBatch (h : r.Conserved) {t : Fin m} (ht : carried (r.caller t) = 0) (handles : List κ) :
    (r.enterBatch t handles).Conserved := by
  cases handles with
  | nil => exact h.setCaller ht.symm
  | cons handle rest => exact h.enter ht handle (-1) rest

theorem Conserved.push (h : r.Conserved) {t : Fin m} {handle : κ} {target : Fin n} {rest : List κ}
    (ht : r.caller t = .pushing handle target rest) :
    (SchedulerRun.setCaller
      { r.setQueue target ((r.localQueues target).push handle) with
        passed := r.passed ++ [handle] } t .out).Conserved := by
  have hgain := total_gain ((r.localQueues target).tasks_push handle)
  have hloss : carried (r.caller t) = carried (.out : CallPhase κ n) + {handle} := by
    rw [ht]
    exact (zero_add _).symm
  have hpassed : ((r.passed ++ [handle] : List κ) : Multiset κ) = r.passed + {handle} :=
    (Multiset.coe_add r.passed [handle]).symm
  constructor
  · simp only [SchedulerRun.setCaller, setQueue]
    rw [hpassed, hgain, h.passed_eq, add_assoc]
  · simp only [SchedulerRun.setCaller, setQueue]
    rw [hpassed, h.begun_eq, total_loss hloss, add_assoc, add_comm ({handle} : Multiset κ)]

theorem Conserved.take (h : r.Conserved) {w i : Fin n} {task : κ} {q : WorkStealingQueue κ}
    (hw : held (r.worker w) = 0) (hq : (r.localQueues i).tasks = q.tasks + {task}) :
    ((r.setQueue i q).setWorker w (.holding task)).Conserved := by
  have hgain : held (.holding task) = held (r.worker w) + {task} := by
    rw [hw, zero_add]
    rfl
  refine ⟨h.passed_eq.trans ?_, h.begun_eq⟩
  simp only [SchedulerRun.setWorker, setQueue]
  rw [total_gain hgain, total_loss hq]
  ac_rfl

theorem Conserved.resume (h : r.Conserved) {w : Fin n} {task : κ} (hw : r.worker w = .holding task) :
    (SchedulerRun.setWorker { r with resumed := r.resumed ++ [task] } w (.resuming task)).Conserved := by
  have hloss : held (r.worker w) = held (.resuming task) + {task} := by
    rw [hw]
    exact (zero_add _).symm
  have hresumed : ((r.resumed ++ [task] : List κ) : Multiset κ) = r.resumed + {task} :=
    (Multiset.coe_add r.resumed [task]).symm
  refine ⟨h.passed_eq.trans ?_, h.begun_eq⟩
  simp only [SchedulerRun.setWorker]
  rw [total_loss hloss, hresumed]
  ac_rfl

theorem setCaller_setCaller (r : SchedulerRun κ n m) (t : Fin m) (p q : CallPhase κ n) :
    (r.setCaller t p).setCaller t q = r.setCaller t q := by
  rw [setCaller, setCaller, setCaller, Function.update_idem]

theorem setCaller_enterBatch (r : SchedulerRun κ n m) (t : Fin m) (p : CallPhase κ n) (rest : List κ) :
    (r.setCaller t p).enterBatch t rest = r.enterBatch t rest := by
  cases rest with
  | nil => exact setCaller_setCaller r t p _
  | cons handle rest => exact setCaller_setCaller { r with begun := r.begun ++ [handle] } t p _

theorem step_conserved [NeZero n] {r' : SchedulerRun κ n m} {e : SchedulerEvent κ n m} (h : r.Conserved)
    (hs : r.step e = some r') : r'.Conserved := by
  cases e with
  | schedule t handle threadId =>
      simp only [step] at hs
      split at hs
      · next ht =>
          cases hs
          exact h.enter (by rw [ht]; rfl) handle threadId []
      · cases hs
  | scheduleBatch t handles =>
      simp only [step] at hs
      split at hs
      · next ht =>
          cases hs
          exact h.enterBatch (by rw [ht]; rfl) handles
      · cases hs
  | choose t =>
      simp only [step] at hs
      split at hs
      · next handle threadId rest ht =>
          split at hs <;> cases hs <;> exact h.setCaller (by rw [ht]; rfl)
      · cases hs
  | scan t =>
      simp only [step] at hs
      split at hs
      · next handle i minIdx minSize rest ht =>
          split at hs
          · split at hs <;> cases hs <;> exact h.setCaller (by rw [ht]; rfl)
          · cases hs
            exact h.setCaller (by rw [ht]; rfl)
      · cases hs
  | push t =>
      simp only [step] at hs
      split at hs
      · next handle target rest ht =>
          cases hs
          rw [← setCaller_enterBatch _ t .out]
          apply (h.push ht).enterBatch
          simp [SchedulerRun.setCaller, carried]
      · cases hs
  | pop w =>
      simp only [step] at hs
      split at hs
      · next hw =>
          split at hs
          · split at hs
            · next task q hq =>
                cases hs
                exact h.take (by rw [hw]; rfl) (WorkStealingQueue.tasks_pop hq)
            · cases hs
              exact h.setWorker (by rw [hw]; rfl)
          · cases hs
            exact h.setWorker (by rw [hw]; rfl)
      · cases hs
  | steal w =>
      simp only [step] at hs
      split at hs
      · next i hw =>
          split at hs
          · split at hs
            · cases hs
              exact h.setWorker (by rw [hw]; rfl)
            · split at hs
              · next task q hq =>
                  cases hs
                  exact h.take (by rw [hw]; rfl) (WorkStealingQueue.tasks_steal hq)
              · cases hs
                exact h.setWorker (by rw [hw]; rfl)
          · cases hs
            exact h.setWorker (by rw [hw]; rfl)
      · cases hs
  | resume w =>
      simp only [step] at hs
      split at hs
      · next task hw =>
          cases hs
          exact h.resume hw
      · cases hs
  | suspended w =>
      simp only [step] at hs
      split at hs
      · next hw =>
          cases hs
          exact h.setWorker (by rw [hw]; rfl)
      · cases hs
  | wake w =>
      simp only [step] at hs
      split at hs
      · next hw =>
          cases hs
          exact h.setWorker (by rw [hw]; rfl)
      · cases hs
  | stop =>
      cases hs
      exact ⟨h.passed_eq, h.begun_eq⟩

/-- No handle is lost and none is resumed twice for one push. -/
theorem scheduled_conserved (κ : Type) (count m : Nat) (es : List (SchedulerEvent κ (threadCount count) m))
    (r : SchedulerRun κ (threadCount count) m) (h : run step {} es = some r) : r.Conserved :=
  run_inv (fun _ _ _ => step_conserved) conserved_start h

def stealLast : List (SchedulerEvent Nat (threadCount 2) 1) :=
  [.schedule 0 7 0, .choose 0, .push 0, .pop 1, .steal 1, .pop 0, .resume 1]

theorem scheduled_conserved_stealLast : ∃ r, run step {} stealLast = some r ∧ r.resumed = [7] ∧ r.Conserved :=
  ⟨_, rfl, rfl, scheduled_conserved Nat 2 1 stealLast _ rfl⟩

end SchedulerRun

end CoroRpc.Coro

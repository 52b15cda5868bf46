import CoroRpc.Coro.Sync
import CoroRpc.Lib.CallStack

namespace CoroRpc.Coro

open CallStack Trace

variable {κ : Type}

structure AsyncConditionVariable (κ : Type) where
  waiters : List κ := []

namespace AsyncConditionVariable

def push (v : AsyncConditionVariable κ) (handle : κ) : AsyncConditionVariable κ :=
  { v with waiters := v.waiters ++ [handle] }

def pop (v : AsyncConditionVariable κ) : Option κ × AsyncConditionVariable κ :=
  match v.waiters with
  | [] => (none, v)
  | next :: waiters => (some next, { v with waiters })

end AsyncConditionVariable

structure SyncObjects (κ : Type) where
  semaphores : Nat → AsyncSemaphore κ
  mutexes : Nat → AsyncMutex κ := fun _ => {}
  conditions : Nat → AsyncConditionVariable κ := fun _ => {}

inductive WaitersMutex
  | semaphore (i : Nat)
  | mutex (i : Nat)
  | condition (i : Nat)
  deriving DecidableEq

inductive SyncOp (κ : Type)
  | acquire (i : Nat) (c : κ)
  | release (i : Nat)
  | lock (i : Nat) (c : κ)
  | unlock (i : Nat)
  | wait (i m : Nat) (c : κ)
  | notifyOne (i : Nat)
  | notifyAll (i : Nat)

namespace SyncOp

def mutex : SyncOp κ → WaitersMutex
  | acquire i _ | release i => .semaphore i
  | lock i _ | unlock i => .mutex i
  | wait i _ _ | notifyOne i | notifyAll i => .condition i

def awaiter : SyncOp κ → Option κ
  | acquire _ c | lock _ c | wait _ _ c => some c
  | release _ | unlock _ | notifyOne _ | notifyAll _ => none

def ready (o : SyncObjects κ) : SyncOp κ → Bool
  | acquire i _ => (o.semaphores i).awaitReady
  | lock i _ => (o.mutexes i).awaitReady
  | _ => false

def locked (o : SyncObjects κ) : SyncOp κ → Option κ × SyncObjects κ
  | acquire i c =>
      let r := (o.semaphores i).awaitSuspend c
      (r.1, { o with semaphores := Function.update o.semaphores i r.2 })
  | release i =>
      let r := (o.semaphores i).release
      (r.1, { o with semaphores := Function.update o.semaphores i r.2 })
  | lock i c =>
      let r := (o.mutexes i).awaitSuspend c
      (r.1, { o with mutexes := Function.update o.mutexes i r.2 })
  | unlock i =>
      let r := (o.mutexes i).unlock
      (r.1, { o with mutexes := Function.update o.mutexes i r.2 })
  | wait i _ c => (none, { o with conditions := Function.update o.conditions i ((o.conditions i).push c) })
  | notifyOne i | notifyAll i =>
      let r := (o.conditions i).pop
      (r.1, { o with conditions := Function.update o.conditions i r.2 })

def after : SyncOp κ → Option (SyncOp κ)
  | wait _ m _ => some (unlock m)
  | _ => none

def again (o : SyncObjects κ) : SyncOp κ → Option κ × SyncObjects κ
  | notifyAll i => (notifyAll i).locked o
  | _ => (none, o)

end SyncOp

inductive SyncFrame (κ : Type)
  | coroutine (c : κ)
  | locking (op : SyncOp κ)
  | resuming (op : SyncOp κ)

namespace SyncFrame

def wants : SyncFrame κ → Option WaitersMutex
  | locking op => some op.mutex
  | _ => none

def holds : SyncFrame κ → Option WaitersMutex
  | resuming op => some op.mutex
  | _ => none

end SyncFrame

structure SyncRun (κ : Type) where
  objects : SyncObjects κ
  callStack : Nat → List (SyncFrame κ) := fun _ => []
  holder : WaitersMutex → Option Nat := fun _ => none

/-- `resume` is a resumption from elsewhere, `suspend` the end or any other suspension of a coroutine; `call` is
made by the coroutine that runs on the thread, or by the thread itself. -/
inductive SyncEvent (κ : Type)
  | resume (t : Nat) (c : κ)
  | call (t : Nat) (op : SyncOp κ)
  | lock (t : Nat)
  | suspend (t : Nat)
  | goOn (t : Nat)

namespace SyncRun

def put (r : SyncRun κ) (t : Nat) (stack : List (SyncFrame κ)) : SyncRun κ :=
  { r with callStack := Function.update r.callStack t stack }

def caller [DecidableEq κ] (op : SyncOp κ) : List (SyncFrame κ) → Option (List (SyncFrame κ))
  | [] => if op.awaiter = none then some [] else none
  | .coroutine c :: rest =>
      match op.awaiter with
      | none => some (.coroutine c :: rest)
      | some d => if c = d then some rest else none
  | _ => none

variable [DecidableEq κ]

def step (r : SyncRun κ) : SyncEvent κ → Option (SyncRun κ)
  | .resume t c =>
      match r.callStack t with
      | [] => some (r.put t [.coroutine c])
      | .coroutine d :: rest => some (r.put t (.coroutine c :: .coroutine d :: rest))
      | _ => none
  | .call t op =>
      match caller op (r.callStack t) with
      | none => none
      | some stack => if op.ready r.objects then some r else some (r.put t (.locking op :: stack))
  | .lock t =>
      match r.callStack t with
      | .locking op :: rest =>
          match r.holder op.mutex with
          | some _ => none
          | none =>
              match op.locked r.objects with
              | (some c, objects) =>
                  let holder := Function.update r.holder op.mutex (some t)
                  some (put { r with objects, holder } t (.coroutine c :: .resuming op :: rest))
              | (none, objects) => some (put { r with objects } t ((op.after.map .locking).toList ++ rest))
      | _ => none
  | .suspend t =>
      match r.callStack t with
      | .coroutine _ :: rest => some (r.put t rest)
      | _ => none
  | .goOn t =>
      match r.callStack t with
      | .resuming op :: rest =>
          match op.again r.objects with
          | (some c, objects) => some (put { r with objects } t (.coroutine c :: .resuming op :: rest))
          | (none, _) => some (put { r with holder := Function.update r.holder op.mutex none } t rest)
      | _ => none

def NoSelfLock (r : SyncRun κ) : Prop := ∀ t, ¬SelfBlocked SyncFrame.wants SyncFrame.holds (r.callStack t)

def Apart (m : WaitersMutex) (stack : List (SyncFrame κ)) : Prop := ∀ op, .resuming op ∈ stack → op.mutex ≠ m

/-- Neither a coroutine that was resumed by an operation of an object, nor what that coroutine resumes in turn, uses
this object before the operation returns. -/
def Unnested (r : SyncRun κ) : SyncEvent κ → Prop
  | .call t op => op.ready r.objects = false → Apart op.mutex (r.callStack t)
  | .lock t => ∀ i m c rest, r.callStack t = .locking (.wait i m c) :: rest → Apart (.mutex m) rest
  | _ => True

def Settled (r : SyncRun κ) : Prop := ∀ t, CallStack.Settled SyncFrame.wants (r.callStack t)

variable {r s : SyncRun κ} {t : Nat} {stack rest : List (SyncFrame κ)} {op : SyncOp κ}

omit [DecidableEq κ] in
theorem callStack_put (u : Nat) : (r.put t stack).callStack u = if u = t then stack else r.callStack u :=
  Function.update_apply _ _ _ _

omit [DecidableEq κ] in
theorem noSelfLock_put (h : r.NoSelfLock) :
    (r.put t stack).NoSelfLock ↔ ¬SelfBlocked SyncFrame.wants SyncFrame.holds stack := by
  constructor
  · intro hp
    have ht := hp t
    rwa [callStack_put, if_pos rfl] at ht
  · intro hs u
    rw [callStack_put]
    split
    · exact hs
    · exact h u

omit [DecidableEq κ] in
theorem Settled.put (h : r.Settled) (hs : CallStack.Settled SyncFrame.wants stack) : (r.put t stack).Settled := by
  intro u
  rw [callStack_put]
  split
  · exact hs
  · exact h u

omit [DecidableEq κ] in
theorem selfBlocked_locking :
    SelfBlocked SyncFrame.wants SyncFrame.holds (.locking op :: rest) ↔ ¬Apart op.mutex rest := by
  have hwants : SyncFrame.wants (.locking op) = some op.mutex := rfl
  rw [selfBlocked_iff hwants, Apart]
  constructor
  · rintro ⟨g, hg, hheld⟩ hall
    cases g with
    | coroutine | locking => cases hheld
    | resuming op' => exact hall op' hg (Option.some.inj hheld)
  · intro hsome
    push Not at hsome
    obtain ⟨op', hmem, hsame⟩ := hsome
    exact ⟨.resuming op', hmem, congrArg some hsame⟩

theorem caller_some (h : caller op stack = some rest) (hs : CallStack.Settled SyncFrame.wants stack) :
    (∀ f ∈ rest, f.wants = none) ∧ (Apart op.mutex rest ↔ Apart op.mutex stack) := by
  cases stack with
  | nil =>
      simp only [caller] at h
      split at h
      · cases h
        exact ⟨nofun, Iff.rfl⟩
      · cases h
  | cons f stack =>
      cases f with
      | locking | resuming => cases h
      | coroutine c =>
          simp only [caller] at h
          split at h
          · cases h
            refine ⟨List.forall_mem_cons.mpr ⟨rfl, hs⟩, Iff.rfl⟩
          · split at h
            · cases h
              refine ⟨hs, ?_⟩
              simp [Apart]
            · cases h

theorem Settled.step {e : SyncEvent κ} (h : r.Settled) (hs : r.step e = some s) : s.Settled := by
  cases e with
  | resume t c =>
      simp only [SyncRun.step] at hs
      split at hs
      · cases hs
        exact h.put nofun
      · rename_i d rest hstack
        cases hs
        have ht := h t
        rw [hstack] at ht
        exact h.put (ht.push rfl _)
      · cases hs
  | call t op =>
      simp only [SyncRun.step] at hs
      split at hs
      · cases hs
      · rename_i stack hcaller
        split at hs
        · cases hs
          exact h
        · cases hs
          exact h.put (caller_some hcaller (h t)).1
  | lock t =>
      simp only [SyncRun.step] at hs
      split at hs
      · rename_i op rest hstack
        have ht := h t
        rw [hstack] at ht
        split at hs
        · cases hs
        · split at hs
          · cases hs
            exact Settled.put h (List.forall_mem_cons.mpr ⟨rfl, ht⟩)
          · cases hs
            refine Settled.put h ?_
            cases op.after with
            | none => exact ht.pop
            | some op' => exact ht
      · cases hs
  | suspend t =>
      simp only [SyncRun.step] at hs
      split at hs
      · rename_i c rest hstack
        have ht := h t
        rw [hstack] at ht
        cases hs
        exact h.put ht.pop
      · cases hs
  | goOn t =>
      simp only [SyncRun.step] at hs
      split at hs
      · rename_i op rest hstack
        have ht := h t
        rw [hstack] at ht
        split at hs
        · cases hs
          exact Settled.put h (List.forall_mem_cons.mpr ⟨rfl, ht⟩)
        · cases hs
          exact Settled.put h ht.pop
      · cases hs

theorem noSelfLock_step_iff {e : SyncEvent κ} (h : r.Settled) (hn : r.NoSelfLock) (hs : r.step e = some s) :
    s.NoSelfLock ↔ r.Unnested e := by
  cases e with
  | resume t c =>
      refine iff_of_true ?_ trivial
      simp only [step] at hs
      split at hs
      · cases hs
        exact (noSelfLock_put hn).mpr (not_selfBlocked_of_none rfl)
      · cases hs
        exact (noSelfLock_put hn).mpr (not_selfBlocked_of_none rfl)
      · cases hs
  | call t op =>
      simp only [step] at hs
      split at hs
      · cases hs
      · rename_i stack hcaller
        split at hs
        · rename_i hready
          cases hs
          refine iff_of_true hn fun hnot => ?_
          rw [hready] at hnot
          cases hnot
        · rename_i hready
          cases hs
          rw [noSelfLock_put hn, selfBlocked_locking, not_not, (caller_some hcaller (h t)).2]
          exact ⟨fun hapart _ => hapart, fun hcall => hcall (Bool.eq_false_iff.mpr hready)⟩
  | lock t =>
      simp only [step] at hs
      split at hs
      · rename_i op rest hstack
        have ht := h t
        rw [hstack] at ht
        rw [Unnested, hstack]
        split at hs
        · cases hs
        · split at hs
          · rename_i c objects hlocked
            cases hs
            refine iff_of_true ((noSelfLock_put hn).mpr (not_selfBlocked_of_none rfl)) ?_
            rintro i m d rest' heq
            rw [List.cons.injEq, SyncFrame.locking.injEq] at heq
            rw [heq.1] at hlocked
            cases hlocked
          · cases hs
            refine (noSelfLock_put hn).trans ?_
            cases op with
            | wait i m c =>
                have hblocked : SelfBlocked SyncFrame.wants SyncFrame.holds (.locking (.unlock m) :: rest) ↔
                    ¬Apart (.mutex m) rest := selfBlocked_locking
                refine hblocked.not.trans (not_not.trans ?_)
                constructor
                · intro hapart i' m' c' rest' heq
                  cases heq
                  exact hapart
                · intro hall
                  exact hall i m c rest rfl
            | acquire | release | lock | unlock | notifyOne | notifyAll =>
                exact iff_of_true ht.not_selfBlocked (fun _ _ _ _ => nofun)
      · cases hs
  | suspend t =>
      refine iff_of_true ?_ trivial
      simp only [step] at hs
      split at hs
      · rename_i c rest hstack
        have ht := h t
        rw [hstack] at ht
        cases hs
        exact (noSelfLock_put hn).mpr ht.not_selfBlocked
      · cases hs
  | goOn t =>
      refine iff_of_true ?_ trivial
      simp only [step] at hs
      split at hs
      · rename_i op rest hstack
        have ht := h t
        rw [hstack] at ht
        split at hs
        · cases hs
          exact (noSelfLock_put hn).mpr (not_selfBlocked_of_none rfl)
        · cases hs
          exact (noSelfLock_put hn).mpr ht.not_selfBlocked
      · cases hs

end SyncRun

/-- In a program of coroutines no thread comes to a `waiters_mutex_` that it holds already, at any moment
of a run, exactly when no object is used again on a thread before the operation of it that has resumed a
coroutine there returns. -/
theorem inline_resume_iff [DecidableEq κ] (objects : SyncObjects κ) (evs : List (SyncEvent κ)) (r : SyncRun κ)
    (h : run SyncRun.step { objects } evs = some r) :
    Throughout SyncRun.step SyncRun.NoSelfLock { objects } evs ↔
      EachStep SyncRun.step SyncRun.Unnested { objects } evs :=
  throughout_iff (I := SyncRun.Settled) (fun _ _ _ h hs => h.step hs)
    (fun _ _ _ h hn hs => SyncRun.noSelfLock_step_iff h hn hs) (fun _ => nofun) (fun _ => id) h

def noPermits : SyncObjects Nat := { semaphores := fun _ => { count := 0 } }

/-- The waiter that `release` resumes takes another semaphore and is suspended in it. -/
theorem inline_resume_other :
    Throughout SyncRun.step SyncRun.NoSelfLock { objects := noPermits }
      [.resume 0 0, .call 0 (.acquire 0 0), .lock 0, .call 0 (.release 0), .lock 0, .call 0 (.acquire 1 0), .lock 0,
        .goOn 0] := by
  refine (inline_resume_iff noPermits _ _ rfl).mpr ?_
  refine (eachStep_cons rfl).mpr ⟨trivial, (eachStep_cons rfl).mpr ⟨fun _ op hop => ?_, ?_⟩⟩
  · simp [SyncRun.put] at hop
  refine (eachStep_cons rfl).mpr ⟨fun _ _ _ _ => nofun, (eachStep_cons rfl).mpr ⟨fun _ op hop => ?_, ?_⟩⟩
  · simp [SyncRun.put] at hop
  refine (eachStep_cons rfl).mpr ⟨fun _ _ _ _ => nofun, (eachStep_cons rfl).mpr ⟨fun _ op hop => ?_, ?_⟩⟩
  · simp [SyncRun.put] at hop
    rw [hop]
    nofun
  exact (eachStep_cons rfl).mpr ⟨fun _ _ _ _ => nofun, (eachStep_cons rfl).mpr ⟨trivial, eachStep_nil⟩⟩

/-- The waiter that `release` resumes releases the permit it was given. -/
theorem inline_resume_self_lock :
    ∃ r, run SyncRun.step { objects := noPermits }
        [.resume 0 0, .call 0 (.acquire 0 0), .lock 0, .call 0 (.release 0), .lock 0, .call 0 (.release 0)] = some r ∧
      ¬r.NoSelfLock := by
  refine ⟨_, rfl, fun h => h 0 ⟨.semaphore 0, rfl, .resuming (.release 0), ?_, rfl⟩⟩
  exact List.mem_cons_of_mem _ List.mem_cons_self

end CoroRpc.Coro

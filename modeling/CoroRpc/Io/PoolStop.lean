import CoroRpc.Io.KeptTasks

namespace CoroRpc.Io

open Trace

/-- Where a thread stands in `run_loop`: not in it, at its test, in `process_tasks`, or in `run_once`. -/
inductive LoopStage
  | idle
  | test
  | tasks
  | ring
  deriving DecidableEq

structure LoopThread where
  work : WorkerRun := {}
  running : Bool := false
  joinable : Bool := false
  stage : LoopStage := .idle

inductive ThreadEvent
  | test
  | work (e : WorkerEvent)
  | runOnce

def WorkerEvent.ofLoop : WorkerEvent → Bool
  | .drain | .swap | .runTask | .endRound => true
  | _ => false

def LoopStage.after (stage : LoopStage) : WorkerEvent → LoopStage
  | .endRound => .ring
  | _ => stage

namespace LoopThread

def step (th : LoopThread) : ThreadEvent → Option LoopThread
  | .test =>
      match th.stage with
      | .test => some { th with stage := if th.running then .tasks else .idle }
      | _ => none
  | .work e =>
      if e.ofLoop = true → th.stage = .tasks then
        (th.work.step e).map fun work => { th with work, stage := th.stage.after e }
      else none
  | .runOnce =>
      match th.stage with
      | .ring => some { th with stage := .test }
      | _ => none

def Reaches (th : LoopThread) (d : Nat) : Prop := th.stage = .tasks ∧ d ∈ th.work.ahead

def Outstanding (th : LoopThread) (d : Nat) : Prop := d ∉ th.work.ran ∧ th.work.Waits d

/-- The task waits where the loop does not come by any more, once `running_` is false. -/
def Stranded (th : LoopThread) (d : Nat) : Prop := th.Outstanding d ∧ ¬th.Reaches d

structure Continues (th th' : LoopThread) : Prop extends WorkerRun.Progress th.work th'.work where
  reaches : ∀ d, (th.work.phase d).isReturned = true → th.Reaches d → d ∈ th'.work.ran ∨ th'.Reaches d

def Unshared (th : LoopThread) : ThreadEvent → Prop
  | .work e => th.work.Unshared e
  | _ => True

variable {th th' : LoopThread} {d : Nat}

theorem Continues.of_work (h : th.work.Kept) (hwork : th'.work = th.work)
    (hstage : th.stage = .tasks → th'.stage = .tasks) : Continues th th' := by
  have hsame : WorkerRun.Progress th.work th'.work := by
    rw [hwork]
    exact ⟨h, fun _ hd => hd, fun _ hd => hd, fun _ _ hd => .inr hd⟩
  refine ⟨hsame, fun d _ hd => .inr ⟨hstage hd.1, ?_⟩⟩
  rw [hwork]
  exact hd.2

theorem Continues.refl (h : th.work.Kept) : Continues th th := .of_work h rfl id

theorem Continues.of_progress {r : WorkerRun} (h : th.work.Progress r) : Continues th { th with work := r } :=
  ⟨h, fun d hret hd => (h.ahead d hret hd.2).imp_right fun hahead => ⟨hd.1, hahead⟩⟩

theorem Continues.work (h : th.work.Kept) {e : WorkerEvent} (hC : th.work.Unshared e) {r : WorkerRun}
    (hs : th.work.step e = some r) : Continues th { th with work := r, stage := th.stage.after e } := by
  have hprogress := h.step hC hs
  cases e with
  | endRound =>
      refine ⟨hprogress, fun d _ hd => ?_⟩
      have hmem := hd.2
      rw [WorkerRun.ahead_of_endRound hs] at hmem
      cases hmem
  | number x | insert x | submit x throws | erase x | post x | drain | swap | runTask =>
      exact .of_progress hprogress

theorem Continues.step (h : th.work.Kept) {e : ThreadEvent} (hC : th.Unshared e) (hs : th.step e = some th') :
    Continues th th' := by
  cases e with
  | test =>
      simp only [LoopThread.step] at hs
      split at hs
      · rename_i hstage
        cases hs
        exact .of_work h rfl fun htasks => by rw [hstage] at htasks; cases htasks
      · cases hs
  | work e =>
      simp only [LoopThread.step] at hs
      split at hs
      · obtain ⟨r, hr, rfl⟩ := Option.map_eq_some_iff.mp hs
        exact .work h hC hr
      · cases hs
  | runOnce =>
      simp only [LoopThread.step] at hs
      split at hs
      · rename_i hstage
        cases hs
        exact .of_work h rfl fun htasks => by rw [hstage] at htasks; cases htasks
      · cases hs

theorem ran_or_reaches (h : th.work.Kept) (hd : (th.work.phase d).isReturned = true) (hns : ¬th.Stranded d) :
    d ∈ th.work.ran ∨ th.Reaches d := by
  by_contra hnot
  obtain ⟨hran, hreach⟩ := not_or.mp hnot
  have hwaits := (h.filed d (DispatchPhase.isPlaced_of_isReturned hd)).resolve_left hran
  exact hns ⟨⟨hran, hwaits⟩, hreach⟩

theorem ran_of_not_outstanding (h : th.work.Kept) (hd : (th.work.phase d).isReturned = true)
    (hno : ¬th.Outstanding d) : d ∈ th.work.ran := by
  by_contra hran
  exact hno ⟨hran, (h.filed d (DispatchPhase.isPlaced_of_isReturned hd)).resolve_left hran⟩

end LoopThread

/-- A call of `EventLoopPool::stop`, with the calls that had returned before it: it has still to exchange
`running_`, or to stop the threads that are left, or to join one of them, or it has returned. -/
inductive StopCall (n : Nat)
  | uncalled
  | called (accepted : List (Fin (n + 1) × Nat))
  | stopping (accepted : List (Fin (n + 1) × Nat)) (left : List (Fin (n + 1)))
  | joining (accepted : List (Fin (n + 1) × Nat)) (i : Fin (n + 1)) (left : List (Fin (n + 1)))
  | returned (accepted : List (Fin (n + 1) × Nat))

-- Thread `0` is the main thread, the others are the workers. A posted or dispatched task is known by its thread
-- and its number there; `accepted` lists those whose calls have returned.
structure EventLoopPool (n : Nat) where
  nextWorker : UInt32 := 0
  running : Bool := false
  threads : Fin (n + 1) → LoopThread := fun _ => {}
  accepted : List (Fin (n + 1) × Nat) := []
  stops : Nat → StopCall n := fun _ => .uncalled

/-- `start` is the store of the flag; the threads start one by one behind it, and the main thread by a `start`
or a `run` of its own. -/
inductive LoopPoolEvent (n : Nat)
  | start
  | startThread (i : Fin (n + 1))
  | runThread (i : Fin (n + 1))
  | post (i : Fin (n + 1))
  | dispatch (leastConnections : Bool)
  | thread (i : Fin (n + 1)) (e : ThreadEvent)
  | returns (i : Fin (n + 1)) (d : Nat)
  | stop (k : Nat)
  | exchange (k : Nat)
  | stopThread (k : Nat)
  | join (k : Nat)
  | endStop (k : Nat)

namespace EventLoopPool

variable {n : Nat}

def put (p : EventLoopPool n) (i : Fin (n + 1)) (th : LoopThread) : EventLoopPool n :=
  { p with threads := Function.update p.threads i th }

def enter (p : EventLoopPool n) (k : Nat) (c : StopCall n) : EventLoopPool n :=
  { p with stops := Function.update p.stops k c }

def stopOrder (n : Nat) : List (Fin (n + 1)) := (List.finRange n).map Fin.succ ++ [⟨0, n.succ_pos⟩]

def chooseWorker [NeZero n] (p : EventLoopPool n) (leastConnections : Bool) : Fin n × PoolDispatch n :=
  let workers : PoolDispatch n := ⟨p.nextWorker, fun w => (p.threads w.succ).work⟩
  if leastConnections then (workers.selectWorkerLeastConnections, workers) else workers.selectWorkerRoundRobin

/-- A second start of a thread ends the process, and a dispatch has no worker to choose where there are
none. `joinable` is read where the join is. -/
def step (p : EventLoopPool n) : LoopPoolEvent n → Option (EventLoopPool n)
  | .start => some { p with running := true }
  | .startThread i =>
      let th := p.threads i
      if th.stage = .idle ∧ th.joinable = false then
        some (p.put i { th with running := true, joinable := true, stage := .test })
      else none
  | .runThread i =>
      let th := p.threads i
      if th.stage = .idle then some (p.put i { th with running := true, stage := .test }) else none
  | .post i => some (p.put i { p.threads i with work := (p.threads i).work.postTask })
  | .dispatch leastConnections =>
      if h : n = 0 then none
      else
        haveI : NeZero n := ⟨h⟩
        let c := p.chooseWorker leastConnections
        let th := p.threads c.1.succ
        some (put { p with nextWorker := c.2.nextWorker } c.1.succ { th with work := th.work.call })
  | .thread i e => ((p.threads i).step e).map (p.put i)
  | .returns i d =>
      if ((p.threads i).work.phase d).isReturned then some { p with accepted := p.accepted ++ [(i, d)] } else none
  | .stop k =>
      match p.stops k with
      | .uncalled => some (p.enter k (.called p.accepted))
      | _ => none
  | .exchange k =>
      match p.stops k with
      | .called accepted =>
          if p.running then some (enter { p with running := false } k (.stopping accepted (stopOrder n)))
          else some (p.enter k (.returned accepted))
      | _ => none
  | .stopThread k =>
      match p.stops k with
      | .stopping accepted (i :: left) =>
          if (p.threads i).running then
            some ((p.put i { p.threads i with running := false }).enter k (.joining accepted i left))
          else some (p.enter k (.stopping accepted left))
      | _ => none
  | .join k =>
      match p.stops k with
      | .joining accepted i left =>
          if (p.threads i).joinable then
            if (p.threads i).stage = .idle then
              some ((p.put i { p.threads i with joinable := false }).enter k (.stopping accepted left))
            else none
          else some (p.enter k (.stopping accepted left))
      | _ => none
  | .endStop k =>
      match p.stops k with
      | .stopping accepted [] => some (p.enter k (.returned accepted))
      | _ => none

def Executed (p : EventLoopPool n) (x : Fin (n + 1) × Nat) : Prop := x.2 ∈ (p.threads x.1).work.ran

/-- A `stop` that has returned leaves none of the tasks accepted before it unexecuted. -/
def NothingDropped (p : EventLoopPool n) : Prop :=
  ∀ k accepted, p.stops k = .returned accepted → ∀ x ∈ accepted, p.Executed x

/-- Where `stop` waits for a thread, the thread comes to every accepted task that it has not run; where
it waits for none, none is outstanding. And no two dispatches share an entry of a table. -/
def Awaited (p : EventLoopPool n) : LoopPoolEvent n → Prop
  | .thread i e => (p.threads i).Unshared e
  | .exchange k =>
      ∀ accepted, p.stops k = .called accepted → p.running = false →
        ∀ x ∈ accepted, ¬(p.threads x.1).Outstanding x.2
  | .stopThread k =>
      ∀ accepted i left, p.stops k = .stopping accepted (i :: left) → ∀ d, (i, d) ∈ accepted →
        if (p.threads i).running then ¬(p.threads i).Stranded d else ¬(p.threads i).Outstanding d
  | .join k =>
      ∀ accepted i left, p.stops k = .joining accepted i left → (p.threads i).joinable = false →
        ∀ d, (i, d) ∈ accepted → ¬(p.threads i).Outstanding d
  | _ => True

def Covered (p : EventLoopPool n) : StopCall n → Prop
  | .uncalled => True
  | .called accepted => accepted ⊆ p.accepted
  | .stopping accepted left => accepted ⊆ p.accepted ∧ ∀ x ∈ accepted, x.1 ∉ left → p.Executed x
  | .joining accepted i left =>
      accepted ⊆ p.accepted ∧ (∀ x ∈ accepted, x.1 ∉ i :: left → p.Executed x) ∧
        ∀ x ∈ accepted, x.1 = i → p.Executed x ∨ (p.threads x.1).Reaches x.2
  | .returned accepted => ∀ x ∈ accepted, p.Executed x

structure Sound (p : EventLoopPool n) : Prop where
  kept : ∀ i, (p.threads i).work.Kept
  returned : ∀ x ∈ p.accepted, ((p.threads x.1).work.phase x.2).isReturned = true
  covered : ∀ k, p.Covered (p.stops k)

variable {p q : EventLoopPool n} {e : LoopPoolEvent n}

theorem Sound.nothingDropped (h : p.Sound) : p.NothingDropped := by
  intro k accepted hk
  have hc := h.covered k
  rw [hk] at hc
  exact hc

theorem sound_start : Sound ({} : EventLoopPool n) := by
  refine ⟨fun _ => WorkerRun.kept_start, fun x hx => ?_, fun _ => trivial⟩
  cases hx

theorem mem_stopOrder (i : Fin (n + 1)) : i ∈ stopOrder n := by
  cases i using Fin.cases with
  | zero => exact List.mem_append_right _ (List.mem_singleton_self 0)
  | succ w => exact List.mem_append_left _ (List.mem_map_of_mem (List.mem_finRange w))

theorem put_continues (h : p.Sound) {i : Fin (n + 1)} {th : LoopThread}
    (hth : LoopThread.Continues (p.threads i) th) (j : Fin (n + 1)) :
    LoopThread.Continues (p.threads j) ((p.put i th).threads j) := by
  show LoopThread.Continues (p.threads j) (Function.update p.threads i th j)
  by_cases hj : j = i
  · subst hj
    rw [Function.update_self]
    exact hth
  · rw [Function.update_of_ne hj]
    exact .refl (h.kept j)

theorem covered_of_continues (h : p.Sound)
    (hth : ∀ i, LoopThread.Continues (p.threads i) (q.threads i)) (hacc : p.accepted ⊆ q.accepted)
    {c : StopCall n} (hc : p.Covered c) : q.Covered c := by
  have hran : ∀ x, p.Executed x → q.Executed x := fun x hx => (hth x.1).ran x.2 hx
  cases c with
  | uncalled => trivial
  | called accepted => exact List.Subset.trans hc hacc
  | stopping accepted left => exact ⟨List.Subset.trans hc.1 hacc, fun x hx hleft => hran x (hc.2 x hx hleft)⟩
  | joining accepted i left =>
      obtain ⟨hsub, hpast, hjoin⟩ := hc
      refine ⟨List.Subset.trans hsub hacc, fun x hx hleft => hran x (hpast x hx hleft), fun x hx hxi => ?_⟩
      rcases hjoin x hx hxi with hdone | hreach
      · exact .inl (hran x hdone)
      · exact (hth x.1).reaches x.2 (h.returned x (hsub hx)) hreach
  | returned accepted => exact fun x hx => hran x (hc x hx)

/-- The rule for a step: the threads continue, and a call of `stop` that moves is covered where it gets
to. -/
theorem Sound.next (h : p.Sound) (hth : ∀ i, LoopThread.Continues (p.threads i) (q.threads i))
    (hacc : q.accepted = p.accepted) (hstops : ∀ k, q.stops k = p.stops k ∨ q.Covered (q.stops k)) : q.Sound := by
  refine ⟨fun i => (hth i).kept, fun x hx => ?_, fun k => ?_⟩
  · rw [hacc] at hx
    exact (hth x.1).returned x.2 (h.returned x hx)
  · rcases hstops k with heq | hc
    · rw [heq]
      exact covered_of_continues h hth (hacc ▸ List.Subset.refl _) (h.covered k)
    · exact hc

theorem Sound.put (h : p.Sound) {i : Fin (n + 1)} {th : LoopThread}
    (hth : LoopThread.Continues (p.threads i) th) : (p.put i th).Sound :=
  h.next (put_continues h hth) rfl fun _ => .inl rfl

theorem Sound.enter (h : p.Sound) {k : Nat} {c : StopCall n} (hc : p.Covered c) : (p.enter k c).Sound := by
  refine h.next (fun i => .refl (h.kept i)) rfl fun k' => ?_
  show Function.update p.stops k c k' = p.stops k' ∨ (p.enter k c).Covered (Function.update p.stops k c k')
  by_cases hk : k' = k
  · subst hk
    rw [Function.update_self]
    exact .inr hc
  · rw [Function.update_of_ne hk]
    exact .inl rfl

theorem Sound.dispatch (h : p.Sound) {leastConnections : Bool}
    (hs : p.step (.dispatch leastConnections) = some q) : q.Sound := by
  simp only [step] at hs
  split at hs
  · cases hs
  · cases hs
    exact h.next (put_continues h (.of_progress (h.kept _).call)) rfl fun _ => .inl rfl

theorem Sound.returns (h : p.Sound) {i : Fin (n + 1)} {d : Nat} (hs : p.step (.returns i d) = some q) : q.Sound := by
  simp only [step] at hs
  split at hs
  · rename_i hret
    cases hs
    refine ⟨h.kept, fun x hx => ?_, fun k => ?_⟩
    · rcases List.mem_append.mp hx with hold | hnew
      · exact h.returned x hold
      · rw [List.mem_singleton.mp hnew]
        exact hret
    · exact covered_of_continues (q := { p with accepted := p.accepted ++ [(i, d)] }) h
        (fun j => .refl (h.kept j)) (List.subset_append_left _ _) (h.covered k)
  · cases hs

theorem Sound.exchange (h : p.Sound) {k : Nat} (hC : p.Awaited (.exchange k))
    (hs : p.step (.exchange k) = some q) : q.Sound := by
  simp only [step] at hs
  split at hs
  · rename_i accepted hk
    have hsub : p.Covered (.called accepted) := hk ▸ h.covered k
    split at hs
    · cases hs
      have hstop : Sound { p with running := false } := ⟨h.kept, h.returned, h.covered⟩
      exact hstop.enter ⟨hsub, fun x _ hx => absurd (mem_stopOrder x.1) hx⟩
    · rename_i hrun
      cases hs
      refine h.enter fun x hx => ?_
      have hno := hC accepted hk (Bool.eq_false_iff.mpr hrun) x hx
      exact LoopThread.ran_of_not_outstanding (h.kept x.1) (h.returned x (hsub hx)) hno
  · cases hs

theorem covered_pass {accepted : List (Fin (n + 1) × Nat)} {i : Fin (n + 1)} {left : List (Fin (n + 1))}
    (hsub : accepted ⊆ p.accepted) (hpast : ∀ x ∈ accepted, x.1 ∉ i :: left → p.Executed x)
    (hi : ∀ d, (i, d) ∈ accepted → p.Executed (i, d)) : p.Covered (.stopping accepted left) := by
  refine ⟨hsub, fun x hx hleft => ?_⟩
  obtain ⟨j, d⟩ := x
  by_cases hj : j = i
  · subst hj
    exact hi d hx
  · exact hpast _ hx (List.not_mem_cons_of_ne_of_not_mem hj hleft)

theorem Sound.stopThread (h : p.Sound) {k : Nat} (hC : p.Awaited (.stopThread k))
    (hs : p.step (.stopThread k) = some q) : q.Sound := by
  simp only [step] at hs
  split at hs
  · rename_i accepted i left hk
    obtain ⟨hsub, hpast⟩ : p.Covered (.stopping accepted (i :: left)) := hk ▸ h.covered k
    have hwait := hC accepted i left hk
    split at hs
    · rename_i hrun
      cases hs
      have hflip : LoopThread.Continues (p.threads i) { p.threads i with running := false } :=
        .of_work (h.kept i) rfl id
      refine (h.put hflip).enter (covered_of_continues h (put_continues h hflip) (List.Subset.refl _) ?_)
      refine ⟨hsub, hpast, ?_⟩
      rintro ⟨_, d⟩ hx rfl
      have hns := hwait d hx
      rw [if_pos hrun] at hns
      exact LoopThread.ran_or_reaches (h.kept _) (h.returned _ (hsub hx)) hns
    · rename_i hrun
      cases hs
      refine h.enter (covered_pass hsub hpast fun d hd => ?_)
      have hno := hwait d hd
      rw [if_neg hrun] at hno
      exact LoopThread.ran_of_not_outstanding (h.kept i) (h.returned _ (hsub hd)) hno
  · cases hs

theorem Sound.join (h : p.Sound) {k : Nat} (hC : p.Awaited (.join k)) (hs : p.step (.join k) = some q) :
    q.Sound := by
  simp only [step] at hs
  split at hs
  · rename_i accepted i left hk
    obtain ⟨hsub, hpast, hjoin⟩ : p.Covered (.joining accepted i left) := hk ▸ h.covered k
    split at hs
    · split at hs
      · rename_i hidle
        cases hs
        have hjoined : LoopThread.Continues (p.threads i) { p.threads i with joinable := false } :=
          .of_work (h.kept i) rfl id
        refine (h.put hjoined).enter (covered_of_continues h (put_continues h hjoined) (List.Subset.refl _) ?_)
        refine covered_pass hsub hpast fun d hd => ?_
        rcases hjoin _ hd rfl with hdone | hreach
        · exact hdone
        · rw [LoopThread.Reaches, hidle] at hreach
          cases hreach.1
      · cases hs
    · rename_i hjoinable
      cases hs
      refine h.enter (covered_pass hsub hpast fun d hd => ?_)
      have hno := hC accepted i left hk (Bool.eq_false_iff.mpr hjoinable) d hd
      exact LoopThread.ran_of_not_outstanding (h.kept i) (h.returned _ (hsub hd)) hno
  · cases hs

theorem Sound.endStop (h : p.Sound) {k : Nat} (hs : p.step (.endStop k) = some q) : q.Sound := by
  simp only [step] at hs
  split at hs
  · rename_i accepted hk
    cases hs
    obtain ⟨-, hpast⟩ : p.Covered (.stopping accepted []) := hk ▸ h.covered k
    exact h.enter fun x hx => hpast x hx List.not_mem_nil
  · cases hs

theorem Sound.step (h : p.Sound) (hC : p.Awaited e) (hs : p.step e = some q) : q.Sound := by
  cases e with
  | start =>
      cases hs
      exact ⟨h.kept, h.returned, h.covered⟩
  | startThread i =>
      simp only [EventLoopPool.step] at hs
      split at hs
      · rename_i hidle
        cases hs
        exact h.put (.of_work (h.kept i) rfl fun htasks => by rw [hidle.1] at htasks; cases htasks)
      · cases hs
  | runThread i =>
      simp only [EventLoopPool.step] at hs
      split at hs
      · rename_i hidle
        cases hs
        exact h.put (.of_work (h.kept i) rfl fun htasks => by rw [hidle] at htasks; cases htasks)
      · cases hs
  | post i =>
      cases hs
      exact h.put (.of_progress (h.kept i).postTask)
  | dispatch leastConnections => exact h.dispatch hs
  | thread i e =>
      obtain ⟨th, hth, rfl⟩ := Option.map_eq_some_iff.mp hs
      exact h.put (.step (h.kept i) hC hth)
  | returns i d => exact h.returns hs
  | stop k =>
      simp only [EventLoopPool.step] at hs
      split at hs
      · cases hs
        exact h.enter (List.Subset.refl p.accepted)
      · cases hs
  | exchange k => exact h.exchange hC hs
  | stopThread k => exact h.stopThread hC hs
  | join k => exact h.join hC hs
  | endStop k => exact h.endStop hs

end EventLoopPool

/-- In a run in which each `stop` finds every accepted task where it waits for it to be run, no task
that was accepted before a `stop` is unexecuted when it returns. -/
theorem stop_drops_nothing {n : Nat} (evs : List (LoopPoolEvent n))
    (hC : EachStep EventLoopPool.step EventLoopPool.Awaited ({} : EventLoopPool n) evs) :
    Throughout EventLoopPool.step EventLoopPool.NothingDropped ({} : EventLoopPool n) evs := by
  intro fs p hfs hp
  have hsound := throughout_of_eachStep (fun _ _ _ h hC hs => EventLoopPool.Sound.step h hC hs)
    EventLoopPool.sound_start hC fs p hfs hp
  exact hsound.nothingDropped

def stopInTime : List (LoopPoolEvent 1) :=
  [.start, .startThread 1, .post 1, .returns 1 0, .dispatch false, .thread 1 (.work (.number 1)),
    .thread 1 (.work (.insert 1)), .thread 1 (.work (.submit 1 false)), .returns 1 1, .thread 1 .test, .stop 0,
    .exchange 0, .stopThread 0, .thread 1 (.work .drain), .thread 1 (.work .swap), .thread 1 (.work .runTask),
    .thread 1 (.work .endRound), .thread 1 .runOnce, .thread 1 .test, .join 0, .stopThread 0, .endStop 0]

theorem stop_drops_nothing_in_time :
    ∃ p, run EventLoopPool.step ({} : EventLoopPool 1) stopInTime = some p ∧
      p.stops 0 = .returned [(1, 0), (1, 1)] ∧ (p.threads 1).work.ran = [1, 0] ∧ p.NothingDropped := by
  have hC : EachStep EventLoopPool.step EventLoopPool.Awaited ({} : EventLoopPool 1) stopInTime := by
    iterate 6 refine (eachStep_cons rfl).mpr ⟨trivial, ?_⟩
    refine (eachStep_cons rfl).mpr ⟨fun _ h => by cases h; decide, ?_⟩
    iterate 4 refine (eachStep_cons rfl).mpr ⟨trivial, ?_⟩
    refine (eachStep_cons rfl).mpr ⟨fun _ _ h => (by cases h), ?_⟩
    refine (eachStep_cons rfl).mpr ⟨?_, ?_⟩
    · intro accepted i left h d hd
      have hat : StopCall.stopping [(1, 0), (1, 1)] [1, 0] = .stopping accepted (i :: left) := h
      injection hat with haccepted hleft
      injection hleft with hi
      subst haccepted hi
      rw [if_pos (by decide)]
      rintro ⟨-, hreach⟩
      have hmem : d = 0 ∨ d = 1 := by simpa using hd
      rcases hmem with rfl | rfl
      · exact hreach ⟨by decide, by decide⟩
      · exact hreach ⟨by decide, by decide⟩
    iterate 6 refine (eachStep_cons rfl).mpr ⟨trivial, ?_⟩
    refine (eachStep_cons rfl).mpr ⟨?_, ?_⟩
    · intro accepted i left h hjoin
      have hat : StopCall.joining [(1, 0), (1, 1)] 1 [0] = .joining accepted i left := h
      injection hat with _ hi
      subst hi
      exact absurd hjoin (by decide)
    refine (eachStep_cons rfl).mpr ⟨?_, ?_⟩
    · intro accepted i left h d hd
      have hat : StopCall.stopping [(1, 0), (1, 1)] [0] = .stopping accepted (i :: left) := h
      injection hat with haccepted hleft
      injection hleft with hi
      subst haccepted hi
      simp at hd
    refine (eachStep_cons rfl).mpr ⟨trivial, ?_⟩
    exact eachStep_nil
  exact ⟨_, rfl, rfl, rfl, stop_drops_nothing stopInTime hC stopInTime _ List.prefix_rfl rfl⟩

/-- The worker is behind its round when the task is posted, and finds its flag false when it comes back to
the test. -/
theorem stop_drops_posted :
    ∃ p, run EventLoopPool.step ({} : EventLoopPool 1)
        [.start, .startThread 1, .thread 1 .test, .thread 1 (.work .drain), .thread 1 (.work .swap),
          .thread 1 (.work .endRound), .post 1, .returns 1 0, .stop 0, .exchange 0, .stopThread 0,
          .thread 1 .runOnce, .thread 1 .test, .join 0, .stopThread 0, .endStop 0] = some p ∧
      p.stops 0 = .returned [(1, 0)] ∧ ¬p.NothingDropped := by
  refine ⟨_, rfl, rfl, fun h => ?_⟩
  exact absurd (h 0 [(1, 0)] rfl (1, 0) (List.mem_singleton_self _)) List.not_mem_nil

end CoroRpc.Io

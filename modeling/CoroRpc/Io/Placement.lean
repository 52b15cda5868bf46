import CoroRpc.Coro.Scheduler
import CoroRpc.Io.Dispatch
import CoroRpc.Lib.Balance

namespace CoroRpc

open Balance Trace

namespace Coro.SchedulerRun

variable {κ : Type} {n m : Nat}

def loads (r : SchedulerRun κ n m) (i : Fin n) : Nat := (r.localQueues i).size

def Automatic (n : Nat) (threadId : Int) : Prop := ¬(0 ≤ threadId ∧ threadId.toNat < n)

/-- The calls choose automatically and do not overlap, and nothing is taken out of a queue. -/
def OneByOne (r : SchedulerRun κ n m) : SchedulerEvent κ n m → Prop
  | .schedule _ _ threadId => (∀ u, r.caller u = .out) ∧ Automatic n threadId
  | .scheduleBatch _ _ => ∀ u, r.caller u = .out
  | .pop w => (r.localQueues w).queue = []
  | .steal w => ∀ i : Fin n, r.worker w = .stealing i → i ≠ w → (r.localQueues i).queue = []
  | _ => True

def PushesLeast (r : SchedulerRun κ n m) : Prop :=
  ∀ t handle target rest, r.caller t = .pushing handle target rest → Least r.loads target

def Scanned (r : SchedulerRun κ n m) : CallPhase κ n → Prop
  | .out => True
  | .entered _ threadId _ => Automatic n threadId
  | .scanning _ i minIdx minSize _ => minSize = r.loads minIdx ∧ ∀ j : Fin n, j.val < i → minSize ≤ r.loads j
  | .pushing _ target _ => Least r.loads target

structure Level (r : SchedulerRun κ n m) : Prop where
  balanced : Balanced r.loads
  alone : ∀ t u, r.caller t ≠ .out → u ≠ t → r.caller u = .out
  scanned : ∀ t, r.Scanned (r.caller t)

variable {r s : SchedulerRun κ n m} {t : Fin m}

theorem Level.pushesLeast (h : r.Level) : r.PushesLeast := by
  intro t handle target rest ht
  have hscanned := h.scanned t
  rw [ht] at hscanned
  exact hscanned

theorem level_start (hout : ∀ u, r.caller u = .out) (h : Balanced r.loads) : r.Level := by
  refine ⟨h, fun t u ht _ => absurd (hout t) ht, fun t => ?_⟩
  rw [hout t]
  trivial

theorem Level.next (h : Balanced s.loads) (hothers : ∀ u, u ≠ t → s.caller u = .out)
    (ht : s.Scanned (s.caller t)) : s.Level := by
  refine ⟨h, fun u v hu hv => ?_, fun u => ?_⟩
  · have hut : u = t := by
      by_contra hne
      exact hu (hothers u hne)
    exact hothers v (hut ▸ hv)
  · by_cases hu : u = t
    · rw [hu]
      exact ht
    · rw [hothers u hu]
      trivial

theorem Level.setCaller (h : Balanced r.loads) (hothers : ∀ u, u ≠ t → r.caller u = .out) {p : CallPhase κ n}
    (hp : r.Scanned p) : (r.setCaller t p).Level := by
  apply Level.next (t := t)
  · exact h
  · intro u hu
    exact (Function.update_of_ne hu _ _).trans (hothers u hu)
  · show (r.setCaller t p).Scanned (Function.update r.caller t p t)
    rw [Function.update_self]
    cases p with
    | out | entered | scanning | pushing => exact hp

theorem Level.enterBatch (h : Balanced r.loads) (hothers : ∀ u, u ≠ t → r.caller u = .out) (handles : List κ) :
    (r.enterBatch t handles).Level := by
  cases handles with
  | nil => exact Level.setCaller h hothers trivial
  | cons handle rest =>
      have hauto : Automatic n (-1) := fun h => absurd h.1 (by decide)
      exact Level.setCaller (r := { r with begun := r.begun ++ [handle] }) h hothers hauto

theorem loads_setQueue (i : Fin n) (handle : κ) :
    (r.setQueue i ((r.localQueues i).push handle)).loads = Function.update r.loads i (r.loads i + 1) := by
  funext j
  show ((Function.update r.localQueues i _ j).size) = _
  by_cases hj : j = i
  · subst hj
    rw [Function.update_self, Function.update_self]
    exact List.length_append
  · rw [Function.update_of_ne hj, Function.update_of_ne hj]
    rfl

variable [NeZero n]

theorem Level.choose (h : r.Level) (hs : r.step (.choose t) = some s) : s.Level := by
  have hscanned := h.scanned t
  simp only [step] at hs
  split at hs
  · next handle threadId rest ht =>
      rw [ht] at hscanned
      have hothers := h.alone t
      rw [ht] at hothers
      rw [dif_neg hscanned] at hs
      cases hs
      refine Level.setCaller h.balanced (hothers · (by simp)) ⟨rfl, fun j hj => ?_⟩
      have hzero : j = 0 := Fin.ext (Nat.lt_one_iff.mp hj)
      rw [hzero]
      exact le_rfl
  · cases hs

theorem Level.scan (h : r.Level) (hs : r.step (.scan t) = some s) : s.Level := by
  have hscanned := h.scanned t
  simp only [step] at hs
  split at hs
  · next handle i minIdx minSize rest ht =>
      rw [ht] at hscanned
      obtain ⟨hmin, hleast⟩ := hscanned
      have hothers := h.alone t
      rw [ht] at hothers
      split at hs
      · next hi =>
          split at hs
          · next hlt =>
              cases hs
              refine Level.setCaller h.balanced (hothers · (by simp)) ⟨rfl, fun j hj => ?_⟩
              rcases Nat.lt_succ_iff_lt_or_eq.mp hj with hj | hj
              · exact (Nat.le_of_lt hlt).trans (hleast j hj)
              · exact le_of_eq (congrArg r.loads (Fin.ext hj.symm))
          · next hle =>
              cases hs
              refine Level.setCaller h.balanced (hothers · (by simp)) ⟨hmin, fun j hj => ?_⟩
              rcases Nat.lt_succ_iff_lt_or_eq.mp hj with hj | hj
              · exact hleast j hj
              · have heq : j = ⟨i, hi⟩ := Fin.ext hj
                rw [heq]
                exact Nat.not_lt.mp hle
      · next hi =>
          cases hs
          refine Level.setCaller h.balanced (hothers · (by simp)) fun j => ?_
          rw [← hmin]
          exact hleast j (by omega)
  · cases hs

theorem Level.push (h : r.Level) (hs : r.step (.push t) = some s) : s.Level := by
  have hscanned := h.scanned t
  simp only [step] at hs
  split at hs
  · next handle target rest ht =>
      rw [ht] at hscanned
      have hothers := h.alone t
      rw [ht] at hothers
      cases hs
      apply Level.enterBatch
      · show Balanced (r.setQueue target ((r.localQueues target).push handle)).loads
        rw [loads_setQueue]
        exact h.balanced.add hscanned
      · intro u hu
        exact hothers u (by simp) hu
  · cases hs

omit [NeZero n] in
theorem Level.setWorker (h : r.Level) (w : Fin n) (p : WorkerPhase κ) : (r.setWorker w p).Level :=
  ⟨h.balanced, h.alone, h.scanned⟩

theorem Level.step {e : SchedulerEvent κ n m} (h : r.Level) (hC : r.OneByOne e) (hs : r.step e = some s) :
    s.Level := by
  cases e with
  | schedule t handle threadId =>
      simp only [SchedulerRun.step] at hs
      split at hs
      · cases hs
        exact Level.setCaller (r := { r with begun := r.begun ++ [handle] }) h.balanced (fun u _ => hC.1 u) hC.2
      · cases hs
  | scheduleBatch t handles =>
      simp only [SchedulerRun.step] at hs
      split at hs
      · cases hs
        exact Level.enterBatch h.balanced (fun u _ => hC u) handles
      · cases hs
  | choose t => exact h.choose hs
  | scan t => exact h.scan hs
  | push t => exact h.push hs
  | pop w =>
      have hpop : (r.localQueues w).pop = none := by
        rw [WorkStealingQueue.pop, show (r.localQueues w).queue = [] from hC]
        rfl
      simp only [SchedulerRun.step, hpop] at hs
      split at hs
      · split at hs
        · cases hs
          exact h.setWorker w _
        · cases hs
          exact h.setWorker w _
      · cases hs
  | steal w =>
      simp only [SchedulerRun.step] at hs
      split at hs
      · next i hw =>
          split at hs
          · next hi =>
              split at hs
              · cases hs
                exact h.setWorker w _
              · next hne =>
                  have hempty := hC ⟨i, hi⟩ hw fun heq => hne (congrArg Fin.val heq)
                  have hsteal : (r.localQueues ⟨i, hi⟩).steal = none := by
                    rw [WorkStealingQueue.steal, hempty]
                  rw [hsteal] at hs
                  cases hs
                  exact h.setWorker w _
          · cases hs
            exact h.setWorker w _
      · cases hs
  | resume w =>
      simp only [SchedulerRun.step] at hs
      split at hs
      · cases hs
        exact ⟨h.balanced, h.alone, h.scanned⟩
      · cases hs
  | suspended w =>
      simp only [SchedulerRun.step] at hs
      split at hs
      · cases hs
        exact h.setWorker w _
      · cases hs
  | wake w =>
      simp only [SchedulerRun.step] at hs
      split at hs
      · cases hs
        exact h.setWorker w _
      · cases hs
  | stop =>
      cases hs
      exact ⟨h.balanced, h.alone, h.scanned⟩

omit [NeZero n] in
theorem caller_setCaller (t : Fin m) (p : CallPhase κ n) : (r.setCaller t p).caller t = p := Function.update_self ..

theorem step_scanning (handle : κ) {i : Nat} (hi : i < n) (minIdx : Fin n) (rest : List κ) :
    (r.setCaller t (.scanning handle i minIdx (r.loads minIdx) rest)).step (.scan t) =
      let next := if r.loads ⟨i, hi⟩ < r.loads minIdx then ⟨i, hi⟩ else minIdx
      some (r.setCaller t (.scanning handle (i + 1) next (r.loads next) rest)) := by
  simp only [step, caller_setCaller, setCaller_setCaller]
  rw [dif_pos hi]
  show (if r.loads ⟨i, hi⟩ < r.loads minIdx then _ else _) = _
  split
  · rfl
  · rfl

theorem step_scanned (handle : κ) (minIdx : Fin n) (minSize : Nat) (rest : List κ) :
    (r.setCaller t (.scanning handle n minIdx minSize rest)).step (.scan t) =
      some (r.setCaller t (.pushing handle minIdx rest)) := by
  simp only [step, caller_setCaller, setCaller_setCaller]
  rw [dif_neg (Nat.lt_irrefl n)]

/-- The loop over the sizes ends with a place of the least size among those it has seen. -/
theorem run_scan (handle : κ) (rest : List κ) (d i : Nat) (hi : i + d = n) (minIdx : Fin n) :
    ∃ target, run step (r.setCaller t (.scanning handle i minIdx (r.loads minIdx) rest))
        (List.replicate (d + 1) (.scan t)) = some (r.setCaller t (.pushing handle target rest)) ∧
      r.loads target ≤ r.loads minIdx ∧ ∀ j : Fin n, i ≤ j → r.loads target ≤ r.loads j := by
  induction d generalizing i minIdx with
  | zero =>
      subst hi
      refine ⟨minIdx, run_cons.mpr ⟨_, step_scanned .., run_nil.mpr rfl⟩, le_rfl, fun j hj => ?_⟩
      exact absurd j.isLt (Nat.not_lt.mpr hj)
  | succ d ih =>
      have hin : i < n := by omega
      obtain ⟨target, hrun, hle, hall⟩ :=
        ih (i + 1) (by omega) (if r.loads ⟨i, hin⟩ < r.loads minIdx then ⟨i, hin⟩ else minIdx)
      have hnext : r.loads target ≤ r.loads minIdx ∧ r.loads target ≤ r.loads ⟨i, hin⟩ := by
        split at hle
        · next hlt => exact ⟨hle.trans hlt.le, hle⟩
        · next hnot => exact ⟨hle, hle.trans (Nat.not_lt.mp hnot)⟩
      refine ⟨target, run_cons.mpr ⟨_, step_scanning handle hin minIdx rest, hrun⟩, hnext.1, fun j hj => ?_⟩
      rcases Nat.eq_or_lt_of_le hj with heq | hlt
      · have hj : j = ⟨i, hin⟩ := Fin.ext heq.symm
        rw [hj]
        exact hnext.2
      · exact hall j hlt

def callEvents (n : Nat) (t : Fin m) : List (SchedulerEvent κ n m) :=
  .choose t :: (List.replicate n (.scan t) ++ [.push t])

theorem run_call (handle : κ) {threadId : Int} (hauto : Automatic n threadId) (rest : List κ) :
    ∃ target, Least r.loads target ∧
      run step (r.setCaller t (.entered handle threadId rest)) (callEvents n t) =
        some
          (enterBatch
            { r.setQueue target ((r.localQueues target).push handle) with passed := r.passed ++ [handle] } t
            rest) := by
  obtain ⟨d, hd⟩ : ∃ d, 1 + d = n := ⟨n - 1, by have := NeZero.ne n; omega⟩
  obtain ⟨target, hrun, hle, hall⟩ := run_scan (r := r) (t := t) handle rest d 1 hd 0
  refine ⟨target, fun j => ?_, ?_⟩
  · rcases Nat.eq_zero_or_pos j.val with hzero | hpos
    · have hj : j = 0 := Fin.ext hzero
      rw [hj]
      exact hle
    · exact hall j hpos
  · refine run_cons.mpr ⟨r.setCaller t (.scanning handle 1 0 (r.loads 0) rest), ?_, ?_⟩
    · simp only [step, caller_setCaller, setCaller_setCaller]
      exact dif_neg hauto
    · have hlist : List.replicate n (.scan t : SchedulerEvent κ n m) = List.replicate (d + 1) (.scan t) :=
        congrArg (List.replicate · _) (by omega)
      rw [hlist]
      refine run_append hrun (run_cons.mpr ⟨_, ?_, run_nil.mpr rfl⟩)
      simp only [step, caller_setCaller]
      exact congrArg some (setCaller_enterBatch { r.setQueue target _ with passed := _ } ..)

theorem run_schedule (handle : κ) {threadId : Int} (hauto : Automatic n threadId) (ht : r.caller t = .out) :
    ∃ target, Least r.loads target ∧ ∃ s, run step r (.schedule t handle threadId :: callEvents n t) = some s ∧
      s.localQueues = Function.update r.localQueues target ((r.localQueues target).push handle) ∧
        s.caller = r.caller := by
  obtain ⟨target, hleast, hrun⟩ := run_call (r := { r with begun := r.begun ++ [handle] }) (t := t) handle hauto []
  refine ⟨target, hleast, _, run_cons.mpr ⟨_, ?_, hrun⟩, rfl, ?_⟩
  · simp only [step, ht]
    rfl
  · show Function.update r.caller t .out = r.caller
    rw [← ht, Function.update_eq_self]

theorem run_batch (handles : List κ) :
    ∃ s, run step (r.enterBatch t handles) (handles.flatMap fun _ => callEvents n t) = some s ∧
      s.caller = Function.update r.caller t .out ∧ s.passed = r.passed ++ handles := by
  induction handles generalizing r with
  | nil => exact ⟨_, run_nil.mpr rfl, rfl, (List.append_nil _).symm⟩
  | cons handle rest ih =>
      have hauto : Automatic n (-1) := fun h => absurd h.1 (by decide)
      obtain ⟨target, -, hrun⟩ := run_call (r := { r with begun := r.begun ++ [handle] }) (t := t) handle hauto rest
      obtain ⟨s, hs, hcaller, hpassed⟩ := ih
      refine ⟨s, run_append hrun hs, hcaller, ?_⟩
      rw [hpassed, List.append_assoc]
      rfl

theorem run_scheduleBatch (handles : List κ) (ht : r.caller t = .out) :
    ∃ s, run step r (.scheduleBatch t handles :: handles.flatMap fun _ => callEvents n t) = some s ∧
      s.caller = r.caller ∧ s.passed = r.passed ++ handles := by
  obtain ⟨s, hrun, hcaller, hpassed⟩ := run_batch (r := r) (t := t) handles
  refine ⟨s, run_cons.mpr ⟨_, ?_, hrun⟩, ?_, hpassed⟩
  · simp only [step, ht]
  · rw [hcaller, ← ht, Function.update_eq_self]

end Coro.SchedulerRun

namespace Io.PoolDispatch

variable {n : Nat}

def loads (p : PoolDispatch n) (w : Fin n) : Nat := (p.workers w).connectionCount.toNat

def connectionCount (main : UInt64) (p : PoolDispatch n) : Fin (n + 1) → UInt64 :=
  Fin.cons main fun w => (p.workers w).connectionCount

def leastConnections [NeZero n] (connectionCount : Fin (n + 1) → UInt64) : Nat × UInt64 :=
  (List.finRange n).foldl
    (fun best i =>
      let count := connectionCount i.succ
      if count < best.2 then (i.succ.val - 1, count) else best)
    (0, connectionCount 1)

variable {p q : PoolDispatch n}

theorem foldl_leastConnections (main : UInt64) (places : List (Fin n)) (best : Fin n) :
    places.foldl
        (fun best i =>
          let count := p.connectionCount main i.succ
          if count < best.2 then (i.succ.val - 1, count) else best)
        (best.val, (p.workers best).connectionCount) =
      let best := places.foldl
        (fun best i => if (p.workers i).connectionCount < (p.workers best).connectionCount then i else best) best
      (best.val, (p.workers best).connectionCount) := by
  induction places generalizing best with
  | nil => rfl
  | cons i places ih =>
      rw [List.foldl_cons, List.foldl_cons]
      by_cases hlt : (p.workers i).connectionCount < (p.workers best).connectionCount
      · rw [if_pos hlt, ← ih i]
        congr 1
        exact if_pos hlt
      · rw [if_neg hlt, ← ih best]
        congr 1
        exact if_neg hlt

variable [NeZero n]

theorem leastConnections_eq (main : UInt64) :
    (leastConnections (p.connectionCount main)).1 = p.selectWorkerLeastConnections := by
  have hone : (1 : Fin (n + 1)) = Fin.succ 0 := by
    rw [Fin.succ_zero_eq_one']
  have hfold := foldl_leastConnections (p := p) main (List.finRange n) 0
  rw [leastConnections, hone]
  exact congrArg Prod.fst hfold

theorem selectWorkerLeastConnections_eq (p : PoolDispatch n) :
    p.selectWorkerLeastConnections =
      (List.finRange n).foldl (fun best i => if p.loads i < p.loads best then i else best) 0 := by
  simp only [selectWorkerLeastConnections, UInt64.lt_iff_toNat_lt]
  rfl

theorem least_selectWorker (p : PoolDispatch n) : Least p.loads p.selectWorkerLeastConnections := by
  intro w
  rw [selectWorkerLeastConnections_eq]
  exact (foldl_least p.loads (List.finRange n) 0).2 w (List.mem_finRange w)

/-- The dispatches are by the least connections, and the count of their worker is not at its end. -/
def Room (p : PoolDispatch n) : PoolDispatchEvent n → Prop
  | .call leastConnections => leastConnections = true ∧ p.loads p.selectWorkerLeastConnections + 1 < 2 ^ 64
  | .worker _ _ => True

omit [NeZero n] in
theorem connectionCount_step {r s : WorkerRun} {e : WorkerEvent} (hs : r.step e = some s) :
    s.connectionCount = r.connectionCount := by
  cases e with
  | number d =>
      obtain ⟨-, rfl⟩ := WorkerRun.step_number hs
      rfl
  | insert d =>
      obtain ⟨_, -, rfl⟩ := WorkerRun.step_insert hs
      rfl
  | submit d throws =>
      obtain ⟨_, -, rfl⟩ := WorkerRun.step_submit hs
      rfl
  | erase d =>
      obtain ⟨_, -, rfl⟩ := WorkerRun.step_erase hs
      rfl
  | post d =>
      obtain ⟨-, rfl⟩ := WorkerRun.step_post hs
      rfl
  | drain =>
      obtain ⟨-, rfl⟩ := WorkerRun.step_drain hs
      rfl
  | swap =>
      obtain ⟨-, rfl⟩ := WorkerRun.step_swap hs
      rfl
  | runTask =>
      obtain ⟨_, _, -, rfl⟩ := WorkerRun.step_runTask hs
      rfl
  | endRound =>
      obtain ⟨-, rfl⟩ := WorkerRun.step_endRound hs
      rfl

omit [NeZero n] in
theorem loads_update (p : PoolDispatch n) (w : Fin n) (t : WorkerRun) :
    loads { p with workers := Function.update p.workers w t } =
      Function.update p.loads w t.connectionCount.toNat := by
  funext w'
  show (Function.update p.workers w t w').connectionCount.toNat = _
  by_cases hw : w' = w
  · subst hw
    rw [Function.update_self, Function.update_self]
  · rw [Function.update_of_ne hw, Function.update_of_ne hw]
    rfl

theorem balanced_step {e : PoolDispatchEvent n} (h : Balanced p.loads) (hC : p.Room e) (hs : p.step e = some q) :
    Balanced q.loads := by
  cases e with
  | call leastConnections =>
      obtain ⟨rfl, hroom⟩ := hC
      cases hs
      have hadd : (p.workers p.selectWorkerLeastConnections).call.connectionCount.toNat =
          p.loads p.selectWorkerLeastConnections + 1 := by
        show ((p.workers _).connectionCount + 1).toNat = _
        rw [UInt64.toNat_add]
        exact Nat.mod_eq_of_lt hroom
      show Balanced
        (loads { p with workers := Function.update p.workers _ (p.workers p.selectWorkerLeastConnections).call })
      rw [loads_update, hadd]
      exact h.add (least_selectWorker p)
  | worker w e =>
      obtain ⟨t, ht, rfl⟩ := Option.map_eq_some_iff.mp hs
      rw [loads_update, connectionCount_step ht]
      show Balanced (Function.update p.loads w (p.loads w))
      rw [Function.update_eq_self]
      exact h

end Io.PoolDispatch

namespace Io

open Coro

/-- Placement by the least load keeps the loads level, in the queues of the scheduler as long as the
calls do not overlap, and for the workers of a pool as long as no count comes to its end. -/
theorem placement_level {κ : Type} {n m : Nat} [NeZero n] :
    (∀ (r : SchedulerRun κ n m) (t : Fin m) (handle : κ) (threadId : Int),
        SchedulerRun.Automatic n threadId → r.caller t = .out →
        ∃ target, Least r.loads target ∧
          ∃ s, run SchedulerRun.step r (.schedule t handle threadId :: SchedulerRun.callEvents n t) = some s ∧
            s.localQueues = Function.update r.localQueues target ((r.localQueues target).push handle) ∧
              s.caller = r.caller) ∧
      (∀ (r : SchedulerRun κ n m) (t : Fin m) (handles : List κ), r.caller t = .out →
        ∃ s, run SchedulerRun.step r
            (.scheduleBatch t handles :: handles.flatMap fun _ => SchedulerRun.callEvents n t) = some s ∧
          s.caller = r.caller ∧ s.passed = r.passed ++ handles) ∧
      (∀ (r : SchedulerRun κ n m) (evs : List (SchedulerEvent κ n m)), (∀ u, r.caller u = .out) →
        Balanced r.loads → EachStep SchedulerRun.step SchedulerRun.OneByOne r evs →
        Throughout SchedulerRun.step (fun s => Balanced s.loads ∧ s.PushesLeast) r evs) ∧
      (∀ (p : PoolDispatch n) (main : UInt64),
        (PoolDispatch.leastConnections (p.connectionCount main)).1 = p.selectWorkerLeastConnections ∧
          Least p.loads p.selectWorkerLeastConnections) ∧
      ∀ (p : PoolDispatch n) (evs : List (PoolDispatchEvent n)), Balanced p.loads →
        EachStep PoolDispatch.step PoolDispatch.Room p evs →
        Throughout PoolDispatch.step (fun q => Balanced q.loads) p evs := by
  refine ⟨?_, ?_, ?_, ?_, ?_⟩
  · intro r t handle threadId hauto ht
    exact SchedulerRun.run_schedule handle hauto ht
  · intro r t handles ht
    exact SchedulerRun.run_scheduleBatch handles ht
  · intro r evs hout hbalanced hC fs s hfs hs
    have hlevel := throughout_of_eachStep (P := SchedulerRun.Level) (fun _ _ _ h hC hs => h.step hC hs)
      (SchedulerRun.level_start hout hbalanced) hC fs s hfs hs
    exact ⟨hlevel.balanced, hlevel.pushesLeast⟩
  · intro p main
    exact ⟨PoolDispatch.leastConnections_eq main, PoolDispatch.least_selectWorker p⟩
  · intro p evs hbalanced hC
    exact throughout_of_eachStep (fun _ _ _ h hC hs => PoolDispatch.balanced_step h hC hs) hbalanced hC

/-- A batch of two for two queues, and two dispatches to two workers. -/
theorem placement_level_two :
    ∃ (s : SchedulerRun Bool 2 1) (q : PoolDispatch 2),
      run SchedulerRun.step {}
          (.scheduleBatch 0 [false, true] :: [false, true].flatMap fun _ => SchedulerRun.callEvents 2 0) = some s ∧
        (s.passed = [false, true] ∧ Balanced s.loads ∧ s.PushesLeast) ∧
      run PoolDispatch.step {} [.call true, .call true] = some q ∧
        (q.loads 0 = 1 ∧ q.loads 1 = 1) ∧ Balanced q.loads := by
  obtain ⟨hschedule, hbatch, hruns, hselect, hpool⟩ := @placement_level Bool 2 1 _
  have hC : EachStep SchedulerRun.step SchedulerRun.OneByOne ({} : SchedulerRun Bool 2 1)
      (.scheduleBatch 0 [false, true] :: [false, true].flatMap fun _ => SchedulerRun.callEvents 2 0) := by
    refine (eachStep_cons rfl).mpr ⟨fun _ => rfl, ?_⟩
    iterate 8 refine (eachStep_cons rfl).mpr ⟨trivial, ?_⟩
    exact eachStep_nil
  have hroom : EachStep PoolDispatch.step PoolDispatch.Room ({} : PoolDispatch 2) [.call true, .call true] := by
    refine (eachStep_cons rfl).mpr ⟨⟨rfl, by decide⟩, (eachStep_cons rfl).mpr ⟨⟨rfl, by decide⟩, eachStep_nil⟩⟩
  obtain ⟨s, hs, -, hpassed⟩ := hbatch {} 0 [false, true] rfl
  have hlevel := hruns {} _ (fun _ => rfl) (fun _ _ => Nat.zero_le _) hC _ s List.prefix_rfl hs
  exact ⟨s, _, hs, ⟨hpassed, hlevel⟩, rfl, ⟨rfl, rfl⟩,
    hpool {} _ (fun _ _ => Nat.zero_le _) hroom _ _ List.prefix_rfl rfl⟩

/-- Two calls that overlap choose the same queue, and the count of a worker that is at its end starts
again. -/
theorem placement_not_level :
    (∃ s, run SchedulerRun.step ({} : SchedulerRun Unit 2 2)
        [.schedule 0 () (-1), .schedule 1 () (-1), .choose 0, .choose 1, .scan 0, .scan 0, .scan 1, .scan 1,
          .push 0, .push 1] = some s ∧
      Balanced (SchedulerRun.loads ({} : SchedulerRun Unit 2 2)) ∧ ¬Balanced s.loads) ∧
    ∃ q, run PoolDispatch.step ({ workers := fun _ => { connectionCount := -1 } } : PoolDispatch 2) [.call true] =
        some q ∧
      Balanced (PoolDispatch.loads ({ workers := fun _ => { connectionCount := -1 } } : PoolDispatch 2)) ∧
        ¬Balanced q.loads := by
  constructor
  · refine ⟨_, rfl, fun _ _ => Nat.zero_le _, fun h => ?_⟩
    exact absurd (h 0 1) (by decide)
  · refine ⟨_, rfl, fun _ _ => Nat.le_succ _, fun h => ?_⟩
    exact absurd (h 1 0) (by decide)

end Io

end CoroRpc

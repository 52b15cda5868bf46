import CoroRpc.Coro.Drain

namespace CoroRpc.Coro

open Shares Trace

variable {κ : Type} {n m : Nat}

def SchedulerEvent.resumes (w : Fin n) : SchedulerEvent κ n m → Bool
  | .resume v => v = w
  | _ => false

theorem worker_of_resumes {e : SchedulerEvent κ n m} {w : Fin n} (h : e.resumes w = true) : e.worker = some w := by
  cases e with
  | resume v => exact congrArg some (of_decide_eq_true h)
  | _ => cases h

namespace WorkerPhase

def stepsToEnd (n : Nat) : WorkerPhase κ → Nat
  | .top => 1
  | .stealing i => n + 1 - i + 3
  | .holding _ => 3
  | .resuming _ | .waiting => 2
  | .ended => 0

def toResume : WorkerPhase κ → Nat
  | .stealing _ | .holding _ => 1
  | _ => 0

theorem stepsToEnd_le (n : Nat) (p : WorkerPhase κ) : p.stepsToEnd n ≤ n + 4 := by
  cases p <;> simp only [stepsToEnd] <;> omega

theorem toResume_le (p : WorkerPhase κ) : p.toResume ≤ 1 := by
  cases p <;> simp [toResume]

theorem ended_of_stepsToEnd {n : Nat} {p : WorkerPhase κ} (h : p.stepsToEnd n = 0) : p = .ended := by
  cases p with
  | ended => rfl
  | _ => simp [stepsToEnd] at h

end WorkerPhase

namespace SchedulerRun

structure Stops (r r' : SchedulerRun κ n m) (e : SchedulerEvent κ n m) : Prop where
  running : r'.running = false
  others : ∀ w, e.worker ≠ some w → r'.worker w = r.worker w
  steps : ∀ w, e.worker = some w → (r'.worker w).stepsToEnd n < (r.worker w).stepsToEnd n
  resumes : ∀ w, e.resumes w = true → (r'.worker w).toResume < (r.worker w).toResume
  keeps : ∀ w, (r'.worker w).toResume ≤ (r.worker w).toResume
  resumed : e.worker = none → r'.resumed = r.resumed

variable {r r' : SchedulerRun κ n m} {e : SchedulerEvent κ n m} {v w : Fin n}

theorem enterBatch_worker (r : SchedulerRun κ n m) (t : Fin m) (handles : List κ) :
    (r.enterBatch t handles).worker = r.worker ∧ (r.enterBatch t handles).resumed = r.resumed ∧
      (r.enterBatch t handles).running = r.running := by
  cases handles <;> exact ⟨rfl, rfl, rfl⟩

theorem step_caller [NeZero n] (he : e.worker = none) (hs : r.step e = some r') :
    r'.worker = r.worker ∧ r'.resumed = r.resumed ∧ (r.running = false → r'.running = false) := by
  cases e with
  | schedule t handle threadId =>
      simp only [step] at hs
      split at hs <;> cases hs
      exact ⟨rfl, rfl, id⟩
  | scheduleBatch t handles =>
      simp only [step] at hs
      split at hs <;> cases hs
      obtain ⟨hworker, hresumed, hrunning⟩ := enterBatch_worker r t handles
      exact ⟨hworker, hresumed, hrunning.trans⟩
  | choose t =>
      simp only [step] at hs
      split at hs
      · split at hs <;> cases hs <;> exact ⟨rfl, rfl, id⟩
      · cases hs
  | scan t =>
      simp only [step] at hs
      split at hs
      · split at hs
        · split at hs <;> cases hs <;> exact ⟨rfl, rfl, id⟩
        · cases hs
          exact ⟨rfl, rfl, id⟩
      · cases hs
  | push t =>
      simp only [step] at hs
      split at hs
      · next handle target rest _ =>
          cases hs
          obtain ⟨hworker, hresumed, hrunning⟩ := enterBatch_worker
            { r.setQueue target ((r.localQueues target).push handle) with passed := r.passed ++ [handle] } t rest
          exact ⟨hworker, hresumed, hrunning.trans⟩
      · cases hs
  | stop =>
      cases hs
      exact ⟨rfl, rfl, fun _ => rfl⟩
  | _ => cases he

/-- The worker `v` goes on to the phase `p`, and nothing else changes for the workers. -/
theorem stops_setWorker {q : SchedulerRun κ n m} {p : WorkerPhase κ} (he : e.worker = some v) (hrun : q.running = false)
    (hworker : q.worker = r.worker) (hsteps : p.stepsToEnd n < (r.worker v).stepsToEnd n)
    (hkeeps : p.toResume ≤ (r.worker v).toResume)
    (hresumes : e.resumes v = true → p.toResume < (r.worker v).toResume) : Stops r (q.setWorker v p) e where
  running := hrun
  others w hw := by
    have hwv : w ≠ v := fun heq => hw (heq ▸ he)
    simp only [SchedulerRun.setWorker, Function.update_of_ne hwv, hworker]
  steps w hw := by
    cases he.symm.trans hw
    simpa [SchedulerRun.setWorker] using hsteps
  resumes w hw := by
    cases he.symm.trans (worker_of_resumes hw)
    simpa [SchedulerRun.setWorker] using hresumes hw
  keeps w := by
    by_cases hwv : w = v
    · subst hwv
      simpa [SchedulerRun.setWorker] using hkeeps
    · simp only [SchedulerRun.setWorker, Function.update_of_ne hwv, hworker, Nat.le_refl]
  resumed hnone := by
    cases hnone.symm.trans he

theorem step_stops [NeZero n] (hrun : r.running = false) (hs : r.step e = some r') : Stops r r' e := by
  cases he : e.worker with
  | none =>
      obtain ⟨hworker, hresumed, hrunning⟩ := step_caller he hs
      refine ⟨hrunning hrun, fun w _ => congrFun hworker w, fun w hw => ?_, fun w hw => ?_, fun w => ?_, fun _ => hresumed⟩
      · cases he.symm.trans hw
      · cases he.symm.trans (worker_of_resumes hw)
      · rw [hworker]
  | some v =>
      cases e with
      | pop w =>
          cases he
          simp only [step] at hs
          split at hs
          · next hw =>
              simp only [hrun, Bool.false_eq_true, if_false, Option.some.injEq] at hs
              subst hs
              refine stops_setWorker rfl hrun rfl ?_ (Nat.zero_le _) (fun h => by cases h)
              rw [hw]
              exact Nat.zero_lt_one
          · cases hs
      | steal w =>
          cases he
          simp only [step] at hs
          split at hs
          · next i hw =>
              have hnext {q : SchedulerRun κ n m} {p : WorkerPhase κ} (hq : q.running = false) (hqw : q.worker = r.worker)
                  (hp : p.stepsToEnd n < n + 1 - i + 3) (hres : p.toResume ≤ 1) : Stops r (q.setWorker v p) (.steal v) := by
                refine stops_setWorker rfl hq hqw ?_ ?_ (fun h => by cases h)
                · rw [hw]
                  exact hp
                · rw [hw]
                  exact hres
              split at hs
              · next hi =>
                  have hlt : n + 1 - (i + 1) + 3 < n + 1 - i + 3 := by omega
                  split at hs
                  · cases hs
                    exact hnext hrun rfl hlt le_rfl
                  · split at hs
                    · next task q _ =>
                        cases hs
                        have hheld : 3 < n + 1 - i + 3 := by omega
                        exact hnext (q := r.setQueue ⟨i, hi⟩ q) hrun rfl hheld le_rfl
                    · cases hs
                      exact hnext hrun rfl hlt le_rfl
              · cases hs
                have hwait : 2 < n + 1 - i + 3 := by omega
                exact hnext hrun rfl hwait (Nat.zero_le _)
          · cases hs
      | resume w =>
          cases he
          simp only [step] at hs
          split at hs
          · next task hw =>
              cases hs
              refine stops_setWorker (q := { r with resumed := r.resumed ++ [task] }) rfl hrun rfl ?_ (Nat.zero_le _) fun _ => ?_
              · rw [hw]
                exact Nat.lt_succ_self 2
              · rw [hw]
                exact Nat.zero_lt_one
          · cases hs
      | suspended w =>
          cases he
          simp only [step] at hs
          split at hs
          · next task hw =>
              cases hs
              refine stops_setWorker rfl hrun rfl ?_ (Nat.zero_le _) (fun h => by cases h)
              rw [hw]
              exact Nat.lt_succ_self 1
          · cases hs
      | wake w =>
          cases he
          simp only [step] at hs
          split at hs
          · next hw =>
              cases hs
              refine stops_setWorker rfl hrun rfl ?_ (Nat.zero_le _) (fun h => by cases h)
              rw [hw]
              exact Nat.lt_succ_self 1
          · cases hs
      | _ => cases he

theorem run_stops [NeZero n] {es : List (SchedulerEvent κ n m)} (hrun : r.running = false)
    (h : run step r es = some r') (w : Fin n) :
    r'.running = false ∧
      (r'.worker w).stepsToEnd n + es.countP (fun e => e.worker = some w) ≤ (r.worker w).stepsToEnd n ∧
      (r'.worker w).toResume + es.countP (SchedulerEvent.resumes w) ≤ (r.worker w).toResume := by
  induction es generalizing r with
  | nil =>
      rw [run_nil] at h
      subst h
      exact ⟨hrun, le_rfl, le_rfl⟩
  | cons e es ih =>
      obtain ⟨u, hu, hrest⟩ := run_cons.mp h
      have hstops := step_stops hrun hu
      obtain ⟨hrun', hsteps, hresumes⟩ := ih hstops.running hrest
      refine ⟨hrun', ?_, ?_⟩
      · by_cases he : e.worker = some w
        · have hlt := hstops.steps w he
          rw [List.countP_cons_of_pos (by simpa using he)]
          omega
        · rw [hstops.others w he] at hsteps
          rw [List.countP_cons_of_neg (by simpa using he)]
          exact hsteps
      · by_cases he : e.resumes w = true
        · have hlt := hstops.resumes w he
          rw [List.countP_cons_of_pos he]
          omega
        · have hle := hstops.keeps w
          rw [List.countP_cons_of_neg he]
          omega

/-- When all workers have ended nothing is resumed any more. -/
theorem run_ended [NeZero n] {es : List (SchedulerEvent κ n m)} (hrun : r.running = false)
    (hended : ∀ w, r.worker w = .ended) (h : run step r es = some r') : r'.resumed = r.resumed := by
  induction es generalizing r with
  | nil =>
      rw [run_nil] at h
      rw [h]
  | cons e es ih =>
      obtain ⟨u, hu, hrest⟩ := run_cons.mp h
      have hstops := step_stops hrun hu
      have hnone : e.worker = none := by
        cases he : e.worker with
        | none => rfl
        | some w =>
            have hlt := hstops.steps w he
            rw [hended w] at hlt
            exact absurd hlt (Nat.not_lt_zero _)
      have hworkers : ∀ w, u.worker w = .ended := fun w => by
        rw [hstops.others w (by simp [hnone]), hended w]
      exact (ih hstops.running hworkers hrest).trans (hstops.resumed hnone)

/-- Once the scheduler is stopped, each worker resumes at most one more coroutine and ends within so many steps of its
own, whatever is still scheduled. What was scheduled and not resumed then stands in the queues and is never resumed. -/
theorem scheduler_stops (κ : Type) (count m : Nat) {before es : List (SchedulerEvent κ (threadCount count) m)}
    {r r' : SchedulerRun κ (threadCount count) m} (hbefore : run step {} before = some r) (hstopped : r.running = false)
    (h : run step r es = some r') :
    (∀ w, es.countP (SchedulerEvent.resumes w) ≤ 1) ∧
      (∀ w, threadCount count + 4 ≤ es.countP (fun e => e.worker = some w) → r'.worker w = .ended) ∧
      ((∀ w, r'.worker w = .ended) →
        (r'.passed : Multiset κ) = r'.resumed + total WorkStealingQueue.tasks r'.localQueues ∧
          ∀ later r'', run step r' later = some r'' → r''.resumed = r'.resumed) := by
  refine ⟨fun w => ?_, fun w hsteps => ?_, fun hended => ⟨?_, fun later r'' hlater => ?_⟩⟩
  · have hresumes := (run_stops hstopped h w).2.2
    have hone := (r.worker w).toResume_le
    omega
  · have hleft := (run_stops hstopped h w).2.1
    have hbound := (r.worker w).stepsToEnd_le (threadCount count)
    exact WorkerPhase.ended_of_stepsToEnd (n := threadCount count) (by omega)
  · have hconserved := run_inv (fun _ _ _ => step_conserved) conserved_start (run_append hbefore h)
    have hheld : total held r'.worker = 0 := by
      apply Finset.sum_eq_zero
      intro w _
      rw [hended w]
      rfl
    rw [hconserved.passed_eq, hheld, add_zero]
  · exact run_ended (run_stops hstopped h 0).1 hended hlater

def first : Fin (threadCount 2) := ⟨0, Nat.two_pos⟩

def stoppedBetween : List (SchedulerEvent Nat (threadCount 2) 1) := scheduledTwo ++ [.pop first, .stop]

def lastSteps : List (SchedulerEvent Nat (threadCount 2) 1) :=
  [.resume first, .suspended first, .pop second, .pop first]

theorem scheduler_stops_between :
    ∃ r r', run step {} stoppedBetween = some r ∧ run step r lastSteps = some r' ∧ r'.resumed = [8] ∧
      (r'.passed : Multiset Nat) = r'.resumed + total WorkStealingQueue.tasks r'.localQueues ∧
      lastSteps.countP (SchedulerEvent.resumes first) ≤ 1 := by
  obtain ⟨r', hr'⟩ := Option.isSome_iff_exists.mp
    (by decide +kernel : (run step {} (stoppedBetween ++ lastSteps)).isSome = true)
  obtain ⟨r, hr, hrest⟩ := run_split hr'
  have hstopped : run step {} stoppedBetween = some r → r.running = false := by
    rintro h
    cases h
    rfl
  have hended : run step {} (stoppedBetween ++ lastSteps) = some r' →
      r'.resumed = [8] ∧ ∀ w : Fin (threadCount 2), r'.worker w = .ended := by
    rintro h
    cases h
    exact ⟨rfl, Fin.forall_fin_two.mpr ⟨rfl, rfl⟩⟩
  obtain ⟨hone, -, hleft⟩ := scheduler_stops Nat 2 1 hr (hstopped hr) hrest
  exact ⟨r, r', hr, hrest, (hended hr').1, (hleft (hended hr').2).1, hone first⟩

end SchedulerRun

end CoroRpc.Coro

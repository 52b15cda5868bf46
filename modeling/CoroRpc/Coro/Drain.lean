import CoroRpc.Coro.Scheduler

namespace CoroRpc.Coro

open Shares Trace

variable {κ : Type} {n m : Nat}

def SchedulerEvent.worker : SchedulerEvent κ n m → Option (Fin n)
  | .pop w | .steal w | .resume w | .suspended w | .wake w => some w
  | _ => none

namespace SchedulerRun

def queued (r : SchedulerRun κ n m) : Nat := total WorkStealingQueue.size r.localQueues

def Drained (r : SchedulerRun κ n m) : Prop := ∀ i, (r.localQueues i).queue = []

def Swept (r : SchedulerRun κ n m) (w : Fin n) (i : Nat) : Prop :=
  (r.localQueues w).queue = [] ∧ ∀ j : Fin n, j < i → (r.localQueues j).queue = []

instance (r : SchedulerRun κ n m) (w : Fin n) (i : Nat) : Decidable (r.Swept w i) :=
  inferInstanceAs (Decidable (_ ∧ ∀ _ : Fin n, _ → _))

def stepsLeft (r : SchedulerRun κ n m) (w : Fin n) : Nat :=
  match r.worker w with
  | .top => n + 2
  | .stealing i => if r.Swept w i then n + 1 - i else n + 1 - i + (n + 4)
  | .holding _ => n + 4
  | .resuming _ | .waiting => n + 3
  | .ended => 0

def rank (r : SchedulerRun κ n m) (w : Fin n) : Nat := (n + 4) * r.queued + r.stepsLeft w

variable {r r' : SchedulerRun κ n m} {v w : Fin n}

theorem stepsLeft_le (r : SchedulerRun κ n m) (w : Fin n) : r.stepsLeft w < 2 * (n + 4) := by
  rw [stepsLeft]
  split
  · omega
  · split <;> omega
  · omega
  · omega
  · omega
  · omega

structure Takes (r r' : SchedulerRun κ n m) : Prop where
  queued_le : r'.queued ≤ r.queued
  empty : ∀ i, (r.localQueues i).queue = [] → (r'.localQueues i).queue = []

theorem Takes.setWorker (r : SchedulerRun κ n m) (w : Fin n) (p : WorkerPhase κ) : Takes r (r.setWorker w p) :=
  ⟨Nat.le_refl _, fun _ h => h⟩

theorem Takes.rank_le (h : Takes r r') (hw : r'.worker w = r.worker w) : r'.rank w ≤ r.rank w := by
  have hsteps : r'.stepsLeft w ≤ r.stepsLeft w := by
    rw [stepsLeft, stepsLeft, hw]
    cases r.worker w with
    | stealing i =>
        by_cases hs : r.Swept w i
        · have hs' : r'.Swept w i := ⟨h.empty w hs.1, fun j hj => h.empty j (hs.2 j hj)⟩
          simp only [hs, hs', if_true, Nat.le_refl]
        · simp only [hs, if_false]
          split <;> omega
    | _ => exact Nat.le_refl _
  have hq := Nat.mul_le_mul_left (n + 4) h.queued_le
  rw [rank, rank]
  omega

/-- A task is taken out of a queue. -/
theorem takes_setQueue {i : Fin n} {task : κ} {q : WorkStealingQueue κ}
    (hq : (r.localQueues i).tasks = q.tasks + {task}) (w : Fin n) (p : WorkerPhase κ) :
    Takes r ((r.setQueue i q).setWorker w p) ∧ ((r.setQueue i q).setWorker w p).queued + 1 = r.queued := by
  have hcard := congrArg Multiset.card hq
  simp only [WorkStealingQueue.tasks, Multiset.coe_card, Multiset.card_add, Multiset.card_singleton] at hcard
  have hloss : r.queued = total WorkStealingQueue.size (Function.update r.localQueues i q) + 1 := total_loss hcard
  refine ⟨⟨?_, fun j hj => ?_⟩, hloss.symm⟩
  · simp only [queued, SchedulerRun.setWorker, setQueue] at hloss ⊢
    omega
  · by_cases hji : j = i
    · subst hji
      rw [hj] at hcard
      simp at hcard
    · simp only [SchedulerRun.setWorker, setQueue, Function.update_of_ne hji]
      exact hj

structure Works (r r' : SchedulerRun κ n m) (v : Fin n) : Prop where
  running : r'.running = true
  takes : Takes r r'
  worker : ∀ w, w ≠ v → r'.worker w = r.worker w
  rank_lt : ¬r.Drained → r'.rank v < r.rank v

theorem works_setWorker {p : WorkerPhase κ} (hrun : r.running = true)
    (hlt : ¬r.Drained → (r.setWorker v p).stepsLeft v < r.stepsLeft v) : Works r (r.setWorker v p) v := by
  refine ⟨hrun, .setWorker r v p, fun w hw => Function.update_of_ne hw _ _, fun hd => ?_⟩
  exact Nat.add_lt_add_left (hlt hd) _

theorem works_take {i : Fin n} {task : κ} {q : WorkStealingQueue κ} (hrun : r.running = true)
    (hq : (r.localQueues i).tasks = q.tasks + {task}) (hpos : 0 < r.stepsLeft v) :
    Works r ((r.setQueue i q).setWorker v (.holding task)) v := by
  obtain ⟨htakes, hqueued⟩ := takes_setQueue hq v (.holding task)
  refine ⟨hrun, htakes, fun w hw => Function.update_of_ne hw _ _, fun _ => ?_⟩
  have hsteps : ((r.setQueue i q).setWorker v (.holding task)).stepsLeft v = n + 4 := by
    simp [stepsLeft, SchedulerRun.setWorker]
  rw [rank, rank, hsteps, ← hqueued, Nat.mul_succ]
  omega

theorem steal_eq_none {q : WorkStealingQueue κ} (h : q.steal = none) : q.queue = [] := by
  obtain ⟨queue⟩ := q
  cases queue with
  | nil => rfl
  | cons task queue => cases h

theorem pop_eq_none {q : WorkStealingQueue κ} (h : q.pop = none) : q.queue = [] := by
  rw [WorkStealingQueue.pop] at h
  split at h
  · next hlast => exact List.getLast?_eq_none_iff.mp hlast
  · cases h

theorem stepsLeft_stealing (r : SchedulerRun κ n m) (v : Fin n) (i : Nat) :
    (r.setWorker v (.stealing i)).stepsLeft v = if r.Swept v i then n + 1 - i else n + 1 - i + (n + 4) := by
  simp only [stepsLeft, SchedulerRun.setWorker, Function.update_self]
  rfl

theorem swept_succ {i : Nat} (h : r.Swept v i) (hi : ∀ j : Fin n, j = i → (r.localQueues j).queue = []) :
    r.Swept v (i + 1) := by
  refine ⟨h.1, fun j hj => ?_⟩
  obtain hlt | heq := Nat.lt_or_eq_of_le (Nat.le_of_lt_succ hj)
  · exact h.2 j hlt
  · exact hi j heq

theorem step_works [NeZero n] {e : SchedulerEvent κ n m} (hrun : r.running = true) (he : e.worker = some v)
    (hs : r.step e = some r') : Works r r' v := by
  cases e with
  | pop w =>
      cases he
      simp only [step] at hs
      split at hs
      · next hw =>
          simp only [hrun, if_true] at hs
          split at hs
          · next task q hq =>
              cases hs
              exact works_take hrun (WorkStealingQueue.tasks_pop hq) (by simp [stepsLeft, hw])
          · next hq =>
              cases hs
              refine works_setWorker hrun fun _ => ?_
              have hswept : r.Swept v 0 := ⟨pop_eq_none hq, fun j hj => absurd hj (Nat.not_lt_zero _)⟩
              rw [stepsLeft_stealing, if_pos hswept]
              simp only [stepsLeft, hw]
              omega
      · cases hs
  | steal w =>
      cases he
      simp only [step] at hs
      split at hs
      · next i hw =>
          have hleft : r.stepsLeft v = if r.Swept v i then n + 1 - i else n + 1 - i + (n + 4) := by
            rw [stepsLeft, hw]
          split at hs
          · next hi =>
              have hnext (hempty : r.Swept v i → r.Swept v (i + 1)) :
                  (r.setWorker v (.stealing (i + 1))).stepsLeft v < r.stepsLeft v := by
                rw [stepsLeft_stealing, hleft]
                by_cases hswept : r.Swept v i
                · rw [if_pos hswept, if_pos (hempty hswept)]
                  omega
                · rw [if_neg hswept]
                  split <;> omega
              split at hs
              · next hiv =>
                  cases hs
                  refine works_setWorker hrun fun _ => hnext fun hswept => swept_succ hswept fun j hj => ?_
                  rw [Fin.ext (hj.trans hiv)]
                  exact hswept.1
              · split at hs
                · next task q hq =>
                    cases hs
                    refine works_take hrun (WorkStealingQueue.tasks_steal hq) ?_
                    rw [hleft]
                    split <;> omega
                · next hq =>
                    cases hs
                    refine works_setWorker hrun fun _ => hnext fun hswept => swept_succ hswept fun j hj => ?_
                    rw [show j = ⟨i, hi⟩ from Fin.ext hj]
                    exact steal_eq_none hq
          · next hi =>
              cases hs
              refine works_setWorker hrun fun hd => ?_
              have hswept : ¬r.Swept v i := fun h => hd fun j => h.2 j (by omega)
              rw [hleft, if_neg hswept]
              simp only [stepsLeft, SchedulerRun.setWorker, Function.update_self]
              omega
      · cases hs
  | resume w =>
      cases he
      simp only [step] at hs
      split at hs
      · next task hw =>
          cases hs
          have hworks : Works { r with resumed := r.resumed ++ [task] }
              (SchedulerRun.setWorker { r with resumed := r.resumed ++ [task] } v (.resuming task)) v := by
            refine works_setWorker hrun fun _ => ?_
            simp [stepsLeft, SchedulerRun.setWorker, hw]
          exact ⟨hworks.running, ⟨hworks.takes.queued_le, hworks.takes.empty⟩, hworks.worker, hworks.rank_lt⟩
      · cases hs
  | suspended w =>
      cases he
      simp only [step] at hs
      split at hs
      · next hw =>
          cases hs
          refine works_setWorker hrun fun _ => ?_
          simp [stepsLeft, SchedulerRun.setWorker, hw]
      · cases hs
  | wake w =>
      cases he
      simp only [step] at hs
      split at hs
      · next hw =>
          cases hs
          refine works_setWorker hrun fun _ => ?_
          simp [stepsLeft, SchedulerRun.setWorker, hw]
      · cases hs
  | _ => cases he

/-- In a run of the workers alone a worker that goes on taking steps finds the queues empty in the end. -/
theorem run_works [NeZero n] {es : List (SchedulerEvent κ n m)} (hrun : r.running = true)
    (hworkers : ∀ e ∈ es, e.worker.isSome) (h : run step r es = some r') (w : Fin n) :
    (r.Drained → r'.Drained) ∧ (r'.Drained ∨ r'.rank w + es.countP (fun e => e.worker = some w) ≤ r.rank w) := by
  induction es generalizing r with
  | nil =>
      rw [run_nil] at h
      subst h
      exact ⟨id, .inr (Nat.le_refl _)⟩
  | cons e es ih =>
      obtain ⟨u, hu, hrest⟩ := run_cons.mp h
      obtain ⟨v, hv⟩ := Option.isSome_iff_exists.mp (hworkers e List.mem_cons_self)
      have hworks := step_works hrun hv hu
      obtain ⟨hkeeps, hrank⟩ := ih hworks.running (fun e he => hworkers e (List.mem_cons_of_mem _ he)) hrest
      have hdrained (hd : r.Drained) : r'.Drained := hkeeps fun i => hworks.takes.empty i (hd i)
      refine ⟨hdrained, ?_⟩
      by_cases hd : r.Drained
      · exact .inl (hdrained hd)
      · obtain hd' | hrank := hrank
        · exact .inl hd'
        · right
          by_cases hvw : v = w
          · subst hvw
            have hlt := hworks.rank_lt hd
            rw [List.countP_cons_of_pos (by simpa using hv)]
            omega
          · have hle := hworks.takes.rank_le (hworks.worker w (Ne.symm hvw))
            rw [List.countP_cons_of_neg (by simp [hv, hvw])]
            omega

/-- When nobody schedules any more, a single worker that takes steps enough empties all the queues, whatever the
others do or wherever they are stuck; what was scheduled has then been resumed, but for the handles that a worker
has taken and not resumed yet. -/
theorem queues_drained (κ : Type) (count m : Nat) {before es : List (SchedulerEvent κ (threadCount count) m)}
    {r r' : SchedulerRun κ (threadCount count) m} (hbefore : run step {} before = some r) (hrun : r.running = true)
    (hworkers : ∀ e ∈ es, e.worker.isSome) (h : run step r es = some r') (w : Fin (threadCount count))
    (hsteps : (threadCount count + 4) * (r.queued + 2) ≤ es.countP fun e => e.worker = some w) :
    r'.Drained ∧ (r'.passed : Multiset κ) = r'.resumed + total held r'.worker := by
  have hdrained : r'.Drained := by
    obtain hd | hrank := (run_works hrun hworkers h w).2
    · exact hd
    · have hleft := r.stepsLeft_le w
      rw [Nat.mul_add] at hsteps
      rw [rank, rank] at hrank
      omega
  refine ⟨hdrained, ?_⟩
  have hconserved := run_inv (fun _ _ _ => step_conserved) conserved_start (run_append hbefore h)
  have hempty : total WorkStealingQueue.tasks r'.localQueues = 0 := by
    apply Finset.sum_eq_zero
    intro i _
    rw [WorkStealingQueue.tasks, hdrained i, Multiset.coe_nil]
  rw [hconserved.passed_eq, hempty, add_zero]

def client : Fin 1 := ⟨0, Nat.one_pos⟩

def second : Fin (threadCount 2) := ⟨1, Nat.one_lt_two⟩

def scheduledTwo : List (SchedulerEvent Nat (threadCount 2) 1) :=
  let schedule := fun task => [.schedule client task 0, .choose client, .push client]
  schedule 7 ++ schedule 8

def secondWorker : List (SchedulerEvent Nat (threadCount 2) 1) :=
  let turn := [.pop second, .steal second, .resume second, .suspended second]
  let idle := [.pop second, .steal second, .steal second, .steal second, .wake second]
  turn ++ turn ++ idle ++ idle ++ idle ++ idle

theorem queues_drained_secondWorker :
    ∃ r r', run step {} scheduledTwo = some r ∧ run step r secondWorker = some r' ∧ r'.Drained ∧
      (r'.passed : Multiset Nat) = r'.resumed + total held r'.worker := by
  obtain ⟨r', hr'⟩ := Option.isSome_iff_exists.mp
    (by decide +kernel : (run step {} (scheduledTwo ++ secondWorker)).isSome = true)
  obtain ⟨r, hr, hrest⟩ := run_split hr'
  have hstate : run step {} scheduledTwo = some r → r.running = true ∧ r.queued = 2 := by
    rintro h
    cases h
    decide +kernel
  exact ⟨r, r', hr, hrest, queues_drained Nat 2 1 hr (hstate hr).1 (by decide) hrest second
    (by rw [(hstate hr).2]; decide)⟩

end SchedulerRun

end CoroRpc.Coro

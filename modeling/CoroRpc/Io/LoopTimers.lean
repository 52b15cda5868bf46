import CoroRpc.Io.LoopReentry
import CoroRpc.Lib.Trace
import Mathlib.Data.Multiset.Filter

namespace CoroRpc.Io

open Trace

variable {κ : Type}

namespace LoopTasks

/-- Milliseconds and nanoseconds are counted in 64 bits with a sign, and taken to wrap around. -/
def expireTime (now : Int64) (delayMs : UInt64) : Int64 := now + delayMs.toInt64 * 1000000

-- the time is read before the lock is taken
def setTimer (s : LoopTasks κ) (now : Int64) (delayMs : UInt64) (callback : κ) : UInt64 × LoopTasks κ :=
  (s.nextTimerId, (LoopOp.locked s (.setTimer (expireTime now delayMs) callback)).1)

def cancelTimer (s : LoopTasks κ) (timerId : UInt64) : Bool × LoopTasks κ :=
  (decide (timerId ∈ s.timerMap), (LoopOp.locked s (.cancelTimer timerId)).1)

def drainTimers (now : Int64) : Nat → LoopTasks κ → List κ × LoopTasks κ
  | 0, s => ([], s)
  | n + 1, s =>
      match LoopDrain.next s (.timers now) with
      | (s, .inl (callback, _)) =>
          let r := drainTimers now n s
          (callback :: r.1, r.2)
      | (s, .inr _) => ([], s)

def processTimers (s : LoopTasks κ) (now : Int64) : List κ × LoopTasks κ := drainTimers now (s.timers.length + 1) s

end LoopTasks

inductive TimerAnswer (κ : Type)
  | cancelled (answer : Bool)
  | fired (callbacks : Multiset κ)

-- The timers of an `EventLoop` beside those that are set, have not fired and are not cancelled, and what the
-- calls answered beside what they should.
structure LoopTimers (κ : Type) where
  loop : LoopTasks κ := {}
  clock : Int64 := .minValue
  answers : List (TimerAnswer κ) := []
  pending : Multiset (TimerHandle κ) := 0
  expected : List (TimerAnswer κ) := []

inductive LoopTimerEvent (κ : Type)
  | setTimer (now : Int64) (delayMs : UInt64) (callback : κ)
  | cancelTimer (timerId : UInt64)
  | processTimers (now : Int64)

namespace LoopTimers

def step (s : LoopTimers κ) : LoopTimerEvent κ → Option (LoopTimers κ)
  | .setTimer now delayMs callback =>
      if s.clock ≤ now then
        let r := s.loop.setTimer now delayMs callback
        some
          { s with
            loop := r.2
            clock := now
            pending := ⟨r.1, LoopTasks.expireTime now delayMs, callback, false⟩ ::ₘ s.pending }
      else none
  | .cancelTimer timerId =>
      let r := s.loop.cancelTimer timerId
      some
        { s with
          loop := r.2
          answers := s.answers ++ [.cancelled r.1]
          pending := s.pending.filter fun t => t.id ≠ timerId
          expected := s.expected ++ [.cancelled (decide (timerId ∈ s.pending.map TimerHandle.id))] }
  | .processTimers now =>
      if s.clock ≤ now then
        let r := s.loop.processTimers now
        some
          { loop := r.2
            clock := now
            answers := s.answers ++ [.fired r.1]
            pending := s.pending.filter fun t => ¬t.expireTime ≤ now
            expected := s.expected ++
              [.fired ((s.pending.filter fun t => t.expireTime ≤ now).map TimerHandle.callback)] }
      else none

def Agrees (s : LoopTimers κ) : Prop := s.answers = s.expected

/-- No timer that is still to fire is cancelled. -/
def Idle (s : LoopTimers κ) : LoopTimerEvent κ → Prop
  | .cancelTimer timerId => timerId ∉ s.pending.map TimerHandle.id
  | _ => True

structure Unmapped (s : LoopTimers κ) : Prop where
  timerMap : s.loop.timerMap = []
  uncancelled : ∀ t ∈ s.loop.timers, t.cancelled = false
  sorted : s.loop.timers.Pairwise fun a b => a.expireTime ≤ b.expireTime
  pending : s.Agrees → s.pending = s.loop.timers

end LoopTimers

namespace LoopTasks

variable {s : LoopTasks κ}

theorem next_timers_nil (hs : s.timers = []) (now : Int64) :
    LoopDrain.next s (.timers now) = (s, .inr (some .takeTasks)) := by
  simp only [LoopDrain.next, hs, List.dropWhile_nil]
  rw [← hs]

theorem next_timers_cons {t : TimerHandle κ} {rest : List (TimerHandle κ)} (hs : s.timers = t :: rest)
    (ht : t.cancelled = false) (now : Int64) :
    LoopDrain.next s (.timers now) =
      if t.expireTime ≤ now then
        ({ s with timers := rest, timerMap := s.timerMap.erase t.id }, .inl (t.callback, .timers now))
      else (s, .inr (some .takeTasks)) := by
  have hdrop : s.timers.dropWhile (fun t => t.cancelled && t.expireTime ≤ now) = t :: rest := by
    rw [hs, List.dropWhile_cons_of_neg (by simp [ht])]
  simp only [LoopDrain.next, hdrop]
  rw [← hs]

/-- Of the timers that are in the order of their times and not cancelled, those that are due are called
and taken out. -/
theorem drainTimers_eq (now : Int64) (n : Nat) (hn : s.timers.length < n) (hmap : s.timerMap = [])
    (huncancelled : ∀ t ∈ s.timers, t.cancelled = false)
    (hsorted : s.timers.Pairwise fun a b => a.expireTime ≤ b.expireTime) :
    s.drainTimers now n =
      ((s.timers.filter fun t => t.expireTime ≤ now).map TimerHandle.callback,
        { s with timers := s.timers.filter fun t => ¬t.expireTime ≤ now }) := by
  induction n generalizing s with
  | zero => exact absurd hn (Nat.not_lt_zero _)
  | succ n ih =>
      rw [drainTimers]
      cases hs : s.timers with
      | nil =>
          rw [next_timers_nil hs]
          simp only [List.filter_nil, List.map_nil]
          rw [← hs]
      | cons t rest =>
          rw [hs] at hn huncancelled hsorted
          obtain ⟨ht, hrest⟩ := List.forall_mem_cons.mp huncancelled
          obtain ⟨hfirst, hsorted⟩ := List.pairwise_cons.mp hsorted
          rw [next_timers_cons hs ht]
          by_cases hdue : t.expireTime ≤ now
          · have herase : s.timerMap.erase t.id = s.timerMap := by
              rw [hmap]
              rfl
            rw [if_pos hdue, herase]
            have hrec := ih (s := { s with timers := rest }) (Nat.lt_of_succ_lt_succ hn) hmap hrest hsorted
            rw [List.filter_cons_of_pos (by simpa using hdue), List.filter_cons_of_neg (by simpa using hdue)]
            simp only [hrec]
            rfl
          · rw [if_neg hdue]
            have hlater : ∀ u ∈ t :: rest, ¬u.expireTime ≤ now := by
              refine List.forall_mem_cons.mpr ⟨hdue, fun u hu hle => hdue (Int64.le_trans (hfirst u hu) hle)⟩
            have hnone : (t :: rest).filter (fun u => u.expireTime ≤ now) = [] :=
              List.filter_eq_nil_iff.mpr fun u hu => by simpa using hlater u hu
            have hall : (t :: rest).filter (fun u => ¬u.expireTime ≤ now) = t :: rest :=
              List.filter_eq_self.mpr fun u hu => by simpa using hlater u hu
            rw [hnone, hall, ← hs]
            rfl

theorem processTimers_eq (now : Int64) (hmap : s.timerMap = [])
    (huncancelled : ∀ t ∈ s.timers, t.cancelled = false)
    (hsorted : s.timers.Pairwise fun a b => a.expireTime ≤ b.expireTime) :
    s.processTimers now =
      ((s.timers.filter fun t => t.expireTime ≤ now).map TimerHandle.callback,
        { s with timers := s.timers.filter fun t => ¬t.expireTime ≤ now }) :=
  drainTimers_eq now _ (Nat.lt_succ_self _) hmap huncancelled hsorted

theorem cancelTimer_eq (hmap : s.timerMap = []) (timerId : UInt64) : s.cancelTimer timerId = (false, s) := by
  have hnot : timerId ∉ s.timerMap := by
    rw [hmap]
    exact List.not_mem_nil
  simp only [cancelTimer, LoopOp.locked, if_neg hnot]
  rw [decide_eq_false hnot]

end LoopTasks

namespace LoopTimers

variable {s t : LoopTimers κ}

theorem Unmapped.setTimer {now : Int64} {delayMs : UInt64} {callback : κ} (h : s.Unmapped)
    (hs : s.step (.setTimer now delayMs callback) = some t) : t.Unmapped := by
  simp only [step] at hs
  split at hs
  · cases hs
    have hperm := s.loop.timers.perm_orderedInsert (fun a b : TimerHandle κ => a.expireTime ≤ b.expireTime)
      ⟨s.loop.nextTimerId, LoopTasks.expireTime now delayMs, callback, false⟩
    refine ⟨h.timerMap, fun u hu => ?_, ?_, fun hagrees => ?_⟩
    · rcases List.mem_cons.mp (hperm.mem_iff.mp hu) with rfl | hu
      · rfl
      · exact h.uncancelled u hu
    · exact h.sorted.orderedInsert _ _
    · show _ ::ₘ s.pending = _
      rw [h.pending hagrees]
      exact (Multiset.coe_eq_coe.mpr hperm).symm
  · cases hs

theorem agrees_append {as bs : List (TimerAnswer κ)} {a b : TimerAnswer κ} :
    as ++ [a] = bs ++ [b] ↔ as = bs ∧ a = b := by
  constructor
  · intro h
    obtain ⟨hinit, hlast⟩ := List.append_inj' h rfl
    exact ⟨hinit, List.singleton_inj.mp hlast⟩
  · rintro ⟨rfl, rfl⟩
    rfl

theorem agrees_cancelTimer {timerId : UInt64} (h : s.Unmapped) (hs : s.step (.cancelTimer timerId) = some t) :
    t.Agrees ↔ s.Agrees ∧ s.Idle (.cancelTimer timerId) := by
  simp only [step, LoopTasks.cancelTimer_eq h.timerMap] at hs
  cases hs
  rw [Agrees, agrees_append, TimerAnswer.cancelled.injEq, @eq_comm _ false,
    decide_eq_false_iff_not]
  rfl

theorem Unmapped.cancelTimer {timerId : UInt64} (h : s.Unmapped) (hs : s.step (.cancelTimer timerId) = some t) :
    t.Unmapped := by
  have hagrees := agrees_cancelTimer h hs
  simp only [step, LoopTasks.cancelTimer_eq h.timerMap] at hs
  cases hs
  refine ⟨h.timerMap, h.uncancelled, h.sorted, fun ht => ?_⟩
  obtain ⟨hs, hidle⟩ := hagrees.mp ht
  show s.pending.filter _ = _
  rw [← h.pending hs]
  apply Multiset.filter_eq_self.mpr
  rintro u hu rfl
  exact hidle (Multiset.mem_map_of_mem _ hu)

theorem agrees_processTimers {now : Int64} (h : s.Unmapped) (hs : s.step (.processTimers now) = some t) :
    t.Agrees ↔ s.Agrees := by
  simp only [step, LoopTasks.processTimers_eq now h.timerMap h.uncancelled h.sorted] at hs
  split at hs
  · cases hs
    rw [Agrees, agrees_append]
    refine and_iff_left_of_imp fun hagrees => ?_
    rw [h.pending hagrees, Multiset.filter_coe, Multiset.map_coe]
  · cases hs

theorem Unmapped.processTimers {now : Int64} (h : s.Unmapped) (hs : s.step (.processTimers now) = some t) :
    t.Unmapped := by
  have hagrees := agrees_processTimers h hs
  simp only [step, LoopTasks.processTimers_eq now h.timerMap h.uncancelled h.sorted] at hs
  split at hs
  · cases hs
    refine ⟨h.timerMap, fun u hu => h.uncancelled u (List.mem_of_mem_filter hu), h.sorted.filter _, fun ht => ?_⟩
    show s.pending.filter _ = _
    rw [h.pending (hagrees.mp ht), Multiset.filter_coe]
  · cases hs

theorem Unmapped.step {e : LoopTimerEvent κ} (h : s.Unmapped) (hs : s.step e = some t) : t.Unmapped := by
  cases e with
  | setTimer now delayMs callback => exact h.setTimer hs
  | cancelTimer timerId => exact h.cancelTimer hs
  | processTimers now => exact h.processTimers hs

theorem agrees_step {e : LoopTimerEvent κ} (h : s.Unmapped) (hP : s.Agrees) (hs : s.step e = some t) :
    t.Agrees ↔ s.Idle e := by
  cases e with
  | setTimer now delayMs callback =>
      simp only [LoopTimers.step] at hs
      split at hs
      · cases hs
        exact iff_of_true hP trivial
      · cases hs
  | cancelTimer timerId =>
      rw [agrees_cancelTimer h hs]
      exact and_iff_right hP
  | processTimers now => exact iff_of_true ((agrees_processTimers h hs).mpr hP) trivial

theorem start_unmapped : ({} : LoopTimers κ).Unmapped where
  timerMap := rfl
  uncancelled _ := nofun
  sorted := .nil
  pending _ := rfl

end LoopTimers

/-- Along a run `cancel_timer` answers and `process_timers` calls what they should exactly when no timer
is cancelled that is set and has not fired. -/
theorem loop_timers_iff (evs : List (LoopTimerEvent κ)) (s : LoopTimers κ)
    (h : run LoopTimers.step {} evs = some s) :
    Throughout LoopTimers.step LoopTimers.Agrees ({} : LoopTimers κ) evs ↔
      EachStep LoopTimers.step LoopTimers.Idle ({} : LoopTimers κ) evs :=
  throughout_iff (fun _ _ _ h hs => LoopTimers.Unmapped.step h hs)
    (fun _ _ _ h hP hs => LoopTimers.agrees_step h hP hs) LoopTimers.start_unmapped rfl h

/-- Two timers, one of them due, and a cancel of the one that has fired. -/
theorem loop_timers_fired :
    ∃ s : LoopTimers Bool, run LoopTimers.step {}
        [.setTimer 0 1 false, .setTimer 0 5 true, .processTimers 2000000, .cancelTimer 0] = some s ∧
      s.answers = [.fired {false}, .cancelled false] ∧ s.Agrees := by
  have hC : EachStep LoopTimers.step LoopTimers.Idle ({} : LoopTimers Bool)
      [.setTimer 0 1 false, .setTimer 0 5 true, .processTimers 2000000, .cancelTimer 0] := by
    iterate 3 refine (eachStep_cons rfl).mpr ⟨trivial, ?_⟩
    refine (eachStep_cons rfl).mpr ⟨?_, eachStep_nil⟩
    show (0 : UInt64) ∉ ({1} : Multiset UInt64)
    decide
  exact ⟨_, rfl, rfl, (loop_timers_iff _ _ rfl).mpr hC _ _ List.prefix_rfl rfl⟩

/-- A timer is cancelled before it is due: the answer is `false`, and it fires. -/
theorem loop_timers_not_cancelled :
    ∃ s : LoopTimers Unit,
      run LoopTimers.step {} [.setTimer 0 1 (), .cancelTimer 0, .processTimers 2000000] = some s ∧
      s.answers = [.cancelled false, .fired {()}] ∧ s.expected = [.cancelled true, .fired 0] ∧ ¬s.Agrees := by
  refine ⟨_, rfl, rfl, rfl, fun h => ?_⟩
  cases List.head_eq_of_cons_eq h

end CoroRpc.Io

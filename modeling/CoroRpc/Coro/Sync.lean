import CoroRpc.Lib.Trace
import Mathlib.Logic.Function.Basic
import Mathlib.Data.Int.Order.Basic

namespace CoroRpc.Coro

open Trace

variable {κ : Type}

structure AsyncMutex (κ : Type) where
  locked : Bool := false
  waiters : List κ := []

namespace AsyncMutex

def awaitReady (m : AsyncMutex κ) : Bool := !m.locked

def awaitSuspend (m : AsyncMutex κ) (handle : κ) : Option κ × AsyncMutex κ :=
  if !m.locked then (some handle, { m with locked := true })
  else (none, { m with locked := true, waiters := m.waiters ++ [handle] })

def unlock (m : AsyncMutex κ) : Option κ × AsyncMutex κ :=
  match m.waiters with
  | [] => (none, { m with locked := false })
  | next :: waiters => (some next, { m with waiters })

end AsyncMutex

/-- Where a coroutine stands: not at the mutex, between `await_ready` and `await_suspend`, suspended, or between
the completion of its `lock` and its `unlock`. -/
inductive LockPhase
  | outside | suspending | waiting | inside
  deriving DecidableEq

structure MutexRun (κ : Type) where
  mutex : AsyncMutex κ := {}
  phase : κ → LockPhase := fun _ => .outside

inductive MutexEvent (κ : Type)
  | awaitReady (c : κ)
  | awaitSuspend (c : κ)
  | unlock (c : κ)

namespace MutexRun

variable [DecidableEq κ]

def enter (r : MutexRun κ) : Option κ → MutexRun κ
  | none => r
  | some c => { r with phase := Function.update r.phase c .inside }

def step (r : MutexRun κ) : MutexEvent κ → Option (MutexRun κ)
  | .awaitReady c =>
      if r.phase c = .outside then
        if r.mutex.awaitReady then some (r.enter (some c))
        else some { r with phase := Function.update r.phase c .suspending }
      else none
  | .awaitSuspend c =>
      if r.phase c = .suspending then
        let s := r.mutex.awaitSuspend c
        some (enter { r with mutex := s.2, phase := Function.update r.phase c .waiting } s.1)
      else none
  | .unlock c =>
      if r.phase c = .inside then
        let u := r.mutex.unlock
        some (enter { r with mutex := u.2, phase := Function.update r.phase c .outside } u.1)
      else none

def Exclusive (r : MutexRun κ) : Prop := ∀ c d, r.phase c = .inside → r.phase d = .inside → c = d

/-- A `lock` is called when nobody is between its own `lock` and `unlock`. -/
def Uncontended (r : MutexRun κ) : MutexEvent κ → Prop
  | .awaitReady _ => ∀ d, r.phase d ≠ .inside
  | _ => True

structure Open (r : MutexRun κ) : Prop where
  mutex : r.mutex = {}
  phase : ∀ c, r.phase c = .outside ∨ r.phase c = .inside

theorem Open.step_cases {r s : MutexRun κ} (h : r.Open) {e : MutexEvent κ} (hs : r.step e = some s) :
    (∃ c, e = .awaitReady c ∧ r.phase c = .outside ∧
      s = { r with phase := Function.update r.phase c .inside }) ∨
    (∃ c, e = .unlock c ∧ r.phase c = .inside ∧
      s = { r with phase := Function.update r.phase c .outside }) := by
  cases e with
  | awaitReady c =>
      simp only [step, AsyncMutex.awaitReady, h.mutex, Bool.not_false, if_true] at hs
      split at hs
      · rename_i hc
        exact .inl ⟨c, rfl, hc, (Option.some.inj hs).symm⟩
      · cases hs
  | awaitSuspend c =>
      rcases h.phase c with hc | hc <;> simp [step, hc] at hs
  | unlock c =>
      simp only [step, AsyncMutex.unlock, h.mutex] at hs
      split at hs
      · rename_i hc
        refine .inr ⟨c, rfl, hc, ?_⟩
        rw [← Option.some.inj hs, h.mutex]
        rfl
      · cases hs

theorem Open.step {r s : MutexRun κ} {e : MutexEvent κ} (h : r.Open) (hs : r.step e = some s) : s.Open := by
  obtain ⟨c, -, -, rfl⟩ | ⟨c, -, -, rfl⟩ := h.step_cases hs
  · refine ⟨h.mutex, fun d => ?_⟩
    by_cases hd : d = c
    · subst hd
      simp
    · simpa [hd] using h.phase d
  · refine ⟨h.mutex, fun d => ?_⟩
    by_cases hd : d = c
    · subst hd
      simp
    · simpa [hd] using h.phase d

theorem exclusive_step_iff {r s : MutexRun κ} {e : MutexEvent κ} (h : r.Open) (hx : r.Exclusive)
    (hs : r.step e = some s) : s.Exclusive ↔ r.Uncontended e := by
  obtain ⟨c, rfl, hc, rfl⟩ | ⟨c, rfl, hc, rfl⟩ := h.step_cases hs
  · constructor
    · intro hex d hd
      have hne : d ≠ c := by
        rintro rfl
        rw [hc] at hd
        cases hd
      exact hne (hex d c (by simpa [hne] using hd) (by simp))
    · intro hun d d' hd hd'
      have heq (x : κ) (hx : Function.update r.phase c .inside x = .inside) : x = c := by
        by_contra hne
        exact hun x (by simpa [hne] using hx)
      rw [heq d hd, heq d' hd']
  · refine iff_of_true (fun d d' hd hd' => ?_) trivial
    have hin (x : κ) (hx : Function.update r.phase c .outside x = .inside) : r.phase x = .inside := by
      by_cases hxc : x = c
      · subst hxc
        simp at hx
      · simpa [hxc] using hx
    exact hx d d' (hin d hd) (hin d' hd')

omit [DecidableEq κ] in
theorem open_start : Open ({} : MutexRun κ) := ⟨rfl, fun _ => .inl rfl⟩

omit [DecidableEq κ] in
theorem exclusive_start : Exclusive ({} : MutexRun κ) := by
  intro c d hc
  cases hc

end MutexRun

/-- `lock` keeps nobody out: there is at most one coroutine inside at every moment of a run
exactly when no `lock` of it is called while one is inside. -/
theorem lock_exclusive_iff [DecidableEq κ] (evs : List (MutexEvent κ)) (r : MutexRun κ)
    (h : run MutexRun.step {} evs = some r) :
    Throughout MutexRun.step MutexRun.Exclusive {} evs ↔ EachStep MutexRun.step MutexRun.Uncontended {} evs :=
  throughout_iff (I := MutexRun.Open) (fun _ _ _ ho hs => ho.step hs)
    (fun _ _ _ ho hx hs => MutexRun.exclusive_step_iff ho hx hs) MutexRun.open_start MutexRun.exclusive_start h

theorem lock_exclusive_in_turn :
    Throughout MutexRun.step MutexRun.Exclusive ({} : MutexRun Nat) [.awaitReady 0, .unlock 0, .awaitReady 1] := by
  refine (lock_exclusive_iff [.awaitReady 0, .unlock 0, .awaitReady 1] _ rfl).mpr ?_
  refine (eachStep_cons rfl).mpr ⟨fun d => by simp, (eachStep_cons rfl).mpr ⟨trivial, ?_⟩⟩
  refine (eachStep_cons rfl).mpr ⟨fun d => ?_, eachStep_nil⟩
  by_cases hd : d = 0 <;> simp [MutexRun.enter, AsyncMutex.unlock, hd]

/-- Two `lock` calls with no `unlock` between them both complete. -/
theorem lock_two_inside :
    ∃ r, run MutexRun.step ({} : MutexRun Nat) [.awaitReady 0, .awaitReady 1] = some r ∧ ¬r.Exclusive := by
  refine ⟨_, rfl, fun hx => ?_⟩
  exact absurd (hx 0 1 (by decide) (by decide)) (by decide)

structure AsyncSemaphore (κ : Type) where
  count : UInt64
  waiters : List κ := []

namespace AsyncSemaphore

def awaitReady (s : AsyncSemaphore κ) : Bool := 0 < s.count

def awaitSuspend (s : AsyncSemaphore κ) (handle : κ) : Option κ × AsyncSemaphore κ :=
  if 0 < s.count then (some handle, { s with count := s.count - 1 })
  else (none, { count := s.count - 1, waiters := s.waiters ++ [handle] })

def release (s : AsyncSemaphore κ) : Option κ × AsyncSemaphore κ :=
  match s.waiters with
  | [] => (none, { s with count := s.count + 1 })
  | next :: waiters => (some next, { s with waiters })

end AsyncSemaphore

inductive AcquirePhase
  | free | suspending | waiting
  deriving DecidableEq

-- `completed` and `released` count the acquires that have completed and the calls of `release`; `wrapped` is
-- set once `count_` was taken below zero.
structure SemaphoreRun (κ : Type) where
  semaphore : AsyncSemaphore κ
  phase : κ → AcquirePhase := fun _ => .free
  completed : Nat := 0
  released : Nat := 0
  wrapped : Bool := false

inductive SemaphoreEvent (κ : Type)
  | awaitReady (c : κ)
  | awaitSuspend (c : κ)
  | release

namespace SemaphoreRun

variable [DecidableEq κ]

def start (count : UInt64) : SemaphoreRun κ := { semaphore := { count } }

def complete (r : SemaphoreRun κ) : Option κ → SemaphoreRun κ
  | none => r
  | some c => { r with phase := Function.update r.phase c .free, completed := r.completed + 1 }

def step (r : SemaphoreRun κ) : SemaphoreEvent κ → Option (SemaphoreRun κ)
  | .awaitReady c =>
      if r.phase c = .free then
        if r.semaphore.awaitReady then some (r.complete (some c))
        else some { r with phase := Function.update r.phase c .suspending }
      else none
  | .awaitSuspend c =>
      if r.phase c = .suspending then
        let s := r.semaphore.awaitSuspend c
        some (complete
          { r with
            semaphore := s.2
            phase := Function.update r.phase c .waiting
            wrapped := r.wrapped || r.semaphore.count == 0 } s.1)
      else none
  | .release =>
      let s := r.semaphore.release
      some (complete { r with semaphore := s.2, released := r.released + 1 } s.1)

def outstanding (r : SemaphoreRun κ) : Int := r.completed - r.released

def Bounded (count : UInt64) (r : SemaphoreRun κ) : Prop :=
  r.outstanding ≤ count.toNat ∧ r.wrapped = false

/-- Both steps of `acquire` rely on a permit being left: `await_ready` when it finds the count
positive, and `await_suspend` always. -/
def PermitLeft (count : UInt64) (r : SemaphoreRun κ) : SemaphoreEvent κ → Prop
  | .awaitReady _ => 0 < r.semaphore.count → r.outstanding < count.toNat
  | .awaitSuspend _ => 0 < r.semaphore.count ∧ r.outstanding < count.toNat
  | .release => True

theorem bounded_step_iff {count : UInt64} {r s : SemaphoreRun κ} {e : SemaphoreEvent κ} (hb : r.Bounded count)
    (hs : r.step e = some s) : s.Bounded count ↔ r.PermitLeft count e := by
  obtain ⟨hle, hw⟩ := hb
  rw [outstanding] at hle
  cases e with
  | awaitReady c =>
      simp only [step, AsyncSemaphore.awaitReady, decide_eq_true_eq] at hs
      split at hs
      · split at hs
        · rename_i hpos
          cases hs
          simp only [Bounded, PermitLeft, complete, outstanding, hw, and_true, hpos, forall_const]
          omega
        · rename_i hpos
          cases hs
          simp only [Bounded, PermitLeft, outstanding, hw, and_true, hpos, false_imp_iff, iff_true]
          exact hle
      · cases hs
  | awaitSuspend c =>
      simp only [step, AsyncSemaphore.awaitSuspend] at hs
      split at hs
      · by_cases hpos : 0 < r.semaphore.count
        · have hne : r.semaphore.count ≠ 0 := by
            rintro hzero
            simp [hzero] at hpos
          simp only [hpos, if_true] at hs
          cases hs
          simp only [Bounded, PermitLeft, complete, outstanding, hw, hpos, true_and,
            Bool.false_or, beq_eq_false_iff_ne, ne_eq, hne, not_false_eq_true, and_true]
          omega
        · have hzero : r.semaphore.count = 0 := by
            rw [← UInt64.toNat_inj]
            simpa [UInt64.lt_iff_toNat_lt] using hpos
          simp only [hpos, if_false] at hs
          cases hs
          simp [Bounded, PermitLeft, complete, hzero]
      · cases hs
  | release =>
      refine iff_of_true ?_ trivial
      simp only [step, AsyncSemaphore.release] at hs
      split at hs
      · cases hs
        simp only [Bounded, complete, outstanding, hw, and_true]
        omega
      · cases hs
        simp only [Bounded, complete, outstanding, hw, and_true]
        omega

omit [DecidableEq κ] in
theorem bounded_start (count : UInt64) : Bounded count (start count : SemaphoreRun κ) := by
  simp [Bounded, start, outstanding]

end SemaphoreRun

/-- The permits that are out stay within the initial count, and the count does not wrap, at every
moment of a run exactly when each step of an `acquire` that relies on a permit finds one. -/
theorem acquire_bounded_iff [DecidableEq κ] (count : UInt64) (evs : List (SemaphoreEvent κ)) (r : SemaphoreRun κ)
    (h : run SemaphoreRun.step (.start count) evs = some r) :
    Throughout SemaphoreRun.step (SemaphoreRun.Bounded count) (.start count) evs ↔
      EachStep SemaphoreRun.step (SemaphoreRun.PermitLeft count) (.start count) evs :=
  throughout_iff (I := fun _ => True) (fun _ _ _ _ _ => trivial)
    (fun _ _ _ _ hb hs => SemaphoreRun.bounded_step_iff hb hs) trivial (SemaphoreRun.bounded_start count) h

theorem acquire_bounded_one_of_two :
    Throughout SemaphoreRun.step (SemaphoreRun.Bounded 2) (.start 2 : SemaphoreRun Nat)
      [.awaitReady 0, .release, .awaitReady 1] := by
  refine (acquire_bounded_iff 2 [.awaitReady 0, .release, .awaitReady 1] _ rfl).mpr ?_
  refine (eachStep_cons rfl).mpr ⟨fun _ => by decide, (eachStep_cons rfl).mpr ⟨trivial, ?_⟩⟩
  exact (eachStep_cons rfl).mpr ⟨fun _ => by decide, eachStep_nil⟩

/-- One permit lets two acquires through, and an acquire that finds no permit takes the count
below zero. -/
theorem acquire_two_of_one :
    (∃ r, run SemaphoreRun.step (.start 1 : SemaphoreRun Nat) [.awaitReady 0, .awaitReady 1] = some r ∧
      r.outstanding = 2) ∧
    ∃ r, run SemaphoreRun.step (.start 0 : SemaphoreRun Nat) [.awaitReady 0, .awaitSuspend 0] = some r ∧
      r.wrapped = true ∧ r.semaphore.count = 18446744073709551615 :=
  ⟨⟨_, rfl, rfl⟩, _, rfl, rfl, rfl⟩

end CoroRpc.Coro

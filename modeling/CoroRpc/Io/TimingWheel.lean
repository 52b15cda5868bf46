import CoroRpc.Lib.Trace
import Mathlib.Algebra.GroupWithZero.Nat
import Mathlib.Logic.Function.Basic

namespace CoroRpc.Io

variable {κ : Type} {slots : Nat}

structure TimerEntry (κ : Type) where
  id : UInt64
  expireTick : UInt64
  callback : κ
  deriving DecidableEq

structure TimingWheel (κ : Type) (slots : Nat) where
  tickMs : UInt64
  currentTick : UInt64 := 0
  nextId : UInt64 := 1
  wheels : Fin slots → List (TimerEntry κ) := fun _ => []
  timerSlot : UInt64 → Option (Fin slots) := fun _ => none

namespace TimingWheel

variable [NeZero slots]

def slotOf (slots : Nat) [NeZero slots] (tick : UInt64) : Fin slots := Fin.ofNat slots tick.toNat

def expireTick (w : TimingWheel κ slots) (delayMs : UInt64) : UInt64 :=
  -- the code traps where `tickMs` is zero
  let ticks := (delayMs + w.tickMs - 1) / w.tickMs
  w.currentTick + ticks - 1

def addTimer (w : TimingWheel κ slots) (delayMs : UInt64) (callback : κ) : UInt64 × TimingWheel κ slots :=
  let id := w.nextId
  let expireTick := w.expireTick delayMs
  let slot := slotOf slots expireTick
  (id,
    { w with
      nextId := w.nextId + 1
      wheels := Function.update w.wheels slot (w.wheels slot ++ [⟨id, expireTick, callback⟩])
      timerSlot := Function.update w.timerSlot id (some slot) })

def cancelTimer (w : TimingWheel κ slots) (id : UInt64) : Bool × TimingWheel κ slots :=
  match w.timerSlot id with
  | none => (false, w)
  | some slot =>
      (true,
        { w with
          wheels := Function.update w.wheels slot ((w.wheels slot).filter fun e => e.id ≠ id)
          timerSlot := Function.update w.timerSlot id none })

/-- The locked part of `tick`: the callbacks to run, and the wheel they find when they run. -/
def collect (w : TimingWheel κ slots) : List κ × TimingWheel κ slots :=
  let slot := slotOf slots w.currentTick
  let expired := (w.wheels slot).filter fun e => e.expireTick ≤ w.currentTick
  (expired.map TimerEntry.callback,
    { w with
      currentTick := w.currentTick + 1
      wheels := Function.update w.wheels slot ((w.wheels slot).filter fun e => ¬e.expireTick ≤ w.currentTick)
      timerSlot := expired.foldl (fun m e => Function.update m e.id none) w.timerSlot })

variable {w : TimingWheel κ slots}

theorem addTimer_wheels (delayMs : UInt64) (callback : κ) (i : Fin slots) :
    (w.addTimer delayMs callback).2.wheels i =
      w.wheels i ++ if i = slotOf slots (w.expireTick delayMs) then [⟨w.nextId, w.expireTick delayMs, callback⟩]
        else [] := by
  by_cases hi : i = slotOf slots (w.expireTick delayMs)
  · subst hi
    simp [addTimer]
  · simp [addTimer, hi]

omit [NeZero slots] in
theorem cancelTimer_wheels (id : UInt64) (i : Fin slots) :
    (w.cancelTimer id).2.wheels i = (w.wheels i).filter fun e => ¬(w.timerSlot id = some i ∧ e.id = id) := by
  rw [cancelTimer]
  cases hslot : w.timerSlot id with
  | none => simp
  | some j =>
      by_cases hi : j = i
      · subst hi
        simp
      · simp [hi, Function.update_of_ne (Ne.symm hi)]

theorem collect_wheels (i : Fin slots) :
    w.collect.2.wheels i =
      (w.wheels i).filter fun e => ¬(i = slotOf slots w.currentTick ∧ e.expireTick ≤ w.currentTick) := by
  by_cases hi : i = slotOf slots w.currentTick
  · subst hi
    simp [collect]
  · simp [collect, hi]

end TimingWheel

end CoroRpc.Io

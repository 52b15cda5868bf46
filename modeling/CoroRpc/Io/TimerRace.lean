import CoroRpc.Io.TimerFiring

namespace CoroRpc.Io

open TimingWheel Trace

variable {κ : Type} {slots : Nat} [NeZero slots]

namespace TimingWheel

def insert (w : TimingWheel κ slots) (e : TimerEntry κ) : TimingWheel κ slots :=
  let slot := slotOf slots e.expireTick
  { w with
    wheels := Function.update w.wheels slot (w.wheels slot ++ [e])
    timerSlot := Function.update w.timerSlot e.id (some slot) }

theorem addTimer_eq_insert (w : TimingWheel κ slots) (delayMs : UInt64) (callback : κ) :
    w.addTimer delayMs callback =
      (w.nextId, insert { w with nextId := w.nextId + 1 } ⟨w.nextId, w.expireTick delayMs, callback⟩) := rfl

end TimingWheel

-- A call of `add_timer` that waits for the mutex: its entry, the delay it was called with, `current_tick_` as
-- it read it, and the number of ticks there had been then.
structure RacingAdd (κ : Type) where
  entry : TimerEntry κ
  delayMs : UInt64
  hand : UInt64
  seen : Nat

structure WheelRace (κ : Type) (slots : Nat) where
  wheel : TimingWheel κ slots
  ticks : Nat := 0
  adding : List (RacingAdd κ) := []
  inserted : List (TimerEntry κ × UInt64) := []

inductive RaceEvent (κ : Type)
  | compute (delayMs : { d : UInt64 // 0 < d }) (callback : κ)
  | insert (i : Nat)
  | tick

namespace WheelRace

def start (κ : Type) (slots : Nat) (tickMs : UInt64) : WheelRace κ slots := { wheel := { tickMs } }

/-- A division by `tick_ms_ = 0` traps. -/
def step (r : WheelRace κ slots) : RaceEvent κ → Option (WheelRace κ slots)
  | .compute delayMs callback =>
      if r.wheel.tickMs = 0 then none
      else
        let entry := ⟨r.wheel.nextId, r.wheel.expireTick delayMs, callback⟩
        some { r with
          wheel := { r.wheel with nextId := r.wheel.nextId + 1 }
          adding := r.adding ++ [⟨entry, delayMs, r.wheel.currentTick, r.ticks⟩] }
  | .insert i =>
      match r.adding[i]? with
      | none => none
      | some a =>
          some { r with
            wheel := r.wheel.insert a.entry
            adding := r.adding.eraseIdx i
            inserted := r.inserted ++ [(a.entry, r.wheel.currentTick)] }
  | .tick => some { r with wheel := r.wheel.collect.2, ticks := r.ticks + 1 }

def Ahead (r : WheelRace κ slots) : Prop := ∀ x ∈ r.inserted, x.2 ≤ x.1.expireTick

def Fits (r : WheelRace κ slots) : RaceEvent κ → Prop
  | .compute delayMs _ =>
      delayMs.1.toNat + r.wheel.tickMs.toNat < 2 ^ 64 ∧
        r.wheel.currentTick.toNat + delayMs.1.toNat ⌈/⌉ r.wheel.tickMs.toNat - 1 < 2 ^ 64
  | _ => True

/-- Fewer ticks have come between the computation and the insertion than the delay has. -/
def InTime (r : WheelRace κ slots) : RaceEvent κ → Prop
  | .insert i => ∀ a, r.adding[i]? = some a → r.ticks < a.seen + a.delayMs.toNat ⌈/⌉ r.wheel.tickMs.toNat
  | _ => True

/-- The hand has not gone through zero between the computation and the insertion. -/
def Unwrapped (r : WheelRace κ slots) : RaceEvent κ → Prop
  | .insert i => ∀ a, r.adding[i]? = some a → a.hand.toNat + (r.ticks - a.seen) < 2 ^ 64
  | _ => True

structure Racing (r : WheelRace κ slots) (a : RacingAdd κ) : Prop where
  seen : a.seen ≤ r.ticks
  hand : r.wheel.currentTick.toNat = (a.hand.toNat + (r.ticks - a.seen)) % 2 ^ 64
  deadline : a.entry.expireTick.toNat + 1 = a.hand.toNat + a.delayMs.toNat ⌈/⌉ r.wheel.tickMs.toNat

def Exact (r : WheelRace κ slots) : Prop := ∀ a ∈ r.adding, r.Racing a

theorem Exact.step {r s : WheelRace κ slots} {ev : RaceEvent κ} (h : r.Exact) (hw : r.Fits ev)
    (hs : r.step ev = some s) : s.Exact := by
  cases ev with
  | compute delayMs callback =>
      simp only [WheelRace.step] at hs
      split at hs
      · cases hs
      · rename_i hms
        cases hs
        intro a ha
        rcases List.mem_append.mp ha with ha | ha
        · obtain ⟨hseen, hhand, hdeadline⟩ := h a ha
          exact ⟨hseen, hhand, hdeadline⟩
        · obtain ⟨hsum, hend⟩ := hw
          have hexpire := (expireTick_toNat r.wheel delayMs.1 delayMs.2 (UInt64.pos_iff_ne_zero.mpr hms) hsum hend).2
          rw [List.mem_singleton.mp ha]
          refine ⟨le_rfl, ?_, hexpire⟩
          rw [Nat.sub_self, Nat.add_zero, Nat.mod_eq_of_lt (UInt64.toNat_lt _)]
  | insert i =>
      simp only [WheelRace.step] at hs
      split at hs
      · cases hs
      · cases hs
        intro a ha
        obtain ⟨hseen, hhand, hdeadline⟩ := h a (List.mem_of_mem_eraseIdx ha)
        exact ⟨hseen, hhand, hdeadline⟩
  | tick =>
      cases hs
      intro a ha
      obtain ⟨hseen, hhand, hdeadline⟩ := h a ha
      refine ⟨Nat.le_succ_of_le hseen, ?_, hdeadline⟩
      have hsucc : (r.wheel.currentTick + 1).toNat = (r.wheel.currentTick.toNat + 1) % 2 ^ 64 := UInt64.toNat_add _ _
      refine hsucc.trans ?_
      rw [hhand, Nat.mod_add_mod, Nat.add_assoc, ← Nat.sub_add_comm hseen]

omit [NeZero slots] in
theorem Racing.ahead {r : WheelRace κ slots} {a : RacingAdd κ} (h : r.Racing a)
    (ht : r.ticks < a.seen + a.delayMs.toNat ⌈/⌉ r.wheel.tickMs.toNat) :
    r.wheel.currentTick ≤ a.entry.expireTick := by
  obtain ⟨hseen, hhand, hdeadline⟩ := h
  have hlt := a.entry.expireTick.toNat_lt
  rw [Nat.mod_eq_of_lt (by omega)] at hhand
  rw [UInt64.le_iff_toNat_le]
  omega

omit [NeZero slots] in
theorem Racing.inTime {r : WheelRace κ slots} {a : RacingAdd κ} (h : r.Racing a)
    (hu : a.hand.toNat + (r.ticks - a.seen) < 2 ^ 64) (ha : r.wheel.currentTick ≤ a.entry.expireTick) :
    r.ticks < a.seen + a.delayMs.toNat ⌈/⌉ r.wheel.tickMs.toNat := by
  obtain ⟨hseen, hhand, hdeadline⟩ := h
  rw [Nat.mod_eq_of_lt hu] at hhand
  rw [UInt64.le_iff_toNat_le] at ha
  omega

theorem step_insert {r : WheelRace κ slots} {i : Nat} {a : RacingAdd κ} (h : r.adding[i]? = some a) :
    r.step (.insert i) = some { r with
      wheel := r.wheel.insert a.entry
      adding := r.adding.eraseIdx i
      inserted := r.inserted ++ [(a.entry, r.wheel.currentTick)] } := by
  simp only [step, h]

theorem Ahead.step {r s : WheelRace κ slots} {ev : RaceEvent κ} (h : r.Ahead) (he : r.Exact) (ht : r.InTime ev)
    (hs : r.step ev = some s) : s.Ahead := by
  cases ev with
  | compute delayMs callback =>
      simp only [WheelRace.step] at hs
      split at hs
      · cases hs
      · cases hs
        exact h
  | insert i =>
      cases ha : r.adding[i]? with
      | none => simp [WheelRace.step, ha] at hs
      | some a =>
          rw [step_insert ha] at hs
          cases hs
          intro x hx
          rcases List.mem_append.mp hx with hx | hx
          · exact h x hx
          · rw [List.mem_singleton.mp hx]
            exact (he a (List.mem_of_getElem? ha)).ahead (ht a ha)
  | tick =>
      cases hs
      exact h

end WheelRace

open WheelRace in
/-- In a run whose sums all fit, an insertion in time lands ahead of the hand; and one that is too late lands
behind it, unless the hand has gone through zero in between. -/
theorem adds_ahead_of_hand (tickMs : UInt64) (evs : List (RaceEvent κ)) :
    (EachStep step (fun r ev => r.Fits ev ∧ r.InTime ev) (start κ slots tickMs) evs →
      Throughout step Ahead (start κ slots tickMs) evs) ∧
    (EachStep step Fits (start κ slots tickMs) evs → EachStep step Unwrapped (start κ slots tickMs) evs →
      Throughout step Ahead (start κ slots tickMs) evs → EachStep step InTime (start κ slots tickMs) evs) := by
  have hstart : (start κ slots tickMs).Exact := nofun
  constructor
  · intro h
    have hall := throughout_of_eachStep (P := fun r => r.Exact ∧ r.Ahead)
      (fun r ev s hr hc hs => ⟨hr.1.step hc.1 hs, hr.2.step hr.1 hc.2 hs⟩) ⟨hstart, nofun⟩ h
    exact fun fs t hfs ht => (hall fs t hfs ht).2
  · intro hfits hunwrapped hahead fs ev t hfs ht
    cases ev with
    | compute | tick => trivial
    | insert i =>
        intro a ha
        have hexact := throughout_of_eachStep (fun r ev s hr hc hs => Exact.step hr hc hs) hstart hfits fs t
          ((List.prefix_append fs _).trans hfs) ht
        have hlast := hahead (fs ++ [.insert i]) _ hfs
          (run_append ht (run_cons.mpr ⟨_, step_insert ha, run_nil.mpr rfl⟩))
        exact (hexact a (List.mem_of_getElem? ha)).inTime (hunwrapped fs (.insert i) t hfs ht a ha)
          (hlast _ (List.mem_append_right _ (List.mem_singleton_self _)))

/-- A timer of three ticks with two ticks between the computation and the insertion. -/
theorem adds_ahead_of_hand_late : Throughout WheelRace.step WheelRace.Ahead (.start Unit 64 1)
    [.compute ⟨3, by decide⟩ (), .tick, .tick, .insert 0] := by
  apply (adds_ahead_of_hand 1 _).1
  refine (eachStep_cons rfl).mpr ⟨⟨⟨by decide, by decide⟩, trivial⟩, ?_⟩
  refine (eachStep_cons rfl).mpr ⟨⟨trivial, trivial⟩, ?_⟩
  refine (eachStep_cons rfl).mpr ⟨⟨trivial, trivial⟩, ?_⟩
  refine (eachStep_cons rfl).mpr ⟨⟨trivial, fun a ha => ?_⟩, eachStep_nil⟩
  cases ha
  decide

/-- One tick between the two parts of `add_timer(1)`: the entry has `expire_tick = 0` and the hand stands at 1. -/
theorem add_behind_hand : ¬Throughout WheelRace.step WheelRace.Ahead (.start Unit 64 1)
    [.compute ⟨1, by decide⟩ (), .tick, .insert 0] := by
  intro h
  have hlast := h _ _ List.prefix_rfl rfl (⟨1, 0, ()⟩, 1) List.mem_cons_self
  exact absurd hlast (by decide)

end CoroRpc.Io

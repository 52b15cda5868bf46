import CoroRpc.Io.TimingWheel
import Mathlib.Data.List.Count

namespace CoroRpc.Io

open TimingWheel

variable {slots : Nat} [NeZero slots] {w : TimingWheel Nat slots} {adds n m : Nat}

def idOf (n : Nat) : UInt64 := UInt64.ofNat (n + 1)

theorem idOf_inj (hn : n < 2 ^ 64) (hm : m < 2 ^ 64) (h : idOf n = idOf m) : n = m := by
  have hmod : (n + 1) % 2 ^ 64 = (m + 1) % 2 ^ 64 := by
    have hnat := congrArg UInt64.toNat h
    rwa [idOf, idOf, UInt64.toNat_ofNat', UInt64.toNat_ofNat'] at hnat
  omega

theorem idOf_succ (n : Nat) : idOf n + 1 = idOf (n + 1) := (UInt64.ofNat_add (n + 1) 1).symm

def OnWheel (w : TimingWheel Nat slots) (n : Nat) : Prop :=
  ∃ slot e, e.callback = n ∧ w.timerSlot (idOf n) = some slot ∧
    ∀ i, (w.wheels i).filter (fun e => e.id = idOf n) = if i = slot then [e] else []

def OffWheel (w : TimingWheel Nat slots) (n : Nat) : Prop :=
  w.timerSlot (idOf n) = none ∧ ∀ i, (w.wheels i).filter (fun e => e.id = idOf n) = []

def Named (w : TimingWheel Nat slots) (adds : Nat) : Prop :=
  ∀ i, ∀ e ∈ w.wheels i, e.callback < adds ∧ e.id = idOf e.callback

omit [NeZero slots] in
theorem not_onWheel_and_offWheel (h : OnWheel w n) (h' : OffWheel w n) : False := by
  obtain ⟨slot, e, -, hslot, -⟩ := h
  rw [h'.1] at hslot
  cases hslot

theorem named_addTimer (hnamed : Named w adds) (hnext : w.nextId = idOf adds) (delayMs : UInt64) :
    Named (w.addTimer delayMs adds).2 (adds + 1) := by
  intro i e he
  rw [addTimer_wheels, List.mem_append] at he
  rcases he with he | he
  · exact ⟨Nat.lt_succ_of_lt (hnamed i e he).1, (hnamed i e he).2⟩
  · split at he
    · rw [List.mem_singleton.mp he]
      exact ⟨Nat.lt_succ_self _, hnext⟩
    · cases he

theorem filter_addTimer (hnext : w.nextId = idOf adds) (hadds : adds < 2 ^ 64) (delayMs : UInt64) (hn : n < adds)
    (i : Fin slots) :
    ((w.addTimer delayMs adds).2.wheels i).filter (fun e => e.id = idOf n) =
      (w.wheels i).filter fun e => e.id = idOf n := by
  have hne : w.nextId ≠ idOf n := by
    intro heq
    have hsame := idOf_inj hadds (by omega) (hnext.symm.trans heq)
    omega
  rw [addTimer_wheels, List.filter_append]
  split
  · simp [hne]
  · simp

theorem timerSlot_addTimer (hnext : w.nextId = idOf adds) (hadds : adds < 2 ^ 64) (delayMs : UInt64) (hn : n < adds) :
    (w.addTimer delayMs adds).2.timerSlot (idOf n) = w.timerSlot (idOf n) := by
  apply Function.update_of_ne
  intro heq
  have hsame := idOf_inj (by omega) hadds (heq.trans hnext)
  omega

theorem OnWheel.addTimer (h : OnWheel w n) (hnext : w.nextId = idOf adds) (hadds : adds < 2 ^ 64) (delayMs : UInt64)
    (hn : n < adds) : OnWheel (w.addTimer delayMs adds).2 n := by
  obtain ⟨slot, e, hcb, hslot, hfilter⟩ := h
  refine ⟨slot, e, hcb, ?_, fun i => ?_⟩
  · rw [timerSlot_addTimer hnext hadds delayMs hn]
    exact hslot
  · rw [filter_addTimer hnext hadds delayMs hn]
    exact hfilter i

theorem OffWheel.addTimer (h : OffWheel w n) (hnext : w.nextId = idOf adds) (hadds : adds < 2 ^ 64)
    (delayMs : UInt64) (hn : n < adds) : OffWheel (w.addTimer delayMs adds).2 n := by
  refine ⟨?_, fun i => ?_⟩
  · rw [timerSlot_addTimer hnext hadds delayMs hn]
    exact h.1
  · rw [filter_addTimer hnext hadds delayMs hn]
    exact h.2 i

theorem onWheel_addTimer (hnamed : Named w adds) (hnext : w.nextId = idOf adds) (hadds : adds < 2 ^ 64)
    (delayMs : UInt64) : OnWheel (w.addTimer delayMs adds).2 adds := by
  refine ⟨slotOf slots (w.expireTick delayMs), ⟨w.nextId, w.expireTick delayMs, adds⟩, rfl, ?_, fun i => ?_⟩
  · rw [← hnext]
    exact Function.update_self _ _ _
  · have hold : (w.wheels i).filter (fun e => e.id = idOf adds) = [] := by
      apply List.filter_eq_nil_iff.mpr
      intro e he heq
      obtain ⟨hlt, hid⟩ := hnamed i e he
      have hsame := idOf_inj (by omega) hadds (hid.symm.trans (by simpa using heq))
      omega
    rw [addTimer_wheels, List.filter_append, hold]
    split
    · simp [hnext]
    · rfl

omit [NeZero slots] in
theorem named_cancelTimer (h : Named w adds) (id : UInt64) : Named (w.cancelTimer id).2 adds := by
  intro i e he
  rw [cancelTimer_wheels] at he
  exact h i e (List.mem_of_mem_filter he)

omit [NeZero slots] in
theorem timerSlot_cancelTimer (id id' : UInt64) :
    (w.cancelTimer id).2.timerSlot id' = if id' = id then none else w.timerSlot id' := by
  by_cases heq : id' = id
  · subst heq
    cases hslot : w.timerSlot id' with
    | none => simp [TimingWheel.cancelTimer, hslot]
    | some slot => simp [TimingWheel.cancelTimer, hslot]
  · cases hslot : w.timerSlot id with
    | none => simp [TimingWheel.cancelTimer, hslot, heq]
    | some slot => simp [TimingWheel.cancelTimer, hslot, heq]

omit [NeZero slots] in
theorem filter_cancelTimer {id : UInt64} (hid : idOf n ≠ id) (i : Fin slots) :
    ((w.cancelTimer id).2.wheels i).filter (fun e => e.id = idOf n) =
      (w.wheels i).filter fun e => e.id = idOf n := by
  rw [cancelTimer_wheels, List.filter_filter]
  apply List.filter_congr
  intro e _
  by_cases heq : e.id = idOf n
  · simp [heq, hid]
  · simp [heq]

omit [NeZero slots] in
theorem OnWheel.cancelTimer (h : OnWheel w n) {id : UInt64} (hid : idOf n ≠ id) : OnWheel (w.cancelTimer id).2 n := by
  obtain ⟨slot, e, hcb, hslot, hfilter⟩ := h
  refine ⟨slot, e, hcb, ?_, fun i => ?_⟩
  · rw [timerSlot_cancelTimer, if_neg hid]
    exact hslot
  · rw [filter_cancelTimer hid]
    exact hfilter i

omit [NeZero slots] in
theorem OffWheel.cancelTimer (h : OffWheel w n) (id : UInt64) : OffWheel (w.cancelTimer id).2 n := by
  refine ⟨?_, fun i => ?_⟩
  · rw [timerSlot_cancelTimer, h.1, ite_self]
  · rw [cancelTimer_wheels, List.filter_filter, List.filter_eq_nil_iff]
    intro e he hboth
    have hnone := List.filter_eq_nil_iff.mp (h.2 i) e he
    simp_all

omit [NeZero slots] in
/-- The timer that is cancelled leaves the one slot it is in; every slot keeps the rest. -/
theorem OnWheel.cancelled (h : OnWheel w n) :
    (w.cancelTimer (idOf n)).1 = true ∧ OffWheel (w.cancelTimer (idOf n)).2 n ∧
      ∀ i, (w.cancelTimer (idOf n)).2.wheels i = (w.wheels i).filter fun e => e.id ≠ idOf n := by
  obtain ⟨slot, e, -, hslot, hfilter⟩ := h
  have hwheels (i : Fin slots) :
      (w.cancelTimer (idOf n)).2.wheels i = (w.wheels i).filter fun e => e.id ≠ idOf n := by
    rw [cancelTimer_wheels, hslot]
    apply List.filter_congr
    intro f hf
    by_cases hi : slot = i
    · simp [hi]
    · have hnone := hfilter i
      rw [if_neg (Ne.symm hi), List.filter_eq_nil_iff] at hnone
      have hid : f.id ≠ idOf n := by simpa using hnone f hf
      simp [hi, hid]
  refine ⟨by simp [TimingWheel.cancelTimer, hslot], ⟨?_, fun i => ?_⟩, hwheels⟩
  · rw [timerSlot_cancelTimer, if_pos rfl]
  · rw [hwheels, List.filter_filter, List.filter_eq_nil_iff]
    intro f _
    simp

theorem named_collect (h : Named w adds) : Named w.collect.2 adds := by
  intro i e he
  rw [collect_wheels] at he
  exact h i e (List.mem_of_mem_filter he)

omit [NeZero slots] in
theorem foldl_erase (es : List (TimerEntry Nat)) (f : UInt64 → Option (Fin slots)) (id : UInt64) :
    es.foldl (fun (m : UInt64 → Option (Fin slots)) e => Function.update m e.id none) f id =
      if ∃ e ∈ es, e.id = id then none else f id := by
  induction es generalizing f with
  | nil => simp
  | cons e es ih =>
      rw [List.foldl_cons, ih]
      by_cases hrest : ∃ e ∈ es, e.id = id
      · rw [if_pos hrest, if_pos]
        obtain ⟨e', he', hid⟩ := hrest
        exact ⟨e', List.mem_cons_of_mem e he', hid⟩
      · rw [if_neg hrest]
        by_cases hid : e.id = id
        · subst hid
          rw [Function.update_self, if_pos ⟨e, List.mem_cons_self, rfl⟩]
        · rw [Function.update_of_ne (Ne.symm hid), if_neg]
          rintro ⟨e', he', hid'⟩
          rcases List.mem_cons.mp he' with rfl | he'
          · exact hid hid'
          · exact hrest ⟨e', he', hid'⟩

theorem timerSlot_collect (id : UInt64) :
    w.collect.2.timerSlot id =
      if ∃ e ∈ w.wheels (slotOf slots w.currentTick), e.expireTick ≤ w.currentTick ∧ e.id = id then none
      else w.timerSlot id := by
  have hfold := foldl_erase ((w.wheels (slotOf slots w.currentTick)).filter fun e => e.expireTick ≤ w.currentTick)
    w.timerSlot id
  refine hfold.trans ?_
  congr 1
  simp only [List.mem_filter, decide_eq_true_eq, and_assoc]

theorem filter_collect (id : UInt64) (i : Fin slots) :
    (w.collect.2.wheels i).filter (fun e => e.id = id) =
      ((w.wheels i).filter fun e => e.id = id).filter
        fun e => ¬(i = slotOf slots w.currentTick ∧ e.expireTick ≤ w.currentTick) := by
  rw [collect_wheels, List.filter_filter, List.filter_filter]
  apply List.filter_congr
  intro e _
  exact Bool.and_comm _ _

theorem count_collect (hnamed : Named w adds) (hadds : adds ≤ 2 ^ 64) (hn : n < adds) :
    w.collect.1.count n =
      (((w.wheels (slotOf slots w.currentTick)).filter fun e => e.id = idOf n).filter
        fun e => e.expireTick ≤ w.currentTick).length := by
  rw [collect, List.count_eq_countP, List.countP_map, List.countP_filter, List.countP_eq_length_filter,
    List.filter_filter]
  congr 1
  apply List.filter_congr
  intro e he
  obtain ⟨hlt, hid⟩ := hnamed _ e he
  by_cases hcb : e.callback = n
  · simp [hcb, hid]
  · have hne : e.id ≠ idOf n := by
      intro heq
      exact hcb (idOf_inj (by omega) (by omega) (hid.symm.trans heq))
    simp [hcb, hne]

theorem OffWheel.collect (h : OffWheel w n) (hnamed : Named w adds) (hadds : adds ≤ 2 ^ 64) (hn : n < adds) :
    OffWheel w.collect.2 n ∧ w.collect.1.count n = 0 := by
  refine ⟨⟨?_, fun i => ?_⟩, ?_⟩
  · rw [timerSlot_collect, h.1, ite_self]
  · rw [filter_collect, h.2, List.filter_nil]
  · rw [count_collect hnamed hadds hn, h.2]
    rfl

theorem OnWheel.collect (h : OnWheel w n) (hnamed : Named w adds) (hadds : adds ≤ 2 ^ 64) (hn : n < adds) :
    OnWheel w.collect.2 n ∧ w.collect.1.count n = 0 ∨ OffWheel w.collect.2 n ∧ w.collect.1.count n = 1 := by
  obtain ⟨slot, e, hcb, hslot, hfilter⟩ := h
  have hmem : e ∈ (w.wheels slot).filter fun e => e.id = idOf n := by
    rw [hfilter, if_pos rfl]
    exact List.mem_singleton_self e
  obtain ⟨hin, hid⟩ := List.mem_filter.mp hmem
  have hcount := count_collect hnamed hadds hn
  rw [hfilter] at hcount
  by_cases hnow : slotOf slots w.currentTick = slot ∧ e.expireTick ≤ w.currentTick
  · right
    obtain ⟨rfl, hdue⟩ := hnow
    refine ⟨⟨?_, fun i => ?_⟩, ?_⟩
    · rw [timerSlot_collect, if_pos ⟨e, hin, hdue, by simpa using hid⟩]
    · rw [filter_collect, hfilter]
      split
      · rename_i hi
        simp [hi, hdue]
      · rfl
    · rw [hcount, if_pos rfl]
      simp [hdue]
  · left
    refine ⟨⟨slot, e, hcb, ?_, fun i => ?_⟩, ?_⟩
    · rw [timerSlot_collect, if_neg]
      · exact hslot
      · -- another entry of the hand's slot with this id would be `e` itself
        rintro ⟨f, hf, hdue, hfid⟩
        have hfe : f ∈ (w.wheels (slotOf slots w.currentTick)).filter fun e => e.id = idOf n :=
          List.mem_filter.mpr ⟨hf, by simpa using hfid⟩
        rw [hfilter] at hfe
        split at hfe
        · rename_i hi
          rw [List.mem_singleton.mp hfe] at hdue
          exact hnow ⟨hi, hdue⟩
        · cases hfe
    · rw [filter_collect, hfilter]
      split
      · rename_i hi
        have hkept : ¬(i = slotOf slots w.currentTick ∧ e.expireTick ≤ w.currentTick) := by
          rintro ⟨hi', hdue⟩
          exact hnow ⟨hi'.symm.trans hi, hdue⟩
        simp only [hkept, List.filter_cons, not_false_eq_true, decide_true, if_true, List.filter_nil]
      · rfl
    · rw [hcount]
      split
      · rename_i hi
        have hdue : ¬e.expireTick ≤ w.currentTick := fun hdue => hnow ⟨hi, hdue⟩
        simp [hdue]
      · rfl

end CoroRpc.Io

import CoroRpc.Io.TimerFiring

namespace CoroRpc.Io

open TimingWheel Trace

variable {slots : Nat} [NeZero slots]

namespace TimingWheel

theorem slotOf_eq_iff {a b : UInt64} : slotOf slots a = slotOf slots b ↔ a.toNat % slots = b.toNat % slots :=
  Fin.ext_iff

end TimingWheel

theorem hand_toNat {hand : UInt64} {k : Nat} (h : hand.toNat + k < 2 ^ 64) :
    (hand + UInt64.ofNat k).toNat = hand.toNat + k := by
  have hk : k < 2 ^ 64 := by omega
  rw [UInt64.toNat_add, UInt64.toNat_ofNat_of_lt' hk]
  exact Nat.mod_eq_of_lt h

theorem hand_zero (hand : UInt64) : hand + UInt64.ofNat 0 = hand := UInt64.add_zero hand

theorem hand_succ (hand : UInt64) (k : Nat) : hand + 1 + UInt64.ofNat k = hand + UInt64.ofNat (k + 1) := by
  rw [UInt64.add_assoc, UInt64.ofNat_add, UInt64.add_comm (UInt64.ofNat k)]
  rfl

namespace WheelRun

variable {e f : TimerEntry Nat} {r s : WheelRun slots} {ev : WheelEvent} {evs : List WheelEvent} {bound due : Nat}

structure Skipped (e : TimerEntry Nat) (bound : Nat) (r : WheelRun slots) : Prop where
  held : Held e r
  skips : ∀ k, r.ticks + k < bound → ¬Takes slots e (r.wheel.currentTick + UInt64.ofNat k)

theorem Skipped.step (h : Skipped e bound r) (hc : ev ≠ .cancelTimer e.id) (hs : r.step ev = some s)
    (hb : s.ticks ≤ bound) : Skipped e bound s := by
  by_cases ht : ev = .tick
  · subst ht
    obtain ⟨hexp, rfl⟩ := step_tick hs
    have hnow := h.skips 0 hb
    rw [hand_zero] at hnow
    refine ⟨h.held.tick_kept hexp hnow, fun k hk => ?_⟩
    have hskip := h.skips (k + 1) (by dsimp only at hk; omega)
    rw [← hand_succ] at hskip
    exact hskip
  · obtain ⟨hheld, hhand, hticks⟩ := h.held.step hc ht hs
    refine ⟨hheld, fun k hk => ?_⟩
    rw [hhand]
    rw [hticks] at hk
    exact h.skips k hk

theorem run_ticks_le (h : run step r evs = some s) : r.ticks ≤ s.ticks := by
  rw [run_ticks h]
  exact Nat.le_add_right _ _

theorem Skipped.run (h : Skipped e bound r) (hc : .cancelTimer e.id ∉ evs)
    (hs : Trace.run WheelRun.step r evs = some s) (hb : s.ticks ≤ bound) : Skipped e bound s := by
  induction evs generalizing r with
  | nil =>
      rw [run_nil] at hs
      subst hs
      exact h
  | cons ev evs ih =>
      obtain ⟨u, hu, hs⟩ := run_cons.mp hs
      rw [List.mem_cons, not_or] at hc
      exact ih (h.step (Ne.symm hc.1) hu ((run_ticks_le hs).trans hb)) hc.2 hs

structure Pending (e : TimerEntry Nat) (due : Nat) (r : WheelRun slots) : Prop where
  early : r.ticks < due
  skipped : Skipped e (due - 1) r
  takes : Takes slots e (r.wheel.currentTick + UInt64.ofNat (due - 1 - r.ticks))

theorem Pending.step (h : Pending e due r) (ho : r.Ordered) (hc : ev ≠ .cancelTimer e.id) (hs : r.step ev = some s) :
    Pending e due s ∨ Fired e.callback due s := by
  have htakes := h.takes
  by_cases ht : ev = .tick
  · subst ht
    rcases Nat.lt_or_eq_of_le h.early with hlt | heq
    · left
      have hticks := step_ticks hs
      rw [if_pos rfl] at hticks
      refine ⟨by omega, h.skipped.step hc hs (by omega), ?_⟩
      obtain ⟨-, rfl⟩ := step_tick hs
      have hsub : due - 1 - r.ticks = due - 1 - (r.ticks + 1) + 1 := by omega
      rw [hsub, ← hand_succ] at htakes
      exact htakes
    · right
      obtain ⟨hexp, rfl⟩ := step_tick hs
      have hsub : due - 1 - r.ticks = 0 := by omega
      rw [hsub, hand_zero] at htakes
      rw [← heq]
      exact h.skipped.held.tick_taken ho hexp htakes
  · left
    obtain ⟨-, hhand, hticks⟩ := h.skipped.held.step hc ht hs
    refine ⟨hticks ▸ h.early, h.skipped.step hc hs ?_, ?_⟩
    · have hearly := h.early
      omega
    · rw [hhand, hticks]
      exact htakes

theorem Pending.run (h : Pending e due r) (ho : r.Ordered) (hc : .cancelTimer e.id ∉ evs)
    (hs : Trace.run WheelRun.step r evs = some s) : Pending e due s ∨ Fired e.callback due s := by
  induction evs generalizing r with
  | nil =>
      rw [run_nil] at hs
      subst hs
      exact .inl h
  | cons ev evs ih =>
      obtain ⟨u, hu, hs⟩ := run_cons.mp hs
      rw [List.mem_cons, not_or] at hc
      rcases h.step ho (Ne.symm hc.1) hu with hp | hf
      · exact ih hp (ho.step hu) hc.2 hs
      · exact .inr (hf.run hs)

theorem Pending.fires (h : Pending e due r) (ho : r.Ordered) (hc : .cancelTimer e.id ∉ evs)
    (hs : Trace.run WheelRun.step r evs = some s) :
    s.firings e.callback ++ s.awaiting e.callback = if due ≤ s.ticks then [due] else [] := by
  rcases h.run ho hc hs with hp | hf
  · rw [if_neg (Nat.not_le.mpr hp.early)]
    exact hp.skipped.held.idle
  · rw [if_pos hf.late]
    exact hf.once

/-- In every continuation that cancels neither of the timers, the first is fired in the same `tick` call as the
second or in an earlier one. -/
def InOrder (r : WheelRun slots) (e f : TimerEntry Nat) : Prop :=
  ∀ after s, Trace.run step r after = some s → .cancelTimer e.id ∉ after → .cancelTimer f.id ∉ after →
    ∀ k ∈ s.firings f.callback ++ s.awaiting f.callback, ∃ j ∈ s.firings e.callback ++ s.awaiting e.callback, j ≤ k

theorem inOrder_of_pending {due' : Nat} (ho : r.Ordered) (he : Pending e due r) (hf : Pending f due' r)
    (hle : due ≤ due') : InOrder r e f := by
  intro after s hs hce hcf k hk
  rw [hf.fires ho hcf hs] at hk
  rw [he.fires ho hce hs]
  split at hk
  · rename_i hlate
    rw [if_pos (hle.trans hlate)]
    exact ⟨due, List.mem_singleton_self _, (hle.trans_eq (List.mem_singleton.mp hk).symm)⟩
  · cases hk

def Twins (e f : TimerEntry Nat) (r : WheelRun slots) : Prop :=
  r.Ordered ∧ (Held e r ∧ Held f r ∨ ∃ due, Fired e.callback due r ∧ Fired f.callback due r)

theorem Twins.step (h : Twins e f r) (heq : e.expireTick = f.expireTick) (hce : ev ≠ .cancelTimer e.id)
    (hcf : ev ≠ .cancelTimer f.id) (hs : r.step ev = some s) : Twins e f s := by
  obtain ⟨ho, ⟨he, hf⟩ | ⟨due, he, hf⟩⟩ := h
  · refine ⟨ho.step hs, ?_⟩
    by_cases ht : ev = .tick
    · subst ht
      obtain ⟨hexp, rfl⟩ := step_tick hs
      have hsame : Takes slots f r.wheel.currentTick ↔ Takes slots e r.wheel.currentTick := by
        rw [Takes, Takes, heq]
      by_cases hnow : Takes slots e r.wheel.currentTick
      · exact .inr ⟨r.ticks + 1, he.tick_taken ho hexp hnow, hf.tick_taken ho hexp (hsame.mpr hnow)⟩
      · exact .inl ⟨he.tick_kept hexp hnow, hf.tick_kept hexp (hsame.not.mpr hnow)⟩
    · exact .inl ⟨(he.step hce ht hs).1, (hf.step hcf ht hs).1⟩
  · exact ⟨ho.step hs, .inr ⟨due, he.step hs, hf.step hs⟩⟩

theorem inOrder_of_twins (h : Twins e f r) (heq : e.expireTick = f.expireTick) : InOrder r e f := by
  intro after s hs hce hcf k hk
  have htwins : Twins e f s := by
    induction after generalizing r with
    | nil =>
        rw [run_nil] at hs
        subst hs
        exact h
    | cons ev evs ih =>
        obtain ⟨u, hu, hs⟩ := run_cons.mp hs
        rw [List.mem_cons, not_or] at hce hcf
        exact ih (h.step heq (Ne.symm hce.1) (Ne.symm hcf.1) hu) hs hce.2 hcf.2
  obtain ⟨-, ⟨-, hf⟩ | ⟨due, he, hf⟩⟩ := htwins
  · rw [hf.idle] at hk
    cases hk
  · rw [hf.once] at hk
    rw [he.once]
    exact ⟨k, hk, le_rfl⟩

theorem run_callbacks (r : WheelRun slots) :
    ∃ s, Trace.run step r (List.replicate r.expired.length .callback) = some s ∧ s.expired = [] := by
  generalize hn : r.expired.length = n
  induction n generalizing r with
  | zero => exact ⟨r, rfl, List.length_eq_zero_iff.mp hn⟩
  | succ n ih =>
      cases hexp : r.expired with
      | nil => simp [hexp] at hn
      | cons m expired =>
          obtain ⟨s, hs, hdone⟩ := ih { r with expired, log := r.log ++ [(m, r.ticks)] } (by simpa [hexp] using hn)
          refine ⟨s, ?_, hdone⟩
          rw [List.replicate_succ]
          exact run_cons.mpr ⟨_, by simp only [step, hexp], hs⟩

theorem run_toward (r : WheelRun slots) (n : Nat) :
    ∃ evs s, Trace.run step r evs = some s ∧ s.ticks = r.ticks + n ∧ ∀ id, .cancelTimer id ∉ evs := by
  induction n with
  | zero => exact ⟨[], r, rfl, rfl, fun _ => List.not_mem_nil⟩
  | succ n ih =>
      obtain ⟨evs, s, hs, hticks, hnone⟩ := ih
      obtain ⟨t, ht, hexp⟩ := run_callbacks s
      have hstay : t.ticks = s.ticks := by
        rw [run_ticks ht, List.count_replicate]
        rfl
      have htick : t.step .tick =
          some { t with wheel := t.wheel.collect.2, expired := t.wheel.collect.1, ticks := t.ticks + 1 } :=
        if_pos hexp
      refine ⟨evs ++ (List.replicate s.expired.length .callback ++ [.tick]), _,
        run_append hs (run_append ht (run_cons.mpr ⟨_, htick, run_nil.mpr rfl⟩)), ?_, fun id hmem => ?_⟩
      · show t.ticks + 1 = r.ticks + (n + 1)
        omega
      · rcases List.mem_append.mp hmem with hm | hm
        · exact hnone id hm
        · rcases List.mem_append.mp hm with hm | hm
          · exact absurd (List.eq_of_mem_replicate hm) nofun
          · exact absurd (List.mem_singleton.mp hm) nofun

theorem not_inOrder (ho : r.Ordered) (he : Skipped e bound r) (hf : Pending f due r) (hle : due ≤ bound) :
    ¬InOrder r e f := by
  intro h
  have hearly := hf.early
  obtain ⟨evs, s, hs, hticks, hnone⟩ := run_toward r (due - r.ticks)
  have hdue : s.ticks = due := by omega
  have hfires := hf.fires ho (hnone f.id) hs
  rw [if_pos hdue.ge] at hfires
  obtain ⟨j, hj, -⟩ := h evs s hs (hnone e.id) (hnone f.id) due (by rw [hfires]; exact List.mem_singleton_self _)
  rw [(he.run (hnone e.id) hs (hdue.le.trans hle)).held.idle] at hj
  cases hj

theorem Held.pending_ahead (h : Held e r) {n : Nat} (hn : 0 < n)
    (hclock : e.expireTick.toNat + 1 = r.wheel.currentTick.toNat + n) : Pending e (r.ticks + n) r := by
  have hlt := e.expireTick.toNat_lt
  refine ⟨by omega, ⟨h, fun k hk => ?_⟩, ?_⟩
  · rintro ⟨-, hle⟩
    rw [UInt64.le_iff_toNat_le, hand_toNat (by omega)] at hle
    omega
  · have hsub : r.ticks + n - 1 - r.ticks = n - 1 := by omega
    have hhand : r.wheel.currentTick + UInt64.ofNat (n - 1) = e.expireTick := by
      apply UInt64.toNat_inj.mp
      rw [hand_toNat (by omega)]
      omega
    rw [hsub, hhand]
    exact ⟨rfl, UInt64.le_refl _⟩

theorem add_mod_ne {a m n : Nat} (hm : 0 < m) (h : m < n) : (a + m) % n ≠ a % n := by
  intro heq
  have hz := Nat.sub_mod_eq_zero_of_mod_eq heq
  rw [Nat.add_sub_cancel_left, Nat.mod_eq_of_lt h] at hz
  omega

/-- Right behind the hand, the slot is reached again after a whole turn and not before. -/
theorem Held.skipped_behind (h : Held e r) (hclock : e.expireTick.toNat + 1 = r.wheel.currentTick.toNat) {n : Nat}
    (hn : n < slots) (hlt : r.wheel.currentTick.toNat + n - 1 < 2 ^ 64) : Skipped e (r.ticks + n) r := by
  refine ⟨h, fun k hk => ?_⟩
  rintro ⟨hslot, -⟩
  have hsum : r.wheel.currentTick.toNat + k = e.expireTick.toNat + (k + 1) := by omega
  rw [slotOf_eq_iff, hand_toNat (by omega), hsum] at hslot
  exact add_mod_ne (Nat.succ_pos k) (by omega) hslot

theorem Held.pending_behind (h : Held e r) (hclock : e.expireTick.toNat + 1 = r.wheel.currentTick.toNat)
    (hlt : r.wheel.currentTick.toNat + slots - 1 < 2 ^ 64) : Pending e (r.ticks + slots) r := by
  have hpos : 0 < slots := Nat.pos_of_neZero slots
  refine ⟨by omega, ?_, ?_⟩
  · rw [Nat.add_sub_assoc hpos]
    exact h.skipped_behind hclock (by omega) (by omega)
  · have hsub : r.ticks + slots - 1 - r.ticks = slots - 1 := by omega
    have hsum : r.wheel.currentTick.toNat + (slots - 1) = e.expireTick.toNat + slots := by omega
    rw [hsub, Takes, slotOf_eq_iff, UInt64.le_iff_toNat_le, hand_toNat (by omega), hsum, Nat.add_mod_right]
    exact ⟨rfl, Nat.le_add_right _ _⟩

/-- With the hand at zero the subtraction wraps, and the deadline is the last tick there is. -/
theorem Held.skipped_zero (h : Held e r) (hhand : r.wheel.currentTick.toNat = 0)
    (hlast : e.expireTick.toNat + 1 = 2 ^ 64) {n : Nat} (hn : n < 2 ^ 64) : Skipped e (r.ticks + n) r := by
  refine ⟨h, fun k hk => ?_⟩
  rintro ⟨-, hle⟩
  rw [UInt64.le_iff_toNat_le, hand_toNat (by omega)] at hle
  omega

end WheelRun

omit [NeZero slots] in
theorem expireTick_zero {κ : Type} (w : TimingWheel κ slots) (hms : 0 < w.tickMs) :
    (w.expireTick 0).toNat + 1 = if w.currentTick.toNat = 0 then 2 ^ 64 else w.currentTick.toNat := by
  rw [UInt64.lt_iff_toNat_lt] at hms
  have hms : 0 < w.tickMs.toNat := hms
  have hlt := w.tickMs.toNat_lt
  have hhand := w.currentTick.toNat_lt
  have hsum : (0 + w.tickMs - 1).toNat = w.tickMs.toNat - 1 := by
    rw [UInt64.toNat_sub, UInt64.toNat_add, UInt64.toNat_one, UInt64.toNat_zero]
    omega
  have hticks : ((0 + w.tickMs - 1) / w.tickMs).toNat = 0 := by
    rw [UInt64.toNat_div, hsum]
    exact Nat.div_eq_of_lt (by omega)
  rw [expireTick, UInt64.toNat_sub, UInt64.toNat_add, hticks, UInt64.toNat_one]
  split <;> omega

open WheelRun in
theorem inOrder_iff {r : WheelRun slots} (ho : r.Ordered) {e f : TimerEntry Nat} (he : Held e r) (hf : Held f r)
    {d d' : UInt64} (hexpire : e.expireTick = r.wheel.expireTick d) (hexpire' : f.expireTick = r.wheel.expireTick d')
    (hms : 0 < r.wheel.tickMs) (hle : d ≤ d') (hover : d'.toNat + r.wheel.tickMs.toNat < 2 ^ 64)
    (htick : r.wheel.currentTick.toNat + d'.toNat ⌈/⌉ r.wheel.tickMs.toNat - 1 < 2 ^ 64) :
    InOrder r e f ↔
      0 < d ∨ d' = 0 ∨ (0 < r.wheel.currentTick ∧ slots ≤ d'.toNat ⌈/⌉ r.wheel.tickMs.toNat) := by
  have hmono : d.toNat ⌈/⌉ r.wheel.tickMs.toNat ≤ d'.toNat ⌈/⌉ r.wheel.tickMs.toNat := by
    rw [Nat.ceilDiv_eq_add_pred_div, Nat.ceilDiv_eq_add_pred_div]
    rw [UInt64.le_iff_toNat_le] at hle
    exact Nat.div_le_div_right (by omega)
  by_cases hd : 0 < d
  · have hd' : 0 < d' := by
      rw [UInt64.lt_iff_toNat_lt] at hd ⊢
      rw [UInt64.le_iff_toNat_le] at hle
      omega
    rw [UInt64.le_iff_toNat_le] at hle
    have hdue := expireTick_toNat r.wheel d hd hms (by omega) (by omega)
    have hdue' := expireTick_toNat r.wheel d' hd' hms hover htick
    refine iff_of_true ?_ (.inl hd)
    exact inOrder_of_pending ho (he.pending_ahead hdue.1 (by rw [hexpire]; exact hdue.2))
      (hf.pending_ahead hdue'.1 (by rw [hexpire']; exact hdue'.2)) (by omega)
  · obtain rfl : d = 0 := by
      rw [UInt64.pos_iff_ne_zero, not_not] at hd
      exact hd
    by_cases hd' : d' = 0
    · subst hd'
      have hsame : e.expireTick = f.expireTick := hexpire.trans hexpire'.symm
      exact iff_of_true (inOrder_of_twins ⟨ho, .inl ⟨he, hf⟩⟩ hsame) (.inr (.inl rfl))
    · have hdue' := expireTick_toNat r.wheel d' (UInt64.pos_iff_ne_zero.mpr hd') hms hover htick
      have hpending := hf.pending_ahead hdue'.1 (by rw [hexpire']; exact hdue'.2)
      have hzero := expireTick_zero r.wheel hms
      rw [← hexpire] at hzero
      by_cases hhand : r.wheel.currentTick.toNat = 0
      · rw [if_pos hhand] at hzero
        have hsmall : d'.toNat ⌈/⌉ r.wheel.tickMs.toNat < 2 ^ 64 := by
          rw [Nat.ceilDiv_eq_add_pred_div]
          exact (Nat.div_le_self _ _).trans_lt (by omega)
        refine iff_of_false (not_inOrder ho (he.skipped_zero hhand hzero hsmall) hpending le_rfl) ?_
        rintro (hpos | hnone | ⟨hpos, -⟩)
        · exact hd hpos
        · exact hd' hnone
        · rw [UInt64.lt_iff_toNat_lt, hhand] at hpos
          exact absurd hpos (Nat.lt_irrefl 0)
      · rw [if_neg hhand] at hzero
        by_cases hslots : slots ≤ d'.toNat ⌈/⌉ r.wheel.tickMs.toNat
        · refine iff_of_true (inOrder_of_pending ho (he.pending_behind hzero (by omega)) hpending (by omega)) ?_
          exact .inr (.inr ⟨UInt64.lt_iff_toNat_lt.mpr (Nat.pos_of_ne_zero hhand), hslots⟩)
        · have hskip := he.skipped_behind hzero (Nat.not_le.mp hslots) htick
          refine iff_of_false (not_inOrder ho hskip hpending le_rfl) ?_
          rintro (hpos | hnone | ⟨-, hturn⟩)
          · exact hd hpos
          · exact hd' hnone
          · exact hslots hturn

namespace WheelRun

def entryOf (r : WheelRun slots) (delayMs : UInt64) : TimerEntry Nat :=
  ⟨r.wheel.nextId, r.wheel.expireTick delayMs, r.adds⟩

def added (r : WheelRun slots) (delayMs : UInt64) : WheelRun slots :=
  { r with wheel := (r.wheel.addTimer delayMs r.adds).2, adds := r.adds + 1 }

theorem step_added (r : WheelRun slots) (delayMs : UInt64) :
    r.step (.addTimer delayMs) = some (r.added delayMs) := rfl

theorem held_added {r : WheelRun slots} (ho : r.Ordered) (d d' : UInt64) :
    Held (r.entryOf d) ((r.added d).added d') ∧ Held ((r.added d).entryOf d') ((r.added d).added d') := by
  have hs := step_added (r.added d) d'
  refine ⟨(Held.step (held_add ho d) ?_ ?_ hs).1, held_add (ho.step (step_added r d)) d'⟩
  · nofun
  · nofun

theorem ordered_added {r : WheelRun slots} (ho : r.Ordered) (d d' : UInt64) : ((r.added d).added d').Ordered :=
  (ho.step (step_added r d)).step (step_added (r.added d) d')

end WheelRun

open WheelRun in
/-- Of two timers added in one state, in either order, that of the smaller delay fires no later than the other,
except where it has no delay, the other has one, and that ends before the hand has gone round the wheel. -/
theorem timers_inOrder_iff (tickMs : UInt64) (hms : 0 < tickMs) (before : List WheelEvent) (r : WheelRun slots)
    (hbefore : run WheelRun.step (.start slots tickMs) before = some r) (d d' : UInt64) (hle : d ≤ d')
    (hover : d'.toNat + tickMs.toNat < 2 ^ 64)
    (htick : r.wheel.currentTick.toNat + d'.toNat ⌈/⌉ tickMs.toNat - 1 < 2 ^ 64) :
    (InOrder ((r.added d).added d') (r.entryOf d) ((r.added d).entryOf d') ↔
      0 < d ∨ d' = 0 ∨ (0 < r.wheel.currentTick ∧ slots ≤ d'.toNat ⌈/⌉ tickMs.toNat)) ∧
    (InOrder ((r.added d').added d) ((r.added d').entryOf d) (r.entryOf d') ↔
      0 < d ∨ d' = 0 ∨ (0 < r.wheel.currentTick ∧ slots ≤ d'.toNat ⌈/⌉ tickMs.toNat)) := by
  have ho : r.Ordered := run_inv (fun _ _ _ h hs => h.step hs) (WheelRun.start_ordered tickMs) hbefore
  obtain rfl : r.wheel.tickMs = tickMs := WheelRun.run_tickMs hbefore
  constructor
  · obtain ⟨he, hf⟩ := held_added ho d d'
    exact inOrder_iff (ordered_added ho d d') he hf rfl rfl hms hle hover htick
  · obtain ⟨hf, he⟩ := held_added ho d' d
    exact inOrder_iff (ordered_added ho d' d) he hf rfl rfl hms hle hover htick

open WheelRun in
/-- The two timers of a wheel of four slots of 2 ms: one has no delay, the other has more than a turn. -/
theorem timers_inOrder_turn :
    ∃ r : WheelRun 4, run WheelRun.step (.start 4 2) [.addTimer 3, .tick, .tick, .callback] = some r ∧
      InOrder ((r.added 0).added 9) (r.entryOf 0) ((r.added 0).entryOf 9) :=
  ⟨_, rfl, (@timers_inOrder_iff 4 _ 2 (by decide) [.addTimer 3, .tick, .tick, .callback] _ rfl 0 9 (by decide)
    (by decide) (by decide)).1.mpr (.inr (.inr ⟨by decide, by decide⟩))⟩

open WheelRun in
/-- After one tick of the default wheel, the timer of 1 ms fires in the next tick and the timer of 0 ms does not. -/
theorem timers_not_inOrder :
    ∃ r : WheelRun 64, run WheelRun.step (.start 64 1) [.tick] = some r ∧
      ¬InOrder ((r.added 0).added 1) (r.entryOf 0) ((r.added 0).entryOf 1) := by
  refine ⟨_, rfl, fun h => ?_⟩
  obtain ⟨j, hj, -⟩ := h [.tick] _ rfl (by decide) (by decide) 2 (by decide)
  exact List.not_mem_nil hj

end CoroRpc.Io

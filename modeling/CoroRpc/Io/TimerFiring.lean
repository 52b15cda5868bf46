import CoroRpc.Io.TimingWheel
import Mathlib.Algebra.Order.Floor.Div

namespace CoroRpc.Io

open TimingWheel Trace

variable {slots : Nat} [NeZero slots]

-- A wheel in use. The callback of the `n`-th `add_timer` is the number `n`; `expired` is what the `tick` call
-- in progress has still to run, and `log` lists the callbacks that have run, each with the number of the `tick`
-- call that ran it.
structure WheelRun (slots : Nat) where
  wheel : TimingWheel Nat slots
  expired : List Nat := []
  adds : Nat := 0
  ticks : Nat := 0
  log : List (Nat × Nat) := []

/-- `tick` is the locked part of a call, `callback` the next callback that it runs; whatever stands between two
of these is done by the callback that ran last, or between two ticks. -/
inductive WheelEvent
  | addTimer (delayMs : UInt64)
  | cancelTimer (id : UInt64)
  | tick
  | callback
  deriving DecidableEq

namespace WheelRun

def start (slots : Nat) (tickMs : UInt64) : WheelRun slots := { wheel := { tickMs } }

def step (r : WheelRun slots) : WheelEvent → Option (WheelRun slots)
  | .addTimer delayMs => some { r with wheel := (r.wheel.addTimer delayMs r.adds).2, adds := r.adds + 1 }
  | .cancelTimer id => some { r with wheel := (r.wheel.cancelTimer id).2 }
  | .tick =>
      if r.expired = [] then
        some { r with wheel := r.wheel.collect.2, expired := r.wheel.collect.1, ticks := r.ticks + 1 }
      else none
  | .callback =>
      match r.expired with
      | [] => none
      | n :: expired => some { r with expired, log := r.log ++ [(n, r.ticks)] }

theorem step_tick {r s : WheelRun slots} (h : r.step .tick = some s) :
    r.expired = [] ∧
      s = { r with wheel := r.wheel.collect.2, expired := r.wheel.collect.1, ticks := r.ticks + 1 } := by
  simp only [step] at h
  split at h
  · rename_i hexp
    cases h
    exact ⟨hexp, rfl⟩
  · cases h

theorem step_callback {r s : WheelRun slots} (h : r.step .callback = some s) :
    ∃ n expired, r.expired = n :: expired ∧ s = { r with expired, log := r.log ++ [(n, r.ticks)] } := by
  simp only [step] at h
  split at h
  · cases h
  · rename_i n expired hexp
    cases h
    exact ⟨n, expired, hexp, rfl⟩

def firings (r : WheelRun slots) (n : Nat) : List Nat := (r.log.filter fun x => x.1 = n).map Prod.snd

def awaiting (r : WheelRun slots) (n : Nat) : List Nat := (r.expired.filter fun m => m = n).map fun _ => r.ticks

structure Ordered (r : WheelRun slots) : Prop where
  slot : ∀ i, (r.wheel.wheels i).Pairwise fun e f => e.callback < f.callback
  known : ∀ i, ∀ e ∈ r.wheel.wheels i, e.callback < r.adds
  taken : ∀ n ∈ r.expired, n < r.adds
  logged : ∀ x ∈ r.log, x.1 < r.adds
  expired : r.expired.Pairwise (· < ·)
  log : r.log.Pairwise fun x y => x.2 = y.2 → x.1 < y.1
  past : ∀ x ∈ r.log, x.2 ≤ r.ticks
  progress : ∀ x ∈ r.log, x.2 = r.ticks → ∀ n ∈ r.expired, x.1 < n

omit [NeZero slots] in
theorem start_ordered (tickMs : UInt64) : (start slots tickMs).Ordered where
  slot _ := .nil
  known _ _ := nofun
  taken _ := nofun
  logged _ := nofun
  expired := .nil
  log := .nil
  past _ := nofun
  progress _ := nofun

theorem Ordered.step {r s : WheelRun slots} (h : r.Ordered) {ev : WheelEvent} (hs : r.step ev = some s) :
    s.Ordered := by
  cases ev with
  | addTimer delayMs =>
      cases hs
      refine { h with
        slot := fun i => ?_
        known := fun i e he => ?_
        taken := fun n hn => Nat.lt_succ_of_lt (h.taken n hn)
        logged := fun x hx => Nat.lt_succ_of_lt (h.logged x hx) }
      · rw [addTimer_wheels]
        split
        · rw [List.pairwise_append]
          refine ⟨h.slot i, List.pairwise_singleton _ _, fun e he f hf => ?_⟩
          rw [List.mem_singleton.mp hf]
          exact h.known i e he
        · rw [List.append_nil]
          exact h.slot i
      · rw [addTimer_wheels, List.mem_append] at he
        rcases he with he | he
        · exact Nat.lt_succ_of_lt (h.known i e he)
        · split at he
          · rw [List.mem_singleton.mp he]
            exact Nat.lt_succ_self _
          · cases he
  | cancelTimer id =>
      cases hs
      refine { h with slot := fun i => ?_, known := fun i e he => ?_ }
      · rw [cancelTimer_wheels]
        exact (h.slot i).filter _
      · rw [cancelTimer_wheels] at he
        exact h.known i e (List.mem_of_mem_filter he)
  | tick =>
      obtain ⟨-, rfl⟩ := step_tick hs
      refine ⟨fun i => ?_, fun i e he => ?_, fun n hn => ?_, h.logged, ?_, h.log,
        fun x hx => Nat.le_succ_of_le (h.past x hx), ?_⟩
      · rw [collect_wheels]
        exact (h.slot i).filter _
      · rw [collect_wheels] at he
        exact h.known i e (List.mem_of_mem_filter he)
      · obtain ⟨e, he, rfl⟩ := List.mem_map.mp hn
        exact h.known _ e (List.mem_of_mem_filter he)
      · exact List.pairwise_map.mpr ((h.slot _).filter _)
      · intro x hx ht
        exact absurd ht (Nat.ne_of_lt (Nat.lt_succ_of_le (h.past x hx)))
  | callback =>
      obtain ⟨n, expired, hexp, rfl⟩ := step_callback hs
      have hpair := h.expired
      rw [hexp, List.pairwise_cons] at hpair
      have htaken := h.taken
      rw [hexp, List.forall_mem_cons] at htaken
      refine { h with
        taken := htaken.2, expired := hpair.2, logged := ?_, log := ?_, past := ?_, progress := ?_ }
      · intro x hx
        rcases List.mem_append.mp hx with hx | hx
        · exact h.logged x hx
        · rw [List.mem_singleton.mp hx]
          exact htaken.1
      · rw [List.pairwise_append]
        refine ⟨h.log, List.pairwise_singleton _ _, fun x hx y hy ht => ?_⟩
        rw [List.mem_singleton.mp hy] at ht ⊢
        exact h.progress x hx ht n (by rw [hexp]; exact List.mem_cons_self)
      · intro x hx
        rcases List.mem_append.mp hx with hx | hx
        · exact h.past x hx
        · rw [List.mem_singleton.mp hx]
      · intro x hx ht m hm
        rcases List.mem_append.mp hx with hx | hx
        · exact h.progress x hx ht m (by rw [hexp]; exact List.mem_cons_of_mem _ hm)
        · rw [List.mem_singleton.mp hx]
          exact hpair.1 m hm

omit [NeZero slots] in
theorem callback_record {r : WheelRun slots} {m : Nat} {expired : List Nat} (h : r.expired = m :: expired) (n : Nat) :
    firings { r with expired, log := r.log ++ [(m, r.ticks)] } n ++
      awaiting { r with expired, log := r.log ++ [(m, r.ticks)] } n = r.firings n ++ r.awaiting n := by
  by_cases hm : m = n
  · simp [firings, awaiting, h, hm]
  · simp [firings, awaiting, h, hm]

structure Waiting (e : TimerEntry Nat) (due : Nat) (r : WheelRun slots) : Prop where
  early : r.ticks < due
  clock : r.wheel.currentTick.toNat + due = e.expireTick.toNat + 1 + r.ticks
  known : e.callback < r.adds
  placed : e ∈ r.wheel.wheels (slotOf slots e.expireTick)
  alone : ∀ i, ∀ f ∈ r.wheel.wheels i, f.callback = e.callback → f = e ∧ i = slotOf slots e.expireTick
  idle : r.firings e.callback ++ r.awaiting e.callback = []

structure Fired (n due : Nat) (r : WheelRun slots) : Prop where
  late : due ≤ r.ticks
  known : n < r.adds
  gone : ∀ i, ∀ f ∈ r.wheel.wheels i, f.callback ≠ n
  once : r.firings n ++ r.awaiting n = [due]

theorem Fired.step {n due : Nat} {r s : WheelRun slots} (h : Fired n due r) {ev : WheelEvent}
    (hs : r.step ev = some s) : Fired n due s := by
  cases ev with
  | addTimer delayMs =>
      cases hs
      refine ⟨h.late, Nat.lt_succ_of_lt h.known, fun i f hf => ?_, h.once⟩
      rw [addTimer_wheels, List.mem_append] at hf
      rcases hf with hf | hf
      · exact h.gone i f hf
      · split at hf
        · rw [List.mem_singleton.mp hf]
          exact Nat.ne_of_gt h.known
        · cases hf
  | cancelTimer id =>
      cases hs
      refine ⟨h.late, h.known, fun i f hf => ?_, h.once⟩
      rw [cancelTimer_wheels] at hf
      exact h.gone i f (List.mem_of_mem_filter hf)
  | tick =>
      obtain ⟨hexp, rfl⟩ := step_tick hs
      refine ⟨Nat.le_succ_of_le h.late, h.known, fun i f hf => ?_, ?_⟩
      · rw [collect_wheels] at hf
        exact h.gone i f (List.mem_of_mem_filter hf)
      · have honce := h.once
        rw [awaiting, hexp] at honce
        have hnone : r.wheel.collect.1.filter (fun m => m = n) = [] := by
          apply List.filter_eq_nil_iff.mpr
          intro m hm
          obtain ⟨f, hf, rfl⟩ := List.mem_map.mp hm
          simpa using h.gone _ f (List.mem_of_mem_filter hf)
        simp only [awaiting, hnone]
        exact honce
  | callback =>
      obtain ⟨m, expired, hexp, rfl⟩ := step_callback hs
      exact ⟨h.late, h.known, h.gone, (callback_record hexp n).trans h.once⟩

structure Held (e : TimerEntry Nat) (r : WheelRun slots) : Prop where
  known : e.callback < r.adds
  placed : e ∈ r.wheel.wheels (slotOf slots e.expireTick)
  alone : ∀ i, ∀ f ∈ r.wheel.wheels i, f.callback = e.callback → f = e ∧ i = slotOf slots e.expireTick
  idle : r.firings e.callback ++ r.awaiting e.callback = []

/-- A `tick` that finds the hand at `tick` takes the entry. -/
def Takes (slots : Nat) [NeZero slots] (e : TimerEntry Nat) (tick : UInt64) : Prop :=
  slotOf slots tick = slotOf slots e.expireTick ∧ e.expireTick ≤ tick

theorem Held.tick_kept {e : TimerEntry Nat} {r : WheelRun slots} (h : Held e r) (hexp : r.expired = [])
    (hn : ¬Takes slots e r.wheel.currentTick) :
    Held e { r with wheel := r.wheel.collect.2, expired := r.wheel.collect.1, ticks := r.ticks + 1 } := by
  refine ⟨h.known, ?_, fun i f hf => ?_, ?_⟩
  · rw [collect_wheels]
    refine List.mem_filter.mpr ⟨h.placed, ?_⟩
    rw [decide_eq_true_eq]
    exact fun ht => hn ⟨ht.1.symm, ht.2⟩
  · rw [collect_wheels] at hf
    exact h.alone i f (List.mem_of_mem_filter hf)
  · have hnone : r.wheel.collect.1.filter (fun m => m = e.callback) = [] := by
      apply List.filter_eq_nil_iff.mpr
      intro m hm
      obtain ⟨f, hf, rfl⟩ := List.mem_map.mp hm
      obtain ⟨hf, hdue⟩ := List.mem_filter.mp hf
      intro hcb
      obtain ⟨rfl, hslot⟩ := h.alone _ f hf (by simpa using hcb)
      exact hn ⟨hslot, by simpa using hdue⟩
    have hidle := h.idle
    rw [awaiting, hexp] at hidle
    simp only [awaiting, hnone]
    exact hidle

theorem Held.tick_taken {e : TimerEntry Nat} {r : WheelRun slots} (h : Held e r) (ho : r.Ordered)
    (hexp : r.expired = []) (ht : Takes slots e r.wheel.currentTick) :
    Fired e.callback (r.ticks + 1)
      { r with wheel := r.wheel.collect.2, expired := r.wheel.collect.1, ticks := r.ticks + 1 } := by
  obtain ⟨hslot, hle⟩ := ht
  refine ⟨le_rfl, h.known, fun i f hf hcb => ?_, ?_⟩
  · rw [collect_wheels] at hf
    obtain ⟨hf, hkept⟩ := List.mem_filter.mp hf
    obtain ⟨rfl, rfl⟩ := h.alone i f hf hcb
    simp [hslot, hle] at hkept
  · have hmem : e.callback ∈ r.wheel.collect.1 := by
      apply List.mem_map_of_mem
      refine List.mem_filter.mpr ⟨?_, by simpa using hle⟩
      rw [hslot]
      exact h.placed
    have hnodup : r.wheel.collect.1.Nodup :=
      (List.pairwise_map.mpr ((ho.slot _).filter _)).imp fun hlt => Nat.ne_of_lt hlt
    have hidle := h.idle
    rw [awaiting, hexp] at hidle
    have hfirings : r.firings e.callback = [] := by simpa using hidle
    have hsingle : r.wheel.collect.1.filter (fun m => m = e.callback) = [e.callback] := by
      rw [List.filter_eq, List.count_eq_one_of_mem hnodup hmem, List.replicate_one]
    simp only [awaiting, hsingle, List.map_cons, List.map_nil]
    exact congrArg (· ++ [r.ticks + 1]) hfirings

theorem Held.step {e : TimerEntry Nat} {r s : WheelRun slots} (h : Held e r) {ev : WheelEvent}
    (hc : ev ≠ .cancelTimer e.id) (ht : ev ≠ .tick) (hs : r.step ev = some s) :
    Held e s ∧ s.wheel.currentTick = r.wheel.currentTick ∧ s.ticks = r.ticks := by
  cases ev with
  | addTimer delayMs =>
      cases hs
      refine ⟨⟨Nat.lt_succ_of_lt h.known, ?_, fun i f hf hcb => ?_, h.idle⟩, rfl, rfl⟩
      · rw [addTimer_wheels]
        exact List.mem_append_left _ h.placed
      · rw [addTimer_wheels, List.mem_append] at hf
        rcases hf with hf | hf
        · exact h.alone i f hf hcb
        · split at hf
          · rw [List.mem_singleton.mp hf] at hcb
            exact absurd hcb (Nat.ne_of_gt h.known)
          · cases hf
  | cancelTimer id =>
      cases hs
      have hid : e.id ≠ id := fun heq => hc (heq ▸ rfl)
      refine ⟨⟨h.known, ?_, fun i f hf hcb => ?_, h.idle⟩, ?_, rfl⟩
      · rw [cancelTimer_wheels]
        exact List.mem_filter.mpr ⟨h.placed, by simp [hid]⟩
      · rw [cancelTimer_wheels] at hf
        exact h.alone i f (List.mem_of_mem_filter hf) hcb
      · dsimp only
        rw [cancelTimer]
        split <;> rfl
  | tick => exact absurd rfl ht
  | callback =>
      obtain ⟨m, expired, hexp, rfl⟩ := step_callback hs
      exact ⟨⟨h.known, h.placed, h.alone, (callback_record hexp _).trans h.idle⟩, rfl, rfl⟩

theorem Waiting.held {e : TimerEntry Nat} {due : Nat} {r : WheelRun slots} (h : Waiting e due r) :
    Held e r := ⟨h.known, h.placed, h.alone, h.idle⟩

theorem Held.waiting {e : TimerEntry Nat} {due : Nat} {r : WheelRun slots} (h : Held e r) (early : r.ticks < due)
    (clock : r.wheel.currentTick.toNat + due = e.expireTick.toNat + 1 + r.ticks) : Waiting e due r :=
  ⟨early, clock, h.known, h.placed, h.alone, h.idle⟩

theorem Waiting.step {e : TimerEntry Nat} {due : Nat} {r s : WheelRun slots} (h : Waiting e due r)
    (ho : r.Ordered) {ev : WheelEvent} (hc : ev ≠ .cancelTimer e.id) (hs : r.step ev = some s) :
    Waiting e due s ∨ Fired e.callback due s := by
  have hclock := h.clock
  by_cases ht : ev = .tick
  · subst ht
    obtain ⟨hexp, rfl⟩ := step_tick hs
    rcases Nat.lt_or_eq_of_le h.early with hlt | heq
    · have hbound := e.expireTick.toNat_lt
      have hnow : ¬Takes slots e r.wheel.currentTick := by
        rintro ⟨-, hle⟩
        rw [UInt64.le_iff_toNat_le] at hle
        omega
      have hsucc : (r.wheel.currentTick + 1).toNat = r.wheel.currentTick.toNat + 1 := by
        rw [UInt64.toNat_add]
        exact Nat.mod_eq_of_lt (by show r.wheel.currentTick.toNat + 1 < 2 ^ 64; omega)
      refine .inl ((h.held.tick_kept hexp hnow).waiting hlt ?_)
      show (r.wheel.currentTick + 1).toNat + due = e.expireTick.toNat + 1 + (r.ticks + 1)
      omega
    · have hnow : r.wheel.currentTick = e.expireTick := by
        apply UInt64.toNat_inj.mp
        omega
      right
      rw [← heq]
      exact h.held.tick_taken ho hexp ⟨congrArg (slotOf slots) hnow, UInt64.le_of_eq hnow.symm⟩
  · obtain ⟨hheld, hhand, hticks⟩ := h.held.step hc ht hs
    refine .inl (hheld.waiting ?_ ?_)
    · rw [hticks]
      exact h.early
    · rw [hhand, hticks]
      exact hclock

theorem step_ticks {r s : WheelRun slots} {ev : WheelEvent} (h : r.step ev = some s) :
    s.ticks = r.ticks + if ev = .tick then 1 else 0 := by
  cases ev with
  | addTimer delayMs => cases h; rfl
  | cancelTimer id => cases h; rfl
  | tick =>
      obtain ⟨-, rfl⟩ := step_tick h
      rfl
  | callback =>
      obtain ⟨m, expired, -, rfl⟩ := step_callback h
      rfl

theorem run_ticks {r s : WheelRun slots} {evs : List WheelEvent} (h : run step r evs = some s) :
    s.ticks = r.ticks + evs.count .tick := by
  induction evs generalizing r with
  | nil =>
      rw [run_nil] at h
      rw [h]
      rfl
  | cons ev evs ih =>
      obtain ⟨u, hu, hs⟩ := run_cons.mp h
      rw [ih hs, step_ticks hu, List.count_cons, beq_eq_decide]
      simp only [decide_eq_true_eq]
      omega

theorem Fired.run {n due : Nat} {r s : WheelRun slots} (h : Fired n due r) {evs : List WheelEvent}
    (hs : Trace.run WheelRun.step r evs = some s) : Fired n due s :=
  run_inv (fun _ _ _ h hs => Fired.step h hs) h hs

/-- A timer whose id is not cancelled before the tick numbered `due` waits until that tick and is
fired by it. -/
theorem Waiting.run {e : TimerEntry Nat} {due : Nat} {r s : WheelRun slots} (h : Waiting e due r)
    (ho : r.Ordered) {evs : List WheelEvent}
    (hc : ∀ p q, evs = p ++ .cancelTimer e.id :: q → due ≤ r.ticks + p.count .tick)
    (hs : Trace.run WheelRun.step r evs = some s) :
    Waiting e due s ∨ Fired e.callback due s := by
  induction evs generalizing r with
  | nil =>
      rw [run_nil] at hs
      subst hs
      exact .inl h
  | cons ev evs ih =>
      obtain ⟨u, hu, hs⟩ := run_cons.mp hs
      have hev : ev ≠ .cancelTimer e.id := by
        rintro rfl
        have hnow := hc [] evs rfl
        rw [List.count_nil] at hnow
        exact absurd h.early (Nat.not_lt.mpr hnow)
      rcases h.step ho hev hu with hw | hf
      · refine ih hw (ho.step hu) (fun p q hpq => ?_) hs
        have hle := hc (ev :: p) q (by rw [hpq]; rfl)
        rw [List.count_cons, beq_eq_decide] at hle
        simp only [decide_eq_true_eq] at hle
        rw [step_ticks hu]
        omega
      · exact .inr (hf.run hs)

theorem run_tickMs {r s : WheelRun slots} {evs : List WheelEvent} (h : run step r evs = some s) :
    s.wheel.tickMs = r.wheel.tickMs := by
  refine run_inv (I := fun t => t.wheel.tickMs = r.wheel.tickMs) (fun t ev u ht hu => ?_) rfl h
  cases ev with
  | addTimer delayMs =>
      cases hu
      exact ht
  | cancelTimer id =>
      cases hu
      rw [cancelTimer]
      split <;> exact ht
  | tick =>
      obtain ⟨-, rfl⟩ := step_tick hu
      exact ht
  | callback =>
      obtain ⟨m, expired, -, rfl⟩ := step_callback hu
      exact ht

end WheelRun

omit [NeZero slots] in
theorem expireTick_toNat {κ : Type} (w : TimingWheel κ slots) (delayMs : UInt64) (hd : 0 < delayMs)
    (hms : 0 < w.tickMs) (hover : delayMs.toNat + w.tickMs.toNat < 2 ^ 64)
    (htick : w.currentTick.toNat + delayMs.toNat ⌈/⌉ w.tickMs.toNat - 1 < 2 ^ 64) :
    0 < delayMs.toNat ⌈/⌉ w.tickMs.toNat ∧
      (w.expireTick delayMs).toNat + 1 = w.currentTick.toNat + delayMs.toNat ⌈/⌉ w.tickMs.toNat := by
  rw [UInt64.lt_iff_toNat_lt] at hd hms
  have hd : 0 < delayMs.toNat := hd
  have hms : 0 < w.tickMs.toNat := hms
  have hsum : (delayMs + w.tickMs - 1).toNat = delayMs.toNat + w.tickMs.toNat - 1 := by
    rw [UInt64.toNat_sub, UInt64.toNat_add, UInt64.toNat_one]
    omega
  have hticks : ((delayMs + w.tickMs - 1) / w.tickMs).toNat = delayMs.toNat ⌈/⌉ w.tickMs.toNat := by
    rw [UInt64.toNat_div, hsum, Nat.ceilDiv_eq_add_pred_div]
  have hpos : 0 < delayMs.toNat ⌈/⌉ w.tickMs.toNat := by
    rw [Nat.ceilDiv_eq_add_pred_div]
    exact Nat.div_pos (by omega) hms
  refine ⟨hpos, ?_⟩
  rw [expireTick, UInt64.toNat_sub, UInt64.toNat_add, hticks, UInt64.toNat_one]
  omega

theorem WheelRun.held_add {r : WheelRun slots} (ho : r.Ordered) (delayMs : UInt64) :
    Held ⟨r.wheel.nextId, r.wheel.expireTick delayMs, r.adds⟩
      { r with wheel := (r.wheel.addTimer delayMs r.adds).2, adds := r.adds + 1 } := by
  refine ⟨Nat.lt_succ_self _, ?_, fun i f hf hcb => ?_, ?_⟩
  · rw [addTimer_wheels, if_pos rfl]
    exact List.mem_append_right _ (List.mem_singleton_self _)
  · rw [addTimer_wheels, List.mem_append] at hf
    rcases hf with hf | hf
    · exact absurd hcb (Nat.ne_of_lt (ho.known i f hf))
    · split at hf
      · rename_i hi
        exact ⟨List.mem_singleton.mp hf, hi⟩
      · cases hf
  · have hlog : r.log.filter (fun x => x.1 = r.adds) = [] := by
      apply List.filter_eq_nil_iff.mpr
      intro x hx
      simpa using Nat.ne_of_lt (ho.logged x hx)
    have hexp : r.expired.filter (fun m => m = r.adds) = [] := by
      apply List.filter_eq_nil_iff.mpr
      intro n hn
      simpa using Nat.ne_of_lt (ho.taken n hn)
    simp only [firings, awaiting, hlog, hexp, List.map_nil, List.append_nil]

/-- A timer fires once, in the `⌈delay / tick_ms⌉`-th `tick` call after its `add_timer` and in no
other, unless `cancel_timer` is called for its id before that tick starts; and each tick runs its
callbacks in the order of their adds. What the tick in progress has still to run is `awaiting`. -/
theorem timer_fires_once (tickMs : UInt64) (hms : 0 < tickMs) (before after : List WheelEvent)
    (r s : WheelRun slots) (hbefore : run WheelRun.step (.start slots tickMs) before = some r)
    (delayMs : UInt64) (hafter : run WheelRun.step r (.addTimer delayMs :: after) = some s)
    (hd : 0 < delayMs) (hover : delayMs.toNat + tickMs.toNat < 2 ^ 64)
    (htick : r.wheel.currentTick.toNat + delayMs.toNat ⌈/⌉ tickMs.toNat - 1 < 2 ^ 64)
    (hcancel : ∀ p q, after = p ++ .cancelTimer (r.wheel.addTimer delayMs r.adds).1 :: q →
      delayMs.toNat ⌈/⌉ tickMs.toNat ≤ p.count .tick) :
    (s.firings r.adds ++ s.awaiting r.adds =
      if delayMs.toNat ⌈/⌉ tickMs.toNat ≤ after.count .tick then [r.ticks + delayMs.toNat ⌈/⌉ tickMs.toNat]
      else []) ∧
    s.log.Pairwise fun x y => x.2 = y.2 → x.1 < y.1 := by
  have hr : r.Ordered := run_inv (fun _ _ _ h hs => h.step hs) (WheelRun.start_ordered tickMs) hbefore
  have hs : s.Ordered := run_inv (fun _ _ _ h hs => h.step hs) hr hafter
  have hconst : r.wheel.tickMs = tickMs := WheelRun.run_tickMs hbefore
  refine ⟨?_, hs.log⟩
  obtain ⟨hpos, hexpire⟩ := expireTick_toNat r.wheel delayMs hd (hconst ▸ hms) (hconst ▸ hover) (hconst ▸ htick)
  rw [hconst] at hpos hexpire
  generalize hc : delayMs.toNat ⌈/⌉ tickMs.toNat = c at *
  obtain ⟨u, hu, hrun⟩ := run_cons.mp hafter
  have hou : u.Ordered := hr.step hu
  have hticks := WheelRun.run_ticks hrun
  cases hu
  have hearly : r.ticks < r.ticks + c := by omega
  have hclock : r.wheel.currentTick.toNat + (r.ticks + c) = (r.wheel.expireTick delayMs).toNat + 1 + r.ticks := by
    omega
  have hwait := (WheelRun.held_add hr delayMs).waiting hearly hclock
  rcases hwait.run hou (fun p q hpq => Nat.add_le_add_left (hcancel p q hpq) _) hrun with hw | hf
  · have hearly := hw.early
    rw [hticks] at hearly
    rw [if_neg (by dsimp only at hearly; omega)]
    exact hw.idle
  · have hlate := hf.late
    rw [hticks] at hlate
    rw [if_pos (by dsimp only at hlate; omega)]
    exact hf.once

/-- Four slots of 2 ms: a timer of 11 ms goes once round the wheel while others come and go. -/
theorem timer_fires_once_sample :
    ∃ r s : WheelRun 4,
      run WheelRun.step (.start 4 2) [.addTimer 1, .addTimer 3, .tick, .callback] = some r ∧
      run WheelRun.step r
        [.addTimer 11, .cancelTimer 2, .tick, .tick, .addTimer 7, .tick, .tick, .tick, .tick, .callback] = some s ∧
      s.firings 2 = [7] := by
  refine ⟨_, _, rfl, rfl, ?_⟩
  have h := @timer_fires_once 4 _ 2 (by decide) [.addTimer 1, .addTimer 3, .tick, .callback]
    [.cancelTimer 2, .tick, .tick, .addTimer 7, .tick, .tick, .tick, .tick, .callback] _ _ rfl 11 rfl
    (by decide) (by decide) (by decide) ?_
  · exact h.1
  · intro p q hpq
    have hmem : WheelEvent.cancelTimer 3 ∈
        [.cancelTimer 2, .tick, .tick, .addTimer 7, .tick, .tick, .tick, .tick, .callback] := by
      rw [hpq]
      exact List.mem_append_right p List.mem_cons_self
    exact absurd hmem (by decide)

end CoroRpc.Io

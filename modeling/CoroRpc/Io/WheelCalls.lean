import CoroRpc.Io.TimerLedger
import Mathlib.Data.List.Nodup
import Mathlib.Data.Nat.Basic

namespace CoroRpc.Io

open TimingWheel Trace

variable {slots : Nat} [NeZero slots] {w : TimingWheel Nat slots}

/-- A call in progress: the callbacks that `tick` has still to run, the number it will return and the number
that it has run; or the ticks that `advance` has still to make, with its sum so far. -/
inductive WheelCall
  | tick (todo : List Nat) (size : Nat) (ran : Nat)
  | advance (left : Nat) (total : UInt64) (ran : Nat)

namespace WheelCall

def todo : WheelCall → List Nat
  | tick todo _ _ => todo
  | advance _ _ _ => []

def ran : WheelCall → Nat
  | tick _ _ ran => ran
  | advance _ _ ran => ran

def Exact : WheelCall → Prop
  | tick todo size ran => size = ran + todo.length
  | advance _ total ran => total = UInt64.ofNat ran

end WheelCall

-- A wheel with the calls in progress, the innermost first. `cancelled` lists the ids for which `cancel_timer`
-- has returned true, `log` the callbacks that have run, and `returned` what each `tick` and `advance` has
-- returned beside the number of callbacks it ran.
structure WheelCalls (slots : Nat) where
  wheel : TimingWheel Nat slots
  adds : Nat := 0
  cancelled : List UInt64 := []
  log : List Nat := []
  stack : List WheelCall := []
  returned : List (UInt64 × Nat) := []

inductive WheelOp
  | addTimer (delayMs : UInt64)
  | cancelTimer (id : UInt64)
  | tick
  | advance (ticks : UInt64)
  | next
  deriving DecidableEq

namespace WheelCalls

def start (slots : Nat) (tickMs : UInt64) : WheelCalls slots := { wheel := { tickMs } }

def callTick (s : WheelCalls slots) (rest : List WheelCall) : WheelCalls slots :=
  { s with wheel := s.wheel.collect.2, stack := .tick s.wheel.collect.1 s.wheel.collect.1.length 0 :: rest }

/-- No callback runs, and no caller, while `advance` is between two of its ticks. -/
def betweenTicks (s : WheelCalls slots) : Bool :=
  match s.stack with
  | .advance _ _ _ :: _ => true
  | _ => false

def credit (value : UInt64) (ran : Nat) : List WheelCall → List WheelCall
  | .advance left total ran' :: rest => .advance left (total + value) (ran' + ran) :: rest
  | rest => rest

def add (s : WheelCalls slots) (delayMs : UInt64) : WheelCalls slots :=
  { s with wheel := (s.wheel.addTimer delayMs s.adds).2, adds := s.adds + 1 }

def step (s : WheelCalls slots) : WheelOp → Option (WheelCalls slots)
  -- a division by `tick_ms_ = 0` traps
  | .addTimer delayMs => if s.wheel.tickMs = 0 then none else some (s.add delayMs)
  | .cancelTimer id =>
      some { s with
        wheel := (s.wheel.cancelTimer id).2
        cancelled := s.cancelled ++ if (s.wheel.cancelTimer id).1 then [id] else [] }
  | .tick => if s.betweenTicks then none else some (s.callTick s.stack)
  | .advance ticks =>
      if s.betweenTicks then none else some { s with stack := .advance ticks.toNat 0 0 :: s.stack }
  | .next =>
      match s.stack with
      | [] => none
      | .tick (n :: todo) size ran :: rest =>
          some { s with log := s.log ++ [n], stack := .tick todo size (ran + 1) :: rest }
      | .tick [] size ran :: rest =>
          some { s with
            stack := credit (.ofNat size) ran rest
            returned := s.returned ++ [(.ofNat size, ran)] }
      | .advance 0 total ran :: rest => some { s with stack := rest, returned := s.returned ++ [(total, ran)] }
      | .advance (left + 1) total ran :: rest => some (s.callTick (.advance left total ran :: rest))

/-- The callbacks that were taken off the wheel: those that have run, and those that a call in progress will run. -/
def fired (s : WheelCalls slots) : List Nat := s.log ++ s.stack.flatMap WheelCall.todo

def Pending (s : WheelCalls slots) (n : Nat) : Prop :=
  OnWheel s.wheel n ∧ s.fired.count n = 0 ∧ idOf n ∉ s.cancelled

def Fired (s : WheelCalls slots) (n : Nat) : Prop :=
  OffWheel s.wheel n ∧ s.fired.count n = 1 ∧ idOf n ∉ s.cancelled

def Cancelled (s : WheelCalls slots) (n : Nat) : Prop :=
  OffWheel s.wheel n ∧ s.fired.count n = 0 ∧ idOf n ∈ s.cancelled

structure Sound (s : WheelCalls slots) : Prop where
  nextId : s.wheel.nextId = idOf s.adds
  named : Named s.wheel s.adds
  mapped : ∀ id slot, s.wheel.timerSlot id = some slot → ∃ n < s.adds, id = idOf n
  known : ∀ n ∈ s.fired, n < s.adds
  handed : ∀ id ∈ s.cancelled, ∃ n < s.adds, id = idOf n
  one : ∀ n < s.adds, s.Pending n ∨ s.Fired n ∨ s.Cancelled n

omit [NeZero slots] in
theorem start_sound (tickMs : UInt64) : (start slots tickMs).Sound :=
  ⟨rfl, fun _ _ => nofun, fun _ _ => nofun, nofun, nofun, fun _ hn => absurd hn (Nat.not_lt_zero _)⟩

variable {s t : WheelCalls slots}

omit [NeZero slots] in
theorem Sound.of_same (h : s.Sound) (hwheel : t.wheel = s.wheel) (hadds : t.adds = s.adds)
    (hcancelled : t.cancelled = s.cancelled) (hfired : t.fired = s.fired) : t.Sound := by
  have hone := h.one
  refine ⟨?_, ?_, ?_, ?_, ?_, ?_⟩
  · rw [hwheel, hadds]
    exact h.nextId
  · rw [hwheel, hadds]
    exact h.named
  · rw [hwheel, hadds]
    exact h.mapped
  · rw [hfired, hadds]
    exact h.known
  · rw [hcancelled, hadds]
    exact h.handed
  · simp only [Pending, Fired, Cancelled, hwheel, hadds, hcancelled, hfired] at hone ⊢
    exact hone

theorem Sound.add (h : s.Sound) (hadds : s.adds < 2 ^ 64) (delayMs : UInt64) : (s.add delayMs).Sound := by
  have hnext := h.nextId
  refine ⟨?_, named_addTimer h.named hnext delayMs, fun id slot hslot => ?_, fun n hn => ?_, fun id hid => ?_,
    fun n hn => ?_⟩
  · show s.wheel.nextId + 1 = idOf (s.adds + 1)
    rw [hnext, idOf_succ]
  · by_cases hid : id = s.wheel.nextId
    · exact ⟨s.adds, Nat.lt_succ_self _, hid.trans hnext⟩
    · have hslot : Function.update s.wheel.timerSlot s.wheel.nextId _ id = some slot := hslot
      rw [Function.update_of_ne hid] at hslot
      obtain ⟨n, hn, hid⟩ := h.mapped id slot hslot
      exact ⟨n, Nat.lt_succ_of_lt hn, hid⟩
  · exact Nat.lt_succ_of_lt (h.known n hn)
  · obtain ⟨n, hn, hid⟩ := h.handed id hid
    exact ⟨n, Nat.lt_succ_of_lt hn, hid⟩
  · rcases Nat.lt_succ_iff_lt_or_eq.mp hn with hn | rfl
    · rcases h.one n hn with ⟨hon, hrest⟩ | ⟨hoff, hrest⟩ | ⟨hoff, hrest⟩
      · exact .inl ⟨hon.addTimer hnext hadds delayMs hn, hrest⟩
      · exact .inr (.inl ⟨hoff.addTimer hnext hadds delayMs hn, hrest⟩)
      · exact .inr (.inr ⟨hoff.addTimer hnext hadds delayMs hn, hrest⟩)
    · refine .inl ⟨onWheel_addTimer h.named hnext hadds delayMs, ?_, fun hid => ?_⟩
      · exact List.count_eq_zero.mpr fun hmem => absurd (h.known s.adds hmem) (Nat.lt_irrefl _)
      · obtain ⟨m, hm, hsame⟩ := h.handed _ hid
        have heq := idOf_inj hadds (by omega) hsame
        omega

omit [NeZero slots] in
theorem Sound.cancelTimer_true_iff (h : s.Sound) (id : UInt64) :
    (s.wheel.cancelTimer id).1 = true ↔ ∃ n < s.adds, id = idOf n ∧ s.Pending n := by
  constructor
  · intro hret
    cases hslot : s.wheel.timerSlot id with
    | none => simp [TimingWheel.cancelTimer, hslot] at hret
    | some slot =>
        obtain ⟨n, hn, rfl⟩ := h.mapped id slot hslot
        refine ⟨n, hn, rfl, ?_⟩
        rcases h.one n hn with hp | ⟨hoff, -⟩ | ⟨hoff, -⟩
        · exact hp
        · rw [hoff.1] at hslot
          cases hslot
        · rw [hoff.1] at hslot
          cases hslot
  · rintro ⟨n, -, rfl, hp⟩
    exact hp.1.cancelled.1

omit [NeZero slots] in
theorem Sound.cancelTimer (h : s.Sound) (hadds : s.adds ≤ 2 ^ 64) (id : UInt64) :
    Sound { s with
      wheel := (s.wheel.cancelTimer id).2
      cancelled := s.cancelled ++ if (s.wheel.cancelTimer id).1 then [id] else [] } := by
  by_cases hret : (s.wheel.cancelTimer id).1 = true
  · obtain ⟨n, hn, rfl, hp⟩ := (h.cancelTimer_true_iff id).mp hret
    rw [if_pos hret]
    refine ⟨?_, named_cancelTimer h.named _, fun id slot hslot => ?_, h.known, fun id hid => ?_, fun m hm => ?_⟩
    · have hnext := h.nextId
      dsimp only
      rw [TimingWheel.cancelTimer]
      split <;> exact hnext
    · rw [timerSlot_cancelTimer] at hslot
      split at hslot
      · cases hslot
      · exact h.mapped id slot hslot
    · rcases List.mem_append.mp hid with hid | hid
      · exact h.handed id hid
      · exact ⟨n, hn, List.mem_singleton.mp hid⟩
    · by_cases hmn : m = n
      · subst hmn
        refine .inr (.inr ⟨hp.1.cancelled.2.1, hp.2.1, ?_⟩)
        exact List.mem_append_right _ (List.mem_singleton_self _)
      · have hid : idOf m ≠ idOf n := by
          intro heq
          have hm : m < s.adds := hm
          exact hmn (idOf_inj (by omega) (by omega) heq)
        have hkept {ids : List UInt64} : idOf m ∉ ids → idOf m ∉ ids ++ [idOf n] := by
          intro hout hin
          rcases List.mem_append.mp hin with hin | hin
          · exact hout hin
          · exact hid (List.mem_singleton.mp hin)
        rcases h.one m hm with ⟨hon, hcount, hout⟩ | ⟨hoff, hcount, hout⟩ | ⟨hoff, hcount, hin⟩
        · exact .inl ⟨hon.cancelTimer hid, hcount, hkept hout⟩
        · exact .inr (.inl ⟨hoff.cancelTimer _, hcount, hkept hout⟩)
        · exact .inr (.inr ⟨hoff.cancelTimer _, hcount, List.mem_append_left _ hin⟩)
  · -- nothing is found, and nothing is changed
    have hwheel : (s.wheel.cancelTimer id).2 = s.wheel := by
      rw [TimingWheel.cancelTimer] at hret ⊢
      split
      · rfl
      · rename_i hslot
        simp [hslot] at hret
    rw [if_neg hret, List.append_nil, hwheel]
    exact h

theorem count_fired_callTick (rest : List WheelCall)
    (hrest : rest.flatMap WheelCall.todo = s.stack.flatMap WheelCall.todo) (n : Nat) :
    (s.callTick rest).fired.count n = s.fired.count n + s.wheel.collect.1.count n := by
  rw [fired, fired, callTick, List.flatMap_cons, hrest]
  simp only [WheelCall.todo, List.count_append]
  omega

theorem Sound.callTick (h : s.Sound) (hadds : s.adds ≤ 2 ^ 64) {rest : List WheelCall}
    (hrest : rest.flatMap WheelCall.todo = s.stack.flatMap WheelCall.todo) : (s.callTick rest).Sound := by
  have hcount := count_fired_callTick rest hrest
  refine ⟨h.nextId, named_collect h.named, fun id slot hslot => ?_, fun n hn => ?_, h.handed, fun n hn => ?_⟩
  · have hslot : s.wheel.collect.2.timerSlot id = some slot := hslot
    rw [timerSlot_collect] at hslot
    split at hslot
    · cases hslot
    · exact h.mapped id slot hslot
  · rw [← List.count_pos_iff, hcount] at hn
    by_cases hold : n ∈ s.fired
    · exact h.known n hold
    · rw [List.count_eq_zero.mpr hold, Nat.zero_add, List.count_pos_iff] at hn
      obtain ⟨e, he, rfl⟩ := List.mem_map.mp hn
      exact (h.named _ e (List.mem_of_mem_filter he)).1
  · rcases h.one n hn with ⟨hon, hzero, hout⟩ | ⟨hoff, hone, hout⟩ | ⟨hoff, hzero, hin⟩
    · rcases hon.collect h.named hadds hn with ⟨hon, hnone⟩ | ⟨hoff, htaken⟩
      · exact .inl ⟨hon, by rw [hcount, hzero, hnone], hout⟩
      · exact .inr (.inl ⟨hoff, by rw [hcount, hzero, htaken], hout⟩)
    · obtain ⟨hoff, hnone⟩ := hoff.collect h.named hadds hn
      exact .inr (.inl ⟨hoff, by rw [hcount, hone, hnone], hout⟩)
    · obtain ⟨hoff, hnone⟩ := hoff.collect h.named hadds hn
      exact .inr (.inr ⟨hoff, by rw [hcount, hzero, hnone], hin⟩)

theorem flatMap_credit (value : UInt64) (ran : Nat) (rest : List WheelCall) :
    (credit value ran rest).flatMap WheelCall.todo = rest.flatMap WheelCall.todo := by
  cases rest with
  | nil => rfl
  | cons c rest =>
      cases c with
      | tick | advance => rfl

theorem step_addTimer {delayMs : UInt64} (hs : s.step (.addTimer delayMs) = some t) : t = s.add delayMs := by
  simp only [step] at hs
  split at hs
  · cases hs
  · exact (Option.some.inj hs).symm

theorem step_tick (hs : s.step .tick = some t) : t = s.callTick s.stack := by
  simp only [step] at hs
  split at hs
  · cases hs
  · exact (Option.some.inj hs).symm

theorem step_advance {ticks : UInt64} (hs : s.step (.advance ticks) = some t) :
    t = { s with stack := .advance ticks.toNat 0 0 :: s.stack } := by
  simp only [step] at hs
  split at hs
  · cases hs
  · exact (Option.some.inj hs).symm

/-- The call on top runs a callback, or returns, or `advance` makes its next tick. -/
theorem step_next (hs : s.step .next = some t) :
    (∃ n todo size ran rest, s.stack = .tick (n :: todo) size ran :: rest ∧
      t = { s with log := s.log ++ [n], stack := .tick todo size (ran + 1) :: rest }) ∨
    (∃ size ran rest, s.stack = .tick [] size ran :: rest ∧
      t = { s with stack := credit (.ofNat size) ran rest, returned := s.returned ++ [(.ofNat size, ran)] }) ∨
    (∃ total ran rest, s.stack = .advance 0 total ran :: rest ∧
      t = { s with stack := rest, returned := s.returned ++ [(total, ran)] }) ∨
    ∃ left total ran rest, s.stack = .advance (left + 1) total ran :: rest ∧
      t = s.callTick (.advance left total ran :: rest) := by
  simp only [step] at hs
  split at hs
  · cases hs
  · next n todo size ran rest hstack =>
      exact .inl ⟨n, todo, size, ran, rest, hstack, (Option.some.inj hs).symm⟩
  · next size ran rest hstack =>
      exact .inr (.inl ⟨size, ran, rest, hstack, (Option.some.inj hs).symm⟩)
  · next total ran rest hstack =>
      exact .inr (.inr (.inl ⟨total, ran, rest, hstack, (Option.some.inj hs).symm⟩))
  · next left total ran rest hstack =>
      exact .inr (.inr (.inr ⟨left, total, ran, rest, hstack, (Option.some.inj hs).symm⟩))

theorem Sound.step {op : WheelOp} (h : s.Sound) (hs : s.step op = some t) (hadds : t.adds ≤ 2 ^ 64) : t.Sound := by
  cases op with
  | addTimer delayMs =>
      rw [step_addTimer hs] at hadds ⊢
      exact h.add hadds delayMs
  | cancelTimer id =>
      cases hs
      exact h.cancelTimer hadds id
  | tick =>
      rw [step_tick hs] at hadds ⊢
      exact h.callTick hadds rfl
  | advance ticks =>
      rw [step_advance hs]
      exact h.of_same rfl rfl rfl rfl
  | next =>
      rcases step_next hs with ⟨n, todo, size, ran, rest, hstack, rfl⟩ | ⟨size, ran, rest, hstack, rfl⟩ |
        ⟨total, ran, rest, hstack, rfl⟩ | ⟨left, total, ran, rest, hstack, rfl⟩
      · refine h.of_same rfl rfl rfl ?_
        rw [fired, fired, hstack]
        simp [WheelCall.todo]
      · refine h.of_same rfl rfl rfl ?_
        rw [fired, fired, hstack]
        simp [WheelCall.todo, flatMap_credit]
      · refine h.of_same rfl rfl rfl ?_
        rw [fired, fired, hstack]
        simp [WheelCall.todo]
      · apply h.callTick hadds
        rw [hstack]
        simp [WheelCall.todo]

theorem step_grows {op : WheelOp} (hs : s.step op = some t) :
    s.adds ≤ t.adds ∧ ∀ id ∈ s.cancelled, id ∈ t.cancelled := by
  cases op with
  | addTimer delayMs =>
      rw [step_addTimer hs]
      exact ⟨Nat.le_succ _, fun _ h => h⟩
  | cancelTimer id =>
      cases hs
      exact ⟨le_rfl, fun _ h => List.mem_append_left _ h⟩
  | tick =>
      rw [step_tick hs]
      exact ⟨le_rfl, fun _ h => h⟩
  | advance ticks =>
      rw [step_advance hs]
      exact ⟨le_rfl, fun _ h => h⟩
  | next =>
      rcases step_next hs with ⟨_, _, _, _, _, -, rfl⟩ | ⟨_, _, _, -, rfl⟩ | ⟨_, _, _, -, rfl⟩ | ⟨_, _, _, _, -, rfl⟩
      all_goals exact ⟨le_rfl, fun _ h => h⟩

theorem run_adds_le {ops : List WheelOp} (h : run step s ops = some t) : s.adds ≤ t.adds :=
  run_inv (I := fun u => s.adds ≤ u.adds) (fun _ _ _ hle hu => hle.trans (step_grows hu).1) le_rfl h

/-- The bound is on the end of the run, where the number of ids handed out is the largest. -/
theorem Sound.run {ops : List WheelOp} (h : s.Sound) (hs : Trace.run WheelCalls.step s ops = some t)
    (hadds : t.adds ≤ 2 ^ 64) : t.Sound := by
  induction ops generalizing s with
  | nil =>
      rw [run_nil] at hs
      exact hs ▸ h
  | cons op ops ih =>
      obtain ⟨u, hu, hs⟩ := run_cons.mp hs
      exact ih (h.step hu ((run_adds_le hs).trans hadds)) hs

structure Counted (s : WheelCalls slots) : Prop where
  exact : ∀ c ∈ s.stack, c.Exact
  returned : ∀ x ∈ s.returned, x.1 = UInt64.ofNat x.2 ∧ x.2 ≤ s.log.length
  sum : (s.stack.map WheelCall.ran).sum ≤ s.log.length

omit [NeZero slots] in
theorem start_counted (tickMs : UInt64) : (start slots tickMs).Counted := ⟨nofun, nofun, le_rfl⟩

theorem exact_credit {size ran : Nat} {rest : List WheelCall} (hsize : size = ran) (h : ∀ c ∈ rest, c.Exact) :
    ∀ c ∈ credit (.ofNat size) ran rest, c.Exact := by
  subst hsize
  cases rest with
  | nil => exact h
  | cons c rest =>
      cases c with
      | tick => exact h
      | advance left total ran =>
          rw [credit, List.forall_mem_cons]
          rw [List.forall_mem_cons] at h
          refine ⟨?_, h.2⟩
          have htotal : total = UInt64.ofNat ran := h.1
          show total + UInt64.ofNat size = UInt64.ofNat (ran + size)
          rw [htotal, UInt64.ofNat_add]

theorem sum_credit (value : UInt64) (ran : Nat) (rest : List WheelCall) :
    ((credit value ran rest).map WheelCall.ran).sum ≤ ran + (rest.map WheelCall.ran).sum := by
  cases rest with
  | nil => exact Nat.le_add_left _ _
  | cons c rest =>
      cases c with
      | tick => exact Nat.le_add_left _ _
      | advance left total ran' =>
          simp only [credit, List.map_cons, List.sum_cons, WheelCall.ran]
          omega

omit [NeZero slots] in
theorem Counted.returns (h : s.Counted) {value : UInt64} {ran : Nat} (hvalue : value = UInt64.ofNat ran)
    (hran : ran ≤ s.log.length) :
    ∀ x ∈ s.returned ++ [(value, ran)], x.1 = UInt64.ofNat x.2 ∧ x.2 ≤ s.log.length := by
  intro x hx
  rcases List.mem_append.mp hx with hx | hx
  · exact h.returned x hx
  · rw [List.mem_singleton.mp hx]
    exact ⟨hvalue, hran⟩

theorem Counted.callTick (h : s.Counted) {rest : List WheelCall} (hexact : ∀ c ∈ rest, c.Exact)
    (hsum : (rest.map WheelCall.ran).sum = (s.stack.map WheelCall.ran).sum) : (s.callTick rest).Counted := by
  refine ⟨?_, h.returned, ?_⟩
  · rw [WheelCalls.callTick, List.forall_mem_cons]
    exact ⟨(Nat.zero_add _).symm, hexact⟩
  · have hle := h.sum
    rw [WheelCalls.callTick, List.map_cons, List.sum_cons, hsum, WheelCall.ran, Nat.zero_add]
    exact hle

theorem Counted.step {op : WheelOp} (h : s.Counted) (hs : s.step op = some t) : t.Counted := by
  cases op with
  | addTimer delayMs =>
      rw [step_addTimer hs]
      exact ⟨h.exact, h.returned, h.sum⟩
  | cancelTimer id =>
      cases hs
      exact ⟨h.exact, h.returned, h.sum⟩
  | tick =>
      rw [step_tick hs]
      exact h.callTick h.exact rfl
  | advance ticks =>
      rw [step_advance hs]
      refine ⟨List.forall_mem_cons.mpr ⟨rfl, h.exact⟩, h.returned, ?_⟩
      have hle := h.sum
      rw [List.map_cons, List.sum_cons, WheelCall.ran, Nat.zero_add]
      exact hle
  | next =>
      have hexact := h.exact
      have hsum := h.sum
      rcases step_next hs with ⟨n, todo, size, ran, rest, hstack, rfl⟩ | ⟨size, ran, rest, hstack, rfl⟩ |
        ⟨total, ran, rest, hstack, rfl⟩ | ⟨left, total, ran, rest, hstack, rfl⟩
      · rw [hstack, List.forall_mem_cons] at hexact
        rw [hstack, List.map_cons, List.sum_cons, WheelCall.ran] at hsum
        refine ⟨List.forall_mem_cons.mpr ⟨?_, hexact.2⟩, fun x hx => ?_, ?_⟩
        · have hsize : size = ran + (todo.length + 1) := hexact.1
          show size = ran + 1 + todo.length
          omega
        · refine ⟨(h.returned x hx).1, (h.returned x hx).2.trans ?_⟩
          rw [List.length_append]
          exact Nat.le_add_right _ _
        · rw [List.map_cons, List.sum_cons, WheelCall.ran, List.length_append, List.length_singleton]
          omega
      · rw [hstack, List.forall_mem_cons] at hexact
        rw [hstack, List.map_cons, List.sum_cons, WheelCall.ran] at hsum
        have hsize : size = ran := hexact.1
        exact ⟨exact_credit hsize hexact.2, h.returns (congrArg UInt64.ofNat hsize) (by omega),
          (sum_credit _ ran rest).trans hsum⟩
      · rw [hstack, List.forall_mem_cons] at hexact
        rw [hstack, List.map_cons, List.sum_cons, WheelCall.ran] at hsum
        exact ⟨hexact.2, h.returns hexact.1 (by omega), (Nat.le_add_left _ _).trans hsum⟩
      · rw [hstack, List.forall_mem_cons] at hexact
        refine h.callTick (List.forall_mem_cons.mpr ⟨?_, hexact.2⟩) ?_
        · exact hexact.1
        · rw [hstack]
          rfl

omit [NeZero slots] in
theorem Sound.log_length_le (h : s.Sound) : s.log.length ≤ s.adds := by
  have hnodup : s.log.Nodup := by
    rw [List.nodup_iff_count_le_one]
    intro n
    by_cases hn : n ∈ s.fired
    · have hle : s.log.count n ≤ s.fired.count n := by
        rw [fired, List.count_append]
        exact Nat.le_add_right _ _
      rcases h.one n (h.known n hn) with ⟨-, hcount, -⟩ | ⟨-, hcount, -⟩ | ⟨-, hcount, -⟩
      · exact hle.trans (hcount.le.trans (Nat.zero_le 1))
      · exact hle.trans hcount.le
      · exact hle.trans (hcount.le.trans (Nat.zero_le 1))
    · have hlog : n ∉ s.log := fun hin => hn (List.mem_append_left _ hin)
      rw [List.count_eq_zero.mpr hlog]
      exact Nat.zero_le 1
  have hsub : s.log ⊆ List.range s.adds := fun n hn => List.mem_range.mpr (h.known n (List.mem_append_left _ hn))
  have hle := (List.subperm_of_subset hnodup hsub).length_le
  rwa [List.length_range] at hle

/-- The timer is in one of the three conditions and in no other. -/
def ExactlyOne (s : WheelCalls slots) (n : Nat) : Prop :=
  s.Pending n ∧ ¬s.Fired n ∧ ¬s.Cancelled n ∨ ¬s.Pending n ∧ s.Fired n ∧ ¬s.Cancelled n ∨
    ¬s.Pending n ∧ ¬s.Fired n ∧ s.Cancelled n

omit [NeZero slots] in
theorem Sound.exactlyOne (h : s.Sound) {n : Nat} (hn : n < s.adds) : s.ExactlyOne n := by
  have hpf : s.Pending n → ¬s.Fired n := fun hp hf => not_onWheel_and_offWheel hp.1 hf.1
  have hpc : s.Pending n → ¬s.Cancelled n := fun hp hc => not_onWheel_and_offWheel hp.1 hc.1
  have hfc : s.Fired n → ¬s.Cancelled n := fun hf hc => hf.2.2 hc.2.2
  rcases h.one n hn with hp | hf | hc
  · exact .inl ⟨hp, hpf hp, hpc hp⟩
  · exact .inr (.inl ⟨fun hp => hpf hp hf, hf, hfc hf⟩)
  · exact .inr (.inr ⟨fun hp => hpc hp hc, fun hf => hfc hf hc, hc⟩)

/-- A cancelled timer stays cancelled: its id is not forgotten, and the other conditions exclude it. -/
theorem Sound.cancelled_run {ops : List WheelOp} (h : s.Sound) {n : Nat} (hn : n < s.adds) (hc : s.Cancelled n)
    (hs : Trace.run WheelCalls.step s ops = some t) (hadds : t.adds ≤ 2 ^ 64) : t.Cancelled n := by
  have hid : idOf n ∈ t.cancelled :=
    run_inv (I := fun u => idOf n ∈ u.cancelled) (fun _ _ _ hid hu => (step_grows hu).2 _ hid) hc.2.2 hs
  rcases (h.run hs hadds).one n (hn.trans_le (run_adds_le hs)) with hp | hf | hc
  · exact absurd hid hp.2.2
  · exact absurd hid hf.2.2
  · exact hc

end WheelCalls

open WheelCalls in
/-- As long as the ids are different: each timer is pending, fired or cancelled; `cancel_timer` finds the
pending ones, takes away that one alone and for good; and the counts that `tick` and `advance` return
are those of the callbacks they ran. -/
theorem wheel_bookkeeping (tickMs : UInt64) (ops : List WheelOp) (s : WheelCalls slots)
    (hs : run step (start slots tickMs) ops = some s) (hadds : s.adds ≤ 2 ^ 64) :
    (∀ n < s.adds, s.ExactlyOne n) ∧
    (∀ id, (s.wheel.cancelTimer id).1 = true ↔ ∃ n < s.adds, id = idOf n ∧ s.Pending n) ∧
    (∀ n < s.adds, s.Pending n → ∃ t, s.step (.cancelTimer (idOf n)) = some t ∧ t.Cancelled n ∧
      (∀ i, t.wheel.wheels i = (s.wheel.wheels i).filter fun e => e.id ≠ idOf n) ∧
      ∀ id ≠ idOf n, t.wheel.timerSlot id = s.wheel.timerSlot id) ∧
    (∀ n < s.adds, s.Cancelled n → ∀ more t, run step s more = some t → t.adds ≤ 2 ^ 64 → t.Cancelled n) ∧
    ∀ x ∈ s.returned, x.1 = UInt64.ofNat x.2 ∧ x.2 ≤ s.adds := by
  have hsound := (start_sound tickMs).run hs hadds
  have hcounted : s.Counted := run_inv (fun _ _ _ h hs => h.step hs) (start_counted tickMs) hs
  refine ⟨fun n hn => hsound.exactlyOne hn, hsound.cancelTimer_true_iff, fun n hn hp => ?_,
    fun n hn hc more t ht hle => hsound.cancelled_run hn hc ht hle, fun x hx => ?_⟩
  · obtain ⟨hret, hoff, hwheels⟩ := hp.1.cancelled
    refine ⟨_, rfl, ⟨hoff, hp.2.1, ?_⟩, hwheels, fun id hid => ?_⟩
    · rw [if_pos hret]
      exact List.mem_append_right _ (List.mem_singleton_self _)
    · rw [timerSlot_cancelTimer, if_neg hid]
  · exact ⟨(hcounted.returned x hx).1, (hcounted.returned x hx).2.trans hsound.log_length_le⟩

open WheelCalls in
/-- One timer is cancelled, one fires in `advance(2)`, one stays. -/
theorem wheel_bookkeeping_advance :
    ∃ s : WheelCalls 4, run step (start 4 1)
        [.addTimer 1, .addTimer 3, .addTimer 9, .cancelTimer 2, .advance 2, .next, .next, .next, .next, .next,
          .next] = some s ∧
      (∀ n < 3, s.ExactlyOne n) ∧ s.returned = [(1, 1), (0, 0), (1, 1)] := by
  have h := @wheel_bookkeeping 4 _ 1 [.addTimer 1, .addTimer 3, .addTimer 9, .cancelTimer 2, .advance 2, .next, .next,
    .next, .next, .next, .next] _ rfl (by decide)
  exact ⟨_, rfl, h.1, rfl⟩

namespace WheelCalls

/-- A timer that is added and cancelled leaves nothing on an empty wheel but the next id. -/
theorem cancelTimer_addTimer (tickMs delayMs nextId : UInt64) (callback : Nat) :
    (cancelTimer (addTimer { tickMs, nextId : TimingWheel Nat slots } delayMs callback).2 nextId) =
      (true, { tickMs, nextId := nextId + 1 }) := by
  simp only [TimingWheel.addTimer, TimingWheel.cancelTimer, Function.update_self, Function.update_idem, List.nil_append]
  congr 2
  · funext i
    simp
  · funext id
    simp

def addAndCancel (delayMs : UInt64) (k : Nat) : List WheelOp :=
  (List.range k).flatMap fun n => [.addTimer delayMs, .cancelTimer (idOf n)]

theorem run_addAndCancel {tickMs : UInt64} (hms : tickMs ≠ 0) (delayMs : UInt64) (k : Nat) :
    ∃ s : WheelCalls slots, Trace.run step (start slots tickMs) (addAndCancel delayMs k) = some s ∧
      s.adds = k ∧ s.wheel = { tickMs, nextId := idOf k } ∧ s.fired = [] := by
  induction k with
  | zero => exact ⟨_, rfl, rfl, rfl, rfl⟩
  | succ k ih =>
      obtain ⟨s, hs, hadds, hwheel, hfired⟩ := ih
      rw [addAndCancel, List.range_succ, List.flatMap_append, ← addAndCancel, List.flatMap_singleton]
      have hcancel := @cancelTimer_addTimer slots _ tickMs delayMs (idOf k) s.adds
      rw [← hwheel] at hcancel
      have hadd : s.step (.addTimer delayMs) = some (s.add delayMs) := by
        rw [step, hwheel, if_neg hms]
      refine ⟨_, run_append hs (run_cons.mpr ⟨_, hadd, run_cons.mpr ⟨_, rfl, run_nil.mpr rfl⟩⟩),
        congrArg (· + 1) hadds, ?_, hfired⟩
      rw [← idOf_succ]
      exact congrArg Prod.snd hcancel

end WheelCalls

open WheelCalls in
/-- With `2 ^ 64` timers that were cancelled the ids have gone round: the id 1 of the first of them stands for one
that is pending. -/
theorem wheel_ids_repeat :
    ∃ s : WheelCalls 64, run step (start 64 1) (addAndCancel 1 (2 ^ 64) ++ [.addTimer 1]) = some s ∧
      0 < s.adds ∧ ¬s.ExactlyOne 0 := by
  obtain ⟨s, hs, hadds, hwheel, hfired⟩ := @run_addAndCancel 64 _ 1 (by decide) 1 (2 ^ 64)
  have hadd : s.step (.addTimer 1) = some (s.add 1) := by
    rw [step, hwheel, if_neg (by decide)]
  refine ⟨_, run_append hs (run_cons.mpr ⟨_, hadd, run_nil.mpr rfl⟩), Nat.succ_pos _, ?_⟩
  rintro (⟨hp, -⟩ | ⟨-, hf, -⟩ | ⟨-, -, hc⟩)
  · obtain ⟨⟨slot, e, hcallback, -, hfilter⟩, -⟩ := hp
    have hmem : e ∈ (s.wheel.addTimer 1 s.adds).2.wheels slot := by
      have he : e ∈ ((s.add 1).wheel.wheels slot).filter fun e => e.id = idOf 0 := by
        rw [hfilter slot, if_pos rfl]
        exact List.mem_singleton_self e
      exact List.mem_of_mem_filter he
    rw [addTimer_wheels, hwheel] at hmem
    split at hmem
    · rw [List.mem_singleton.mp hmem, hadds] at hcallback
      cases hcallback
    · cases hmem
  · have hone : s.fired.count 0 = 1 := hf.2.1
    rw [hfired] at hone
    cases hone
  · have hoff : (s.wheel.addTimer 1 s.adds).2.timerSlot (idOf 0) = none := hc.1.1
    rw [hwheel] at hoff
    cases hoff

end CoroRpc.Io

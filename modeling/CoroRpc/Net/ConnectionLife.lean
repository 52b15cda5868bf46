import CoroRpc.Lib.Trace
import CoroRpc.Net.Connection
import Mathlib.Algebra.Order.Ring.Int

namespace CoroRpc.Net

open Trace

-- A connection with the calls that are suspended in it. Descriptors are numbered in the order in which they are
-- opened. `closes` lists the descriptors passed to `::close`, `atClose` those that the connection held when a
-- `close` was called, and `settled` says that a `close` has returned and no `async_connect` has been started
-- since.
structure ConnectionRun where
  conn : Connection
  opened : Nat
  connecting : Nat := 0
  transferring : Nat := 0
  destroyed : Bool := false
  closes : List Int := []
  atClose : List Int := []
  settled : Bool := false

/-- An `async_connect` is begun, with whether `socket` succeeds if it is called, and completes; so does an
`async_read` or `async_write`, which may fail. -/
inductive ConnectionEvent
  | connect (opens : Bool)
  | connectDone (ok : Bool)
  | transfer
  | transferDone (fails : Bool)
  | close
  | destroy

namespace ConnectionRun

def create (fd : Bool) : ConnectionRun :=
  if fd then { conn := { fd := 0, state := .connected, arrivals := [] }, opened := 1 }
  else { conn := { fd := -1, state := .disconnected, arrivals := [] }, opened := 0 }

def close (r : ConnectionRun) : ConnectionRun :=
  { r with
    conn := r.conn.close
    closes := if r.conn.connected ∧ 0 ≤ r.conn.fd then r.closes ++ [r.conn.fd] else r.closes
    atClose := if 0 ≤ r.conn.fd then r.atClose ++ [r.conn.fd] else r.atClose
    settled := true }

def setState (r : ConnectionRun) (state : ConnectionState) : ConnectionRun :=
  { r with conn := { r.conn with state } }

def connect (r : ConnectionRun) (opens : Bool) : ConnectionRun :=
  if r.conn.fd < 0 then
    if opens then
      { r with
        conn := { r.conn with fd := r.opened, state := .connecting }
        opened := r.opened + 1
        connecting := r.connecting + 1
        settled := false }
    else { r with settled := false }
  else { r.setState .connecting with connecting := r.connecting + 1, settled := false }

def step (r : ConnectionRun) (e : ConnectionEvent) : Option ConnectionRun :=
  if r.destroyed then none
  else
    match e with
    | .connect opens => some (r.connect opens)
    | .connectDone ok =>
        if 0 < r.connecting then
          some
            { r.setState (if ok then .connected else .disconnected) with
              connecting := r.connecting - 1 }
        else none
    | .transfer => if r.conn.connected then some { r with transferring := r.transferring + 1 } else none
    | .transferDone fails =>
        if 0 < r.transferring then
          let r := { r with transferring := r.transferring - 1 }
          some (if fails then r.close else r)
        else none
    | .close => some r.close
    | .destroy => some { r.close with destroyed := true }

structure ClosedForGood (r : ConnectionRun) : Prop where
  once : ∀ d ∈ r.atClose, r.closes.count d = 1
  disconnected : r.settled → ¬r.conn.connected

/-- A `close` finds the connection connected or without a descriptor, and no `async_connect` that was in
flight at a `close` succeeds behind it. -/
def InTime (r : ConnectionRun) : ConnectionEvent → Prop
  | .close | .destroy | .transferDone true => r.conn.connected ∨ r.conn.fd < 0
  | .connectDone true => ¬r.settled
  | _ => True

structure Fresh (r : ConnectionRun) : Prop where
  held : 0 ≤ r.conn.fd → r.conn.fd ∉ r.closes
  fd_lt : r.conn.fd < r.opened
  closes_lt : ∀ d ∈ r.closes, d < r.opened

variable {r r' : ConnectionRun} {e : ConnectionEvent}

theorem fresh_create (fd : Bool) : (create fd).Fresh := by
  cases fd
  · exact ⟨by simp [create], by simp [create], by simp [create]⟩
  · exact ⟨by simp [create], by simp [create], by simp [create]⟩

theorem closedForGood_create (fd : Bool) : (create fd).ClosedForGood := by
  cases fd
  · exact ⟨by simp [create], by simp [create]⟩
  · exact ⟨by simp [create], by simp [create]⟩

theorem Fresh.close (h : r.Fresh) : r.close.Fresh := by
  by_cases hc : r.conn.connected
  · refine ⟨fun hfd => ?_, ?_, fun d hd => ?_⟩
    · simp [ConnectionRun.close, Connection.close_fd, hc] at hfd
    · simp only [ConnectionRun.close, Connection.close_fd, hc, if_true]
      omega
    · simp only [ConnectionRun.close] at hd ⊢
      split at hd
      · obtain hd | hd := List.mem_append.mp hd
        · exact h.closes_lt d hd
        · rw [List.mem_singleton.mp hd]
          exact h.fd_lt
      · exact h.closes_lt d hd
  · have hclose : r.close.closes = r.closes := by
      simp [ConnectionRun.close, hc]
    have hfd : r.close.conn.fd = r.conn.fd := by
      simp [ConnectionRun.close, Connection.close_fd, hc]
    refine ⟨?_, ?_, ?_⟩
    · rw [hclose, hfd]
      exact h.held
    · rw [hfd]
      exact h.fd_lt
    · rw [hclose]
      exact h.closes_lt

theorem Fresh.connect (h : r.Fresh) (opens : Bool) : (r.connect opens).Fresh := by
  rw [ConnectionRun.connect]
  split
  · split
    · refine ⟨fun _ hmem => ?_, ?_, fun d hd => ?_⟩
      · exact absurd (h.closes_lt _ hmem) (Int.lt_irrefl _)
      · exact Int.ofNat_lt.mpr (Nat.lt_succ_self _)
      · exact (h.closes_lt d hd).trans (Int.ofNat_lt.mpr (Nat.lt_succ_self _))
    · exact ⟨h.held, h.fd_lt, h.closes_lt⟩
  · exact ⟨h.held, h.fd_lt, h.closes_lt⟩

theorem step_fresh (h : r.Fresh) (hs : r.step e = some r') : r'.Fresh := by
  simp only [step] at hs
  split at hs
  · cases hs
  · cases e with
    | connect opens =>
        cases hs
        exact h.connect opens
    | connectDone ok =>
        simp only [Option.ite_none_right_eq_some, Option.some.injEq] at hs
        obtain ⟨-, rfl⟩ := hs
        exact ⟨h.held, h.fd_lt, h.closes_lt⟩
    | transfer =>
        simp only [Option.ite_none_right_eq_some, Option.some.injEq] at hs
        obtain ⟨-, rfl⟩ := hs
        exact ⟨h.held, h.fd_lt, h.closes_lt⟩
    | transferDone fails =>
        simp only [Option.ite_none_right_eq_some, Option.some.injEq] at hs
        obtain ⟨-, rfl⟩ := hs
        cases fails with
        | true =>
            apply Fresh.close
            exact ⟨h.held, h.fd_lt, h.closes_lt⟩
        | false => exact ⟨h.held, h.fd_lt, h.closes_lt⟩
    | close =>
        cases hs
        exact h.close
    | destroy =>
        cases hs
        exact ⟨h.close.held, h.close.fd_lt, h.close.closes_lt⟩

/-- What a `close` must find to be effective. -/
theorem closedForGood_close_iff (h : r.Fresh) (hg : r.ClosedForGood) :
    r.close.ClosedForGood ↔ r.conn.connected ∨ r.conn.fd < 0 := by
  have hout : r.close.settled → ¬r.close.conn.connected := fun _ => r.conn.not_connected_close
  by_cases hfd : 0 ≤ r.conn.fd
  · have hnew := h.held hfd
    by_cases hc : r.conn.connected
    · refine iff_of_true ⟨fun d hd => ?_, hout⟩ (.inl hc)
      simp only [close, hc, hfd, true_and, if_true, List.mem_append, List.mem_singleton] at hd ⊢
      rw [List.count_append]
      obtain hd | rfl := hd
      · have hne : d ≠ r.conn.fd := by
          rintro rfl
          have hone := hg.once _ hd
          rw [List.count_eq_zero_of_not_mem hnew] at hone
          cases hone
        simp [hg.once d hd, hne.symm]
      · simp [List.count_eq_zero_of_not_mem hnew]
    · have hnot : ¬(r.conn.connected ∨ r.conn.fd < 0) := by
        rintro (hcon | hneg)
        · exact hc hcon
        · omega
      refine iff_of_false (fun hgood => ?_) hnot
      have hone := hgood.once r.conn.fd (by simp [close, hfd])
      simp only [close, hc, Bool.false_eq_true, false_and, if_false] at hone
      rw [List.count_eq_zero_of_not_mem hnew] at hone
      cases hone
  · refine iff_of_true ⟨fun d hd => ?_, hout⟩ (.inr (Int.not_le.mp hfd))
    simp only [close, hfd, and_false, if_false] at hd ⊢
    exact hg.once d hd

theorem closedForGood_step_iff (h : r.Fresh) (hg : r.ClosedForGood) (hs : r.step e = some r') :
    r'.ClosedForGood ↔ r.InTime e := by
  simp only [step] at hs
  split at hs
  · cases hs
  · cases e with
    | connect opens =>
        cases hs
        refine iff_of_true ?_ trivial
        rw [connect]
        split
        · split
          · exact ⟨hg.once, fun hset => by cases hset⟩
          · exact ⟨hg.once, fun hset => by cases hset⟩
        · exact ⟨hg.once, fun hset => by cases hset⟩
    | connectDone ok =>
        simp only [Option.ite_none_right_eq_some, Option.some.injEq] at hs
        obtain ⟨-, rfl⟩ := hs
        cases ok with
        | true =>
            constructor
            · intro hgood hset
              exact hgood.disconnected hset rfl
            · intro hset
              exact ⟨hg.once, fun hset' => absurd hset' hset⟩
        | false => exact iff_of_true ⟨hg.once, fun _ => by simp [setState, Connection.connected]⟩ trivial
    | transfer =>
        simp only [Option.ite_none_right_eq_some, Option.some.injEq] at hs
        obtain ⟨-, rfl⟩ := hs
        exact iff_of_true ⟨hg.once, hg.disconnected⟩ trivial
    | transferDone fails =>
        simp only [Option.ite_none_right_eq_some, Option.some.injEq] at hs
        obtain ⟨-, rfl⟩ := hs
        cases fails with
        | true =>
            exact closedForGood_close_iff (r := { r with transferring := r.transferring - 1 })
              ⟨h.held, h.fd_lt, h.closes_lt⟩ ⟨hg.once, hg.disconnected⟩
        | false => exact iff_of_true ⟨hg.once, hg.disconnected⟩ trivial
    | close =>
        cases hs
        exact closedForGood_close_iff h hg
    | destroy =>
        cases hs
        refine Iff.trans ?_ (closedForGood_close_iff h hg)
        exact ⟨fun hd => ⟨hd.once, hd.disconnected⟩, fun hd => ⟨hd.once, hd.disconnected⟩⟩

end ConnectionRun

/-- `close` acts on a connection that is connected and on no other: it is effective throughout a run
exactly when no `close` finds a descriptor that is not connected and no `async_connect` completes behind
it. -/
theorem close_closedForGood_iff (fd : Bool) (evs : List ConnectionEvent) (r : ConnectionRun)
    (h : run ConnectionRun.step (.create fd) evs = some r) :
    Throughout ConnectionRun.step ConnectionRun.ClosedForGood (.create fd) evs ↔
      EachStep ConnectionRun.step ConnectionRun.InTime (.create fd) evs :=
  throughout_iff (I := ConnectionRun.Fresh) (fun _ _ _ hf hs => ConnectionRun.step_fresh hf hs)
    (fun _ _ _ hf hg hs => ConnectionRun.closedForGood_step_iff hf hg hs) (ConnectionRun.fresh_create fd)
    (ConnectionRun.closedForGood_create fd) h

def closeTwice : List ConnectionEvent := [.transfer, .transferDone true, .close, .destroy]

theorem close_closedForGood_twice :
    Throughout ConnectionRun.step ConnectionRun.ClosedForGood (.create true) closeTwice := by
  refine (close_closedForGood_iff true closeTwice _ rfl).mpr ?_
  refine (eachStep_cons rfl).mpr ⟨trivial, (eachStep_cons rfl).mpr ⟨.inl rfl, ?_⟩⟩
  exact (eachStep_cons rfl).mpr ⟨.inr (by decide), (eachStep_cons rfl).mpr ⟨.inr (by decide), eachStep_nil⟩⟩

/-- After a connect that fails, `close` and the destructor leave the descriptor open; and a connect that is
in flight connects a connection that has been closed. -/
theorem close_without_effect :
    (∃ r, run ConnectionRun.step (.create true) [.connect true, .connectDone false, .close, .destroy] = some r ∧
      r.closes = [] ∧ ¬r.ClosedForGood) ∧
    ∃ r, run ConnectionRun.step (.create false) [.connect true, .close, .connectDone true] = some r ∧
      r.settled ∧ r.conn.connected ∧ ¬r.ClosedForGood := by
  refine ⟨⟨_, rfl, rfl, fun hg => ?_⟩, ⟨_, rfl, rfl, rfl, fun hg => hg.disconnected rfl rfl⟩⟩
  exact absurd (hg.once 0 (by decide)) (by decide)

end CoroRpc.Net

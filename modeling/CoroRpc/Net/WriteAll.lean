import CoroRpc.Lib.Loop
import CoroRpc.Lib.Trace
import CoroRpc.Net.Connection

namespace CoroRpc.Net

open Loop Trace

structure Gapless (buffer : Bytes) (ws : List Write) (written : Nat) : Prop where
  bytes : (ws.map Write.wire).flatten = buffer.take written
  count : (ws.map (·.accepted)).sum = written
  bound : written ≤ buffer.length
  each : ∀ before w after, ws = before ++ w :: after →
    w.buffer = buffer.drop (before.map (·.accepted)).sum

theorem Gapless.nil (buffer : Bytes) : Gapless buffer [] 0 := by
  refine ⟨rfl, rfl, Nat.zero_le _, ?_⟩
  intro before w after h
  exact absurd h.symm (by simp)

theorem Gapless.snoc {buffer : Bytes} {ws : List Write} {written n : Nat} (h : Gapless buffer ws written)
    (hn : n ≤ buffer.length - written) :
    Gapless buffer (ws ++ [⟨buffer.drop written, n⟩]) (written + n) := by
  have hbound := h.bound
  refine ⟨?_, ?_, by omega, ?_⟩
  · rw [List.map_append, List.flatten_append, h.bytes, List.take_add]
    simp [Write.wire]
  · rw [List.map_append, List.sum_append, h.count]
    simp
  · intro before w after heq
    rcases concat_split heq with ⟨rfl, rfl⟩ | ⟨after', -, hws⟩
    · rw [h.count]
    · exact h.each before w after' hws

theorem send_le (size : Nat) (answers : List SendResult) : (send size answers).1 ≤ size := by
  cases answers with
  | nil => exact Int.le_refl _
  | cons a rest =>
      cases a with
      | fail errno =>
          simp only [send]
          omega
      | accept n =>
          simp only [send]
          omega

/-- Without an error a `send` takes a byte, if there is one. -/
theorem send_nonpos {size : Nat} {answers : List SendResult} (hsize : 0 < size)
    (h : (send size answers).1 ≤ 0) : ∃ errno, answers.head? = some (.fail errno) := by
  cases answers with
  | nil =>
      simp only [send] at h
      omega
  | cons a rest =>
      cases a with
      | fail errno => exact ⟨errno, rfl⟩
      | accept n =>
          simp only [send] at h
          omega

theorem send_rest (size : Nat) (answers : List SendResult) : (send size answers).2 = answers.tail := by
  cases answers with
  | nil => rfl
  | cons a rest => cases a <;> rfl

-- Whether somebody else closes the connection in one round of the loop: before `connected()` is tested, which
-- is also where a close during the last `send` shows, or between the test and the `send`.
structure Closes where
  beforeTest : Bool := false
  beforeSend : Bool := false

namespace Connection

def closeIf (b : Bool) (c : Connection) : Connection := if b then c.close else c

structure WriteAll where
  conn : Connection
  written : Nat := 0
  round : Nat := 0

def writeAllBody (others : Nat → Closes) (buffer : Bytes) (s : WriteAll) : Flow WriteAll :=
  let c := s.conn.closeIf (others s.round).beforeTest
  if s.written < buffer.length ∧ c.connected then
    let r := (c.closeIf (others s.round).beforeSend).asyncWrite (buffer.drop s.written)
    if r.1 ≤ 0 then .stop ⟨r.2, s.written, s.round⟩
    else .next ⟨r.2, s.written + r.1.toNat, s.round + 1⟩
  else .stop ⟨c, s.written, s.round⟩

/-- Every round but the last writes a byte, so the loop is left within these rounds. -/
def writeAllLoop (c : Connection) (others : Nat → Closes) (buffer : Bytes) : Flow WriteAll :=
  iterate (writeAllBody others buffer) (buffer.length + 1) (.next ⟨c, 0, 0⟩)

def asyncWriteAll (c : Connection) (others : Nat → Closes) (buffer : Bytes) : Nat × Connection :=
  let s := (c.writeAllLoop others buffer).state
  (s.written, s.conn)

theorem closeIf_writes (b : Bool) (c : Connection) : (c.closeIf b).writes = c.writes := by
  cases b
  · rfl
  · exact close_writes c

theorem close_sends (c : Connection) : c.close.sends = c.sends := by
  rw [close]
  split <;> rfl

theorem closeIf_sends (b : Bool) (c : Connection) : (c.closeIf b).sends = c.sends := by
  cases b
  · rfl
  · exact close_sends c

theorem connected_of_closeIf {b : Bool} {c : Connection} (h : (c.closeIf b).connected) :
    b = false ∧ c.connected := by
  cases b
  · exact ⟨rfl, h⟩
  · exact absurd h c.not_connected_close

theorem asyncWrite_spec {c : Connection} (hc : c.connected) (buffer : Bytes) :
    (c.asyncWrite buffer).1 = (send buffer.length c.sends).1 ∧
      (c.asyncWrite buffer).2.writes =
        c.writes ++ [⟨buffer, (send buffer.length c.sends).1.toNat⟩] ∧
      (c.asyncWrite buffer).2.sends = c.sends.tail := by
  simp only [asyncWrite, hc, Bool.not_true, Bool.false_eq_true, if_false, send_rest, true_and]
  split
  · exact ⟨close_writes _, close_sends _⟩
  · exact ⟨rfl, rfl⟩

theorem asyncWrite_not_connected {c : Connection} (hc : ¬c.connected) (buffer : Bytes) :
    c.asyncWrite buffer = (-1, c) := by
  simp [asyncWrite, hc]

/-- What may keep a call that issued so many writes from writing everything. -/
def Interrupted (c : Connection) (others : Nat → Closes) (writes : Nat) : Prop :=
  ¬c.connected ∨ (∃ i ≤ writes, (others i).beforeTest ∨ (others i).beforeSend) ∨
    ∃ errno, .fail errno ∈ c.sends.take writes

variable {c : Connection} {others : Nat → Closes} {buffer : Bytes} {s t : WriteAll}

theorem writeAllBody_next (h : writeAllBody others buffer s = .next t) :
    s.conn.connected ∧ t.conn.connected ∧ s.written < buffer.length ∧
      ∃ n, 0 < n ∧ n ≤ buffer.length - s.written ∧ t.written = s.written + n ∧ t.round = s.round + 1 ∧
        t.conn.writes = s.conn.writes ++ [⟨buffer.drop s.written, n⟩] ∧ t.conn.sends = s.conn.sends.tail := by
  simp only [writeAllBody] at h
  split at h
  · next htest =>
      split at h
      · cases h
      · next hpos =>
          have hconn : ((s.conn.closeIf (others s.round).beforeTest).closeIf
              (others s.round).beforeSend).connected := by
            by_contra hconn
            rw [asyncWrite_not_connected hconn] at hpos
            exact hpos (Int.neg_nonpos_of_nonneg Int.one_nonneg)
          obtain ⟨hcount, hwrites, hsends⟩ := asyncWrite_spec hconn (buffer.drop s.written)
          have hle := send_le (buffer.drop s.written).length s.conn.sends
          rw [List.length_drop] at hle
          cases h
          refine ⟨(connected_of_closeIf htest.2).2, asyncWrite_connected (Int.not_le.mp hpos), htest.1, _,
            ?_, ?_, rfl, rfl, ?_, ?_⟩
          · omega
          · rw [hcount, closeIf_sends, closeIf_sends, List.length_drop]
            omega
          · rw [hwrites, closeIf_writes, closeIf_writes, hcount]
          · rw [hsends, closeIf_sends, closeIf_sends]
  · cases h

/-- A round that leaves the loop: nothing is left, or the connection is gone, or the last write fails. -/
theorem writeAllBody_stop (h : writeAllBody others buffer s = .stop t) :
    t.written = s.written ∧
      (t.conn.writes = s.conn.writes ∧
          (buffer.length ≤ s.written ∨ ¬s.conn.connected ∨ (others s.round).beforeTest ∨
            (others s.round).beforeSend) ∨
        t.conn.writes = s.conn.writes ++ [⟨buffer.drop s.written, 0⟩] ∧
          ∃ errno, s.conn.sends.head? = some (.fail errno)) := by
  simp only [writeAllBody] at h
  split at h
  · next htest =>
      split at h
      · next hneg =>
          cases h
          refine ⟨rfl, ?_⟩
          by_cases hconn : ((s.conn.closeIf (others s.round).beforeTest).closeIf
              (others s.round).beforeSend).connected
          · right
            obtain ⟨hcount, hwrites, -⟩ := asyncWrite_spec hconn (buffer.drop s.written)
            rw [hcount] at hneg
            rw [closeIf_sends, closeIf_sends] at hneg hwrites
            rw [closeIf_writes, closeIf_writes, Int.toNat_of_nonpos hneg] at hwrites
            refine ⟨hwrites, send_nonpos ?_ hneg⟩
            rw [List.length_drop]
            omega
          · left
            rw [asyncWrite_not_connected hconn]
            refine ⟨by rw [closeIf_writes, closeIf_writes], .inr (.inr (.inr ?_))⟩
            by_contra hopen
            rw [Bool.eq_false_of_not_eq_true hopen] at hconn
            exact hconn htest.2
      · cases h
  · next htest =>
      cases h
      refine ⟨rfl, .inl ⟨closeIf_writes _ _, ?_⟩⟩
      by_contra hall
      simp only [not_or, Nat.not_le, not_not] at hall
      obtain ⟨hlt, hconn, hopen, -⟩ := hall
      rw [Bool.eq_false_of_not_eq_true hopen] at htest
      exact htest ⟨hlt, hconn⟩

structure Writing (c : Connection) (buffer : Bytes) (s : WriteAll) : Prop where
  connected : c.connected → s.conn.connected
  sends : s.conn.sends = c.sends.drop s.round
  writes : ∃ ws, s.conn.writes = c.writes ++ ws ∧ ws.length = s.round ∧ Gapless buffer ws s.written

theorem Writing.start (c : Connection) (buffer : Bytes) : Writing c buffer ⟨c, 0, 0⟩ :=
  ⟨id, rfl, [], (List.append_nil _).symm, rfl, .nil buffer⟩

theorem Writing.next (h : Writing c buffer s) (hs : writeAllBody others buffer s = .next t) :
    Writing c buffer t := by
  obtain ⟨-, hconn, -, n, -, hn, hwritten, hround, hwrites, hsends⟩ := writeAllBody_next hs
  obtain ⟨ws, hws, hlength, hgapless⟩ := h.writes
  refine ⟨fun _ => hconn, ?_, ws ++ [⟨buffer.drop s.written, n⟩], ?_, ?_, ?_⟩
  · rw [hsends, h.sends, List.tail_drop, hround]
  · rw [hwrites, hws, List.append_assoc]
  · rw [List.length_append, hlength, hround]
    rfl
  · rw [hwritten]
    exact hgapless.snoc hn

theorem Writing.stop (h : Writing c buffer s) (hs : writeAllBody others buffer s = .stop t) :
    ∃ ws, t.conn.writes = c.writes ++ ws ∧ Gapless buffer ws t.written ∧
      (t.written = buffer.length ∨ c.Interrupted others ws.length) := by
  obtain ⟨ws, hws, hlength, hgapless⟩ := h.writes
  obtain ⟨hwritten, ⟨hsame, hwhy⟩ | ⟨hmore, errno, hfail⟩⟩ := writeAllBody_stop hs
  · rw [hwritten, hsame]
    refine ⟨ws, hws, hgapless, ?_⟩
    rcases hwhy with hall | hconn | hclosed
    · exact .inl (Nat.le_antisymm hgapless.bound hall)
    · exact .inr (.inl fun hc => hconn (h.connected hc))
    · exact .inr (.inr (.inl ⟨s.round, Nat.le_of_eq hlength.symm, hclosed⟩))
  · rw [hwritten, hmore, hws, List.append_assoc]
    refine ⟨ws ++ [⟨buffer.drop s.written, 0⟩], rfl, hgapless.snoc (Nat.zero_le _), .inr (.inr (.inr ⟨errno, ?_⟩))⟩
    rw [h.sends, List.head?_drop] at hfail
    rw [List.length_append, List.length_singleton, hlength]
    apply List.mem_of_getElem? (i := s.round)
    rw [List.getElem?_take_of_lt (Nat.lt_succ_self s.round)]
    exact hfail

theorem writeAllLoop_stops (c : Connection) (others : Nat → Closes) (buffer : Bytes) :
    ∃ t, c.writeAllLoop others buffer = .stop t := by
  apply iterate_stops (fun s => buffer.length - s.written)
  · intro s t h
    obtain ⟨-, -, hlt, n, hpos, -, hwritten, -⟩ := writeAllBody_next h
    omega
  · exact Nat.lt_succ_of_le (Nat.sub_le _ _)

end Connection

end CoroRpc.Net

namespace CoroRpc.Io

open Loop Net Trace

structure FileWrite extends Write where
  offset : Nat

structure WriteAll where
  written : Nat
  answers : List SendResult
  issued : List FileWrite

def writeAllBody (buffer : Bytes) (s : WriteAll) : Flow WriteAll :=
  if s.written < buffer.length then
    let rest := buffer.drop s.written
    let r := send rest.length s.answers
    let issued := s.issued ++ [⟨⟨rest, r.1.toNat⟩, s.written⟩]
    if r.1 ≤ 0 then .stop ⟨s.written, r.2, issued⟩
    else .next ⟨s.written + r.1.toNat, r.2, issued⟩
  else .stop s

def writeAllLoop (answers : List SendResult) (buffer : Bytes) : Flow WriteAll :=
  iterate (writeAllBody buffer) (buffer.length + 1) (.next ⟨0, answers, []⟩)

def asyncWriteAll (answers : List SendResult) (buffer : Bytes) : Nat :=
  (writeAllLoop answers buffer).state.written

variable {answers : List SendResult} {buffer : Bytes} {s t : WriteAll}

/-- The offset of each write is the number of bytes written before it. -/
def AtOffsets (issued : List FileWrite) : Prop :=
  ∀ before w after, issued = before ++ w :: after → w.offset = (before.map (·.accepted)).sum

theorem AtOffsets.snoc {issued : List FileWrite} (h : AtOffsets issued) (w : FileWrite)
    (hw : w.offset = (issued.map (·.accepted)).sum) : AtOffsets (issued ++ [w]) := by
  intro before v after heq
  rcases concat_split heq with ⟨rfl, rfl⟩ | ⟨after', -, hissued⟩
  · exact hw
  · exact h before v after' hissued

structure Writing (answers : List SendResult) (buffer : Bytes) (s : WriteAll) : Prop where
  gapless : Gapless buffer (s.issued.map (·.toWrite)) s.written
  offsets : AtOffsets s.issued
  answers : s.answers = answers.drop s.issued.length

theorem Writing.start (answers : List SendResult) (buffer : Bytes) : Writing answers buffer ⟨0, answers, []⟩ :=
  ⟨.nil buffer, fun _ _ _ h => absurd h.symm (by simp), rfl⟩

theorem Writing.snoc (h : Writing answers buffer s) {n : Nat} (hn : n ≤ buffer.length - s.written) :
    Writing answers buffer
      ⟨s.written + n, s.answers.tail, s.issued ++ [⟨⟨buffer.drop s.written, n⟩, s.written⟩]⟩ := by
  refine ⟨?_, ?_, ?_⟩
  · rw [List.map_append]
    exact h.gapless.snoc hn
  · apply h.offsets.snoc
    rw [← h.gapless.count, List.map_map]
    rfl
  · rw [h.answers, List.tail_drop, List.length_append]
    rfl

theorem writeAllBody_next (h : Writing answers buffer s) (hs : writeAllBody buffer s = .next t) :
    Writing answers buffer t ∧ s.written < t.written := by
  simp only [writeAllBody, send_rest] at hs
  split at hs
  · split at hs
    · cases hs
    · next hpos =>
        cases hs
        have hle := send_le (buffer.drop s.written).length s.answers
        rw [List.length_drop] at hle
        refine ⟨h.snoc ?_, ?_⟩
        · rw [List.length_drop]
          omega
        · show s.written < s.written + _
          omega
  · cases hs

theorem writeAllBody_stop (h : Writing answers buffer s) (hs : writeAllBody buffer s = .stop t) :
    Writing answers buffer t ∧
      (t.written = buffer.length ∨ ∃ errno, .fail errno ∈ answers.take t.issued.length) := by
  simp only [writeAllBody, send_rest] at hs
  split at hs
  · next hlt =>
      split at hs
      · next hneg =>
          cases hs
          rw [Int.toNat_of_nonpos hneg]
          refine ⟨h.snoc (Nat.zero_le _), .inr ?_⟩
          obtain ⟨errno, hfail⟩ := send_nonpos (by rw [List.length_drop]; omega) hneg
          rw [h.answers, List.head?_drop] at hfail
          refine ⟨errno, List.mem_of_getElem? (i := s.issued.length) ?_⟩
          rw [List.length_append, List.length_singleton, List.getElem?_take_of_lt (Nat.lt_succ_self _)]
          exact hfail
      · cases hs
  · next hge =>
      cases hs
      exact ⟨h, .inl (Nat.le_antisymm h.gapless.bound (Nat.not_lt.mp hge))⟩

theorem writeAllLoop_stops (answers : List SendResult) (buffer : Bytes) :
    ∃ t, writeAllLoop answers buffer = .stop t := by
  apply iterate_stops (fun s => buffer.length - s.written)
  · intro s t hs
    simp only [writeAllBody] at hs
    split at hs
    · split at hs
      · cases hs
      · cases hs
        show buffer.length - (s.written + _) < _
        omega
    · cases hs
  · exact Nat.lt_succ_of_le (Nat.sub_le _ _)

end CoroRpc.Io

namespace CoroRpc.Net

/-- Both write-all loops end, whatever the writes return and whenever the connection is closed. What has
been accepted is the beginning of the buffer, as long as the returned count says, and this is all of it
unless a write failed or the connection was closed. The writes to a file stand one after the other in it. -/
theorem async_write_all_gapless :
    (∀ (c : Connection) (others : Nat → Closes) (buffer : Bytes), ∃ t ws,
      c.writeAllLoop others buffer = .stop t ∧
        c.asyncWriteAll others buffer = (t.written, t.conn) ∧ t.conn.writes = c.writes ++ ws ∧
        Gapless buffer ws t.written ∧ (t.written = buffer.length ∨ c.Interrupted others ws.length)) ∧
      ∀ (answers : List SendResult) (buffer : Bytes), ∃ t,
        Io.writeAllLoop answers buffer = .stop t ∧ Io.asyncWriteAll answers buffer = t.written ∧
          Gapless buffer (t.issued.map (·.toWrite)) t.written ∧ Io.AtOffsets t.issued ∧
          (t.written = buffer.length ∨ ∃ errno, .fail errno ∈ answers.take t.issued.length) := by
  constructor
  · intro c others buffer
    obtain ⟨t, ht⟩ := c.writeAllLoop_stops others buffer
    obtain ⟨u, hu, hstop⟩ :=
      Loop.stop_inv (fun _ _ h hs => Connection.Writing.next h hs) (Connection.Writing.start c buffer) ht
    obtain ⟨ws, hws, hgapless, hall⟩ := hu.stop hstop
    exact ⟨t, ws, ht, by rw [Connection.asyncWriteAll, ht]; rfl, hws, hgapless, hall⟩
  · intro answers buffer
    obtain ⟨t, ht⟩ := Io.writeAllLoop_stops answers buffer
    obtain ⟨u, hu, hstop⟩ :=
      Loop.stop_inv (fun _ _ h hs => (Io.writeAllBody_next h hs).1) (Io.Writing.start answers buffer) ht
    obtain ⟨hwriting, hall⟩ := Io.writeAllBody_stop hu hstop
    exact ⟨t, ht, by rw [Io.asyncWriteAll, ht]; rfl, hwriting.gapless, hwriting.offsets, hall⟩

end CoroRpc.Net

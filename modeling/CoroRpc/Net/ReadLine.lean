import CoroRpc.Lib.Loop
import CoroRpc.Net.Connection

namespace CoroRpc.Net

open Loop

def ahead : List Arrival → Bytes
  | .data (b :: bs) :: rest => b :: bs ++ ahead rest
  | _ => []

namespace Connection

structure ReadLine where
  conn : Connection
  line : Bytes := []

def newline : UInt8 := 10

def readLineBody (s : ReadLine) : Flow ReadLine :=
  if s.conn.connected then
    let r := s.conn.asyncRead 1
    let s := { s with conn := r.2.2 }
    if r.1 ≤ 0 then .stop s
    else
      let ch := r.2.1.headD 0
      if ch = newline then .stop s else .next { s with line := s.line ++ [ch] }
  else .stop s

def asyncReadLine (c : Connection) : Bytes × Connection :=
  let s := (iterate readLineBody (c.pending + 1) (.next { conn := c })).state
  (s.line, s.conn)

def readLines : Nat → Connection → List Bytes × Connection
  | 0, c => ([], c)
  | k + 1, c =>
      let line := c.asyncReadLine
      let lines := line.2.readLines k
      (line.1 :: lines.1, lines.2)

variable {c : Connection} {s t : ReadLine}

theorem asyncRead_byte (hc : c.connected) :
    (∃ d n, ahead c.arrivals = [] ∧ c.asyncRead 1 = (n, [], d) ∧ n ≤ 0 ∧ ¬d.connected) ∨
      ∃ b d, ahead c.arrivals = b :: ahead d.arrivals ∧ c.asyncRead 1 = (1, [b], d) ∧ d.connected := by
  have hclosed (d : Connection) : ¬d.handleError.connected := not_connected_close d
  simp only [asyncRead, hc, Bool.not_true, Bool.false_eq_true, if_false]
  cases ha : c.arrivals with
  | nil => exact .inl ⟨_, 0, rfl, rfl, Int.le_refl 0, hclosed _⟩
  | cons a rest =>
      cases a with
      | fail errno =>
          have hn : -(errno : Int) ≤ 0 := by omega
          refine .inl ⟨({ c with arrivals := rest } : Connection).handleError, -(errno : Int), rfl, ?_, hn, hclosed _⟩
          simp only [recv, hn, if_true]
      | data bs =>
          cases bs with
          | nil => exact .inl ⟨_, 0, rfl, rfl, Int.le_refl 0, hclosed _⟩
          | cons b bs =>
              right
              cases bs with
              | nil => exact ⟨b, { c with arrivals := rest }, rfl, rfl, hc⟩
              | cons b' bs =>
                  refine ⟨b, { c with arrivals := .data (b' :: bs) :: rest }, rfl, ?_, hc⟩
                  have hlong : ¬((b :: b' :: bs).length ≤ 1) := by simp
                  have hcount : min ((b :: b' :: bs).length : Int) ((1 : Nat) : Int) = 1 := by
                    rw [List.length_cons, List.length_cons]
                    omega
                  simp only [recv, hlong, if_false, hcount]
                  rfl

theorem readLineBody_pending (h : readLineBody s = .next t) : t.conn.pending < s.conn.pending := by
  simp only [readLineBody] at h
  split at h
  · split at h
    · cases h
    · next hpos =>
        split at h
        · cases h
        · cases h
          exact s.conn.asyncRead_pending 1 (Int.not_le.mp hpos)
  · cases h

theorem asyncReadLine_eq {n : Nat} (h : iterate readLineBody n (.next { conn := c }) = .stop t) :
    c.asyncReadLine = (t.line, t.conn) := by
  obtain ⟨u, hu⟩ := iterate_stops (fun s : ReadLine => s.conn.pending) (fun _ _ hs => readLineBody_pending hs)
    (c.pending + 1) { conn := c } (Nat.lt_succ_self _)
  have htu : t = u := by
    have hleft := iterate_mono h (Nat.le_max_left n (c.pending + 1))
    rw [iterate_mono hu (Nat.le_max_right n (c.pending + 1))] at hleft
    exact (Flow.stop.inj hleft).symm
  rw [asyncReadLine, hu, htu]
  rfl

/-- The loop ends behind the next newline, or where the stream does. -/
theorem iterate_readLineBody (hc : s.conn.connected) :
    ∃ n t head tail, iterate readLineBody n (.next s) = .stop t ∧ t.line = s.line ++ head ∧
      (ahead s.conn.arrivals).splitOn newline = head :: tail ∧
      (tail = [] ∧ ¬t.conn.connected ∨ t.conn.connected ∧ (ahead t.conn.arrivals).splitOn newline = tail) := by
  generalize hstream : ahead s.conn.arrivals = stream
  induction stream generalizing s with
  | nil =>
      obtain ⟨d, n, -, hread, hn, hd⟩ | ⟨b, d, hb, -⟩ := asyncRead_byte hc
      · refine ⟨1, { s with conn := d }, [], [], ?_, (List.append_nil _).symm, rfl, .inl ⟨rfl, hd⟩⟩
        apply iterate_last
        simp only [readLineBody, hc, if_true, hread, hn]
      · rw [hstream] at hb
        cases hb
  | cons b stream ih =>
      obtain ⟨d, n, hnil, -⟩ | ⟨b', d, hb, hread, hd⟩ := asyncRead_byte hc
      · rw [hstream] at hnil
        cases hnil
      · rw [hstream] at hb
        obtain ⟨rfl, hrest⟩ := List.cons.inj hb
        by_cases hnl : b = newline
        · refine ⟨1, { s with conn := d }, [], stream.splitOn newline, ?_, (List.append_nil _).symm, ?_, .inr ⟨hd, ?_⟩⟩
          · apply iterate_last
            simp [readLineBody, hc, hread, hnl]
          · simp [List.splitOn, List.splitOnP_cons_eq_if_modifyHead, hnl]
          · rw [hrest]
        · obtain ⟨n, t, head, tail, ht, hline, hsplit, hend⟩ := @ih { s with conn := d, line := s.line ++ [b] } hd hrest.symm
          refine ⟨n + 1, t, b :: head, tail, ?_, ?_, ?_, hend⟩
          · rw [iterate_next (t := { s with conn := d, line := s.line ++ [b] }), ht]
            simp [readLineBody, hc, hread, hnl]
          · rw [hline, List.append_assoc, List.singleton_append]
          · rw [List.splitOn] at hsplit ⊢
            rw [List.splitOnP_cons_eq_if_modifyHead, hsplit]
            simp [hnl]

theorem asyncReadLine_not_connected (hc : ¬c.connected) : c.asyncReadLine = ([], c) := by
  have hstop : iterate readLineBody 1 (.next { conn := c }) = .stop { conn := c } := by
    apply iterate_last
    simp [readLineBody, hc]
  exact asyncReadLine_eq hstop

theorem readLines_not_connected (hc : ¬c.connected) (k : Nat) :
    c.readLines k = (List.replicate k [], c) := by
  induction k with
  | zero => rfl
  | succ k ih => rw [readLines, asyncReadLine_not_connected hc, ih, List.replicate_succ]

/-- The calls of `async_read_line` yield the lines of the stream one after the other, the last of them without a
newline, however the transport cuts it, and empty lines behind its end. -/
theorem readLines_splitOn (hc : c.connected) (k : Nat) :
    (c.readLines k).1 = ((ahead c.arrivals).splitOn newline ++ List.replicate k []).take k ∧
      ((c.readLines k).2.connected ↔ k < ((ahead c.arrivals).splitOn newline).length) := by
  induction k generalizing c with
  | zero =>
      have hne : (ahead c.arrivals).splitOn newline ≠ [] := List.splitOnP_ne_nil _ _
      exact ⟨rfl, by simpa [readLines, hc] using List.length_pos_iff.mpr hne⟩
  | succ k ih =>
      obtain ⟨n, t, head, tail, ht, hline, hsplit, hend⟩ := @iterate_readLineBody { conn := c } hc
      rw [readLines, asyncReadLine_eq ht, hsplit, hline, List.nil_append]
      obtain ⟨rfl, hclosed⟩ | ⟨hopen, hrest⟩ := hend
      · rw [readLines_not_connected hclosed, List.singleton_append, List.take_succ_cons, List.take_replicate,
          Nat.min_eq_left (Nat.le_succ k)]
        simp [hclosed]
      · obtain ⟨hlines, hconn⟩ := ih hopen
        rw [hrest] at hlines hconn
        constructor
        · rw [hlines, List.cons_append, List.take_succ_cons, List.take_append, List.take_append, List.take_replicate,
            List.take_replicate, Nat.min_eq_left (Nat.sub_le k _), Nat.min_eq_left (Nat.le_succ_of_le (Nat.sub_le k _))]
        · rw [hconn, List.length_cons, Nat.add_lt_add_iff_right]

theorem readLines_two_lines :
    let c : Connection := { fd := 3, state := .connected, arrivals := [.data [65], .data [66, 10, 67], .data [10, 68]] }
    (c.readLines 4).1 = (([[65, 66], [67], [68]] : List Bytes) ++ List.replicate 4 []).take 4 ∧
      ((c.readLines 4).2.connected ↔ 4 < 3) :=
  readLines_splitOn rfl 4

end Connection

end CoroRpc.Net

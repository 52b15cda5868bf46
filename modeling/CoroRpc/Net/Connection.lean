import CoroRpc.Lib.Words

namespace CoroRpc.Net

inductive ConnectionState
  | disconnected | connecting | connected | closing | closed
  deriving DecidableEq, Repr

/-- What the next `recv` finds at the socket: bytes that have arrived together, or an error. -/
inductive Arrival
  | data (bytes : Bytes)
  | fail (errno : Nat)
  deriving DecidableEq

/-- How the kernel answers the next `send`: it takes some of the bytes, or fails. -/
inductive SendResult
  | accept (n : Nat)
  | fail (errno : Nat)
  deriving DecidableEq

structure Write where
  buffer : Bytes
  accepted : Nat
  deriving DecidableEq

def Write.wire (w : Write) : Bytes := w.buffer.take w.accepted

def Write.Complete (w : Write) : Prop := w.accepted = w.buffer.length

structure Connection where
  fd : Int
  state : ConnectionState
  closeCallback : Bool := false
  closeCalls : Nat := 0
  arrivals : List Arrival
  sends : List SendResult := []
  writes : List Write := []
  deriving DecidableEq

/-- The peer has closed once nothing is left; else `recv` returns at once with what has
arrived, cut at `size` bytes. -/
def recv (size : Nat) : List Arrival → Int × Bytes × List Arrival
  | [] => (0, [], [])
  | .fail errno :: rest => (-errno, [], rest)
  | .data bs :: rest =>
      (min bs.length size, bs.take size, if bs.length ≤ size then rest else .data (bs.drop size) :: rest)

/-- At least one byte of a non-empty buffer is taken unless `send` fails; without an entry
for it, a `send` takes its whole buffer. -/
def send (size : Nat) : List SendResult → Int × List SendResult
  | [] => (size, [])
  | .fail errno :: rest => (-errno, rest)
  | .accept n :: rest => (min (max n 1) size, rest)

namespace Connection

def connected (c : Connection) : Bool := c.state == .connected

def close (c : Connection) : Connection :=
  if c.state = .connected then
    { c with
      fd := -1, state := .closed
      closeCalls := if c.closeCallback then c.closeCalls + 1 else c.closeCalls }
  else c

def handleError (c : Connection) : Connection := c.close

def asyncRead (c : Connection) (size : Nat) : Int × Bytes × Connection :=
  if !c.connected then (-1, [], c)
  else
    let r := recv size c.arrivals
    let c := { c with arrivals := r.2.2 }
    (r.1, r.2.1, if r.1 ≤ 0 then c.handleError else c)

def asyncWrite (c : Connection) (buffer : Bytes) : Int × Connection :=
  if !c.connected then (-1, c)
  else
    let r := send buffer.length c.sends
    let c := { c with sends := r.2, writes := c.writes ++ [⟨buffer, r.1.toNat⟩] }
    (r.1, if r.1 ≤ 0 then c.handleError else c)

@[simp] theorem close_arrivals (c : Connection) : c.close.arrivals = c.arrivals := by
  rw [close]
  split <;> rfl

@[simp] theorem close_writes (c : Connection) : c.close.writes = c.writes := by
  rw [close]
  split <;> rfl

theorem close_fd (c : Connection) : c.close.fd = if c.connected then -1 else c.fd := by
  by_cases h : c.state = .connected
  · simp [close, connected, h]
  · simp [close, connected, h]

theorem not_connected_close (c : Connection) : ¬c.close.connected := by
  by_cases h : c.state = .connected
  · simp [close, connected, h]
  · simp [close, connected, h]

def pending (c : Connection) : Nat :=
  (c.arrivals.map fun
    | .data bs => bs.length
    | .fail _ => 0).sum

theorem asyncRead_pending (c : Connection) (size : Nat) (h : 0 < (c.asyncRead size).1) :
    (c.asyncRead size).2.2.pending < c.pending := by
  unfold asyncRead at *
  by_cases hc : c.connected
  · simp only [hc, Bool.not_true, Bool.false_eq_true, if_false] at h ⊢
    rw [if_neg (by omega)]
    cases ha : c.arrivals with
    | nil => simp [ha, recv] at h
    | cons a rest =>
        cases a with
        | fail errno =>
            simp only [ha, recv] at h
            omega
        | data bs =>
            simp only [ha, recv] at h
            simp only [recv, pending, ha, List.map_cons, List.sum_cons]
            split
            · omega
            · simp only [List.map_cons, List.sum_cons, List.length_drop]
              omega
  · simp [hc] at h

theorem asyncWrite_pending (c : Connection) (buffer : Bytes) :
    (c.asyncWrite buffer).2.pending = c.pending := by
  rw [asyncWrite]
  split
  · rfl
  · simp only [pending]
    split <;> simp [handleError]

end Connection

/-- Each arrival is a run of whole parts: no part is cut. -/
inductive WholeParts : List Arrival → List Bytes → Prop
  | nil : WholeParts [] []
  | cons {parts : List Bytes} {rest : List Arrival} {later : List Bytes} (hne : parts ≠ [])
      (h : WholeParts rest later) : WholeParts (.data parts.flatten :: rest) (parts ++ later)

theorem WholeParts.eq_nil {arrivals : List Arrival} (h : WholeParts arrivals []) : arrivals = [] := by
  generalize hp : ([] : List Bytes) = parts at h
  cases h with
  | nil => rfl
  | cons hne _ => exact absurd (List.append_eq_nil_iff.mp hp.symm).1 hne

/-- The transport that has everything ready: every read gets all it asks for. -/
def whole (stream : Bytes) : List Arrival := if stream = [] then [] else [.data stream]

theorem WholeParts.whole {parts : List Bytes} (hp : [] ∉ parts) : WholeParts (whole parts.flatten) parts := by
  cases parts with
  | nil => exact .nil
  | cons part later =>
      have hne : (part :: later).flatten ≠ [] := by
        rintro he
        rw [List.flatten_cons, List.append_eq_nil_iff] at he
        exact hp (he.1 ▸ List.mem_cons_self)
      rw [Net.whole, if_neg hne]
      have h := WholeParts.cons (List.cons_ne_nil part later) .nil
      rwa [List.append_nil] at h

theorem recv_part {arrivals : List Arrival} {part : Bytes} {later : List Bytes}
    (hl : [] ∉ later) (h : WholeParts arrivals (part :: later)) :
    ∃ rest, recv part.length arrivals = ((part.length : Int), part, rest) ∧ WholeParts rest later := by
  generalize hp : part :: later = parts at h
  cases h with
  | nil => simp at hp
  | cons hne hrest =>
      rename_i run rest after
      cases run with
      | nil => exact absurd rfl hne
      | cons first run =>
          simp only [List.cons_append, List.cons.injEq] at hp
          obtain ⟨rfl, rfl⟩ := hp
          cases run with
          | nil => exact ⟨rest, by simp [recv], by simpa using hrest⟩
          | cons second run =>
              -- the read stops inside the arrival, at the start of `second`
              have hpos : 0 < second.length := by
                apply List.length_pos_iff.mpr
                rintro rfl
                simp at hl
              refine ⟨.data (second :: run).flatten :: rest, ?_, .cons (by simp) hrest⟩
              have hle : ¬(part.length + (second.length + (List.map List.length run).sum) ≤ part.length) := by
                omega
              simp only [recv, List.flatten_cons, List.length_append, List.length_flatten, hle, if_false,
                List.take_left, List.drop_left, Prod.mk.injEq, and_true]
              omega

/-- The reads that ask for the parts, one after the other, get each of them whole. -/
inductive Reads : List Arrival → List Bytes → List Arrival → Prop
  | nil (arrivals : List Arrival) : Reads arrivals [] arrivals
  | cons {part : Bytes} {later : List Bytes} {arrivals next rest : List Arrival}
      (h : recv part.length arrivals = ((part.length : Int), part, next)) (hlater : Reads next later rest) :
      Reads arrivals (part :: later) rest

theorem reads_append {a c : List Arrival} (xs : List Bytes) {ys : List Bytes} (h : Reads a (xs ++ ys) c) :
    ∃ b, Reads a xs b ∧ Reads b ys c := by
  induction xs generalizing a with
  | nil => exact ⟨a, .nil a, h⟩
  | cons x xs ih =>
      cases h with
      | cons hrecv hlater =>
          obtain ⟨b, hxs, hys⟩ := ih hlater
          exact ⟨b, .cons hrecv hxs, hys⟩

theorem WholeParts.reads {arrivals : List Arrival} {parts later : List Bytes}
    (h : WholeParts arrivals (parts ++ later)) (hl : [] ∉ parts ++ later) :
    ∃ rest, Reads arrivals parts rest ∧ WholeParts rest later := by
  induction parts generalizing arrivals with
  | nil => exact ⟨arrivals, .nil arrivals, h⟩
  | cons part parts ih =>
      rw [List.cons_append, List.mem_cons, not_or] at hl
      obtain ⟨next, hrecv, hnext⟩ := recv_part hl.2 h
      obtain ⟨rest, hparts, hrest⟩ := ih hnext hl.2
      exact ⟨rest, .cons hrecv hparts, hrest⟩

/-- The stream arrives in pieces, cut anywhere. -/
def Carries (arrivals : List Arrival) (stream : Bytes) : Prop :=
  ∃ segments : List Bytes, arrivals = segments.map .data ∧ [] ∉ segments ∧ segments.flatten = stream

theorem Carries.eq_nil {arrivals : List Arrival} (h : Carries arrivals []) : arrivals = [] := by
  obtain ⟨segments, rfl, hne, hflat⟩ := h
  cases segments with
  | nil => rfl
  | cons segment segments =>
      rw [List.flatten_cons, List.append_eq_nil_iff] at hflat
      exact absurd (hflat.1 ▸ List.mem_cons_self) hne

/-- A read gets the next bytes of the stream: as many as it asks for, or less. -/
theorem Carries.recv {arrivals : List Arrival} {stream : Bytes} (h : Carries arrivals stream) {size : Nat}
    (hsize : 0 < size) (hne : stream ≠ []) :
    ∃ (n : Nat) (rest : List Arrival), Net.recv size arrivals = ((n : Int), stream.take n, rest) ∧ 0 < n ∧
      n ≤ size ∧ n ≤ stream.length ∧ Carries rest (stream.drop n) := by
  obtain ⟨segments, rfl, hnil, rfl⟩ := h
  cases segments with
  | nil => exact absurd rfl hne
  | cons segment segments =>
      rw [List.mem_cons, not_or] at hnil
      have hpos : 0 < segment.length := List.length_pos_iff.mpr (Ne.symm hnil.1)
      rw [List.flatten_cons]
      by_cases hle : segment.length ≤ size
      · refine ⟨segment.length, segments.map .data, ?_, hpos, hle, by simp, segments, rfl, hnil.2, by simp⟩
        simp [Net.recv, hle, List.take_of_length_le hle]
      · have hlt := Nat.not_le.mp hle
        refine ⟨size, .data (segment.drop size) :: segments.map .data, ?_, hsize, le_rfl, ?_, ?_⟩
        · rw [List.take_append_of_le_length hlt.le]
          simp [Net.recv, hle, hlt.le]
        · rw [List.length_append]
          omega
        · refine ⟨segment.drop size :: segments, rfl, ?_, ?_⟩
          · rw [List.mem_cons, not_or]
            refine ⟨fun hdrop => ?_, hnil.2⟩
            have hlen := congrArg List.length hdrop
            rw [List.length_nil, List.length_drop] at hlen
            omega
          · rw [List.flatten_cons, List.drop_append_of_le_length hlt.le]

theorem length_recv (size : Nat) (arrivals : List Arrival) : (recv size arrivals).2.1.length ≤ size := by
  cases arrivals with
  | nil => exact Nat.zero_le size
  | cons a rest =>
      cases a with
      | fail errno => exact Nat.zero_le size
      | data bs => exact List.length_take_le size bs

/-- What a read gets of the next part of the stream. -/
theorem Carries.recv_part {arrivals : List Arrival} {part later : Bytes} (h : Carries arrivals (part ++ later))
    (hp : part ≠ []) :
    ∃ (n : Nat) (rest : List Arrival), Net.recv part.length arrivals = ((n : Int), part.take n, rest) ∧ 0 < n ∧
      n ≤ part.length ∧ (n = part.length → Carries rest later) := by
  have hpos : 0 < part.length := List.length_pos_iff.mpr hp
  obtain ⟨n, rest, hr, hn, hle, -, hrest⟩ := h.recv hpos (List.append_ne_nil_of_left_ne_nil hp later)
  rw [List.take_append_of_le_length hle] at hr
  refine ⟨n, rest, hr, hn, hle, ?_⟩
  rintro rfl
  rwa [List.drop_left] at hrest

theorem Carries.of_reads {arrivals rest : List Arrival} {parts : List Bytes} {later : Bytes}
    (h : Carries arrivals (parts.flatten ++ later)) (hp : [] ∉ parts) (hr : Reads arrivals parts rest) :
    Carries rest later := by
  induction hr with
  | nil arrivals => exact h
  | @cons part parts arrivals next rest hrecv _ ih =>
      rw [List.mem_cons, not_or] at hp
      rw [List.flatten_cons, List.append_assoc] at h
      obtain ⟨n, next', hr, -, -, hnext⟩ := h.recv_part (Ne.symm hp.1)
      obtain ⟨hn, hrest⟩ := Prod.mk.inj (hrecv.symm.trans hr)
      obtain ⟨-, rfl⟩ := Prod.mk.inj hrest
      exact ih (hnext (Int.ofNat_inj.mp hn.symm)) hp.2

namespace Connection

theorem asyncRead_recv {c : Connection} (hc : c.connected) {size : Nat} {n : Int} {bs : Bytes} {rest : List Arrival}
    (h : recv size c.arrivals = (n, bs, rest)) (hn : 0 < n) :
    c.asyncRead size = (n, bs, { c with arrivals := rest }) := by
  simp only [asyncRead, hc, Bool.not_true, Bool.false_eq_true, if_false, h]
  rw [if_neg (Int.not_le.mpr hn)]

/-- A read that gets something. -/
theorem asyncRead_pos {c : Connection} {size : Nat} (h : 0 < (c.asyncRead size).1) :
    c.connected = true ∧ c.asyncRead size =
      ((recv size c.arrivals).1, (recv size c.arrivals).2.1, { c with arrivals := (recv size c.arrivals).2.2 }) := by
  by_cases hc : c.connected
  · refine ⟨hc, ?_⟩
    simp only [asyncRead, hc, Bool.not_true, Bool.false_eq_true, if_false] at h ⊢
    rw [if_neg (Int.not_le.mpr h)]
  · simp [asyncRead, hc] at h

theorem asyncRead_connected {c : Connection} {size : Nat} (h : 0 < (c.asyncRead size).1) :
    (c.asyncRead size).2.2.connected = true := by
  obtain ⟨hc, hread⟩ := asyncRead_pos h
  rw [hread]
  exact hc

theorem asyncRead_eof {c : Connection} (hc : c.connected) (h : c.arrivals = []) (size : Nat) :
    c.asyncRead size = (0, [], c.close) := by
  simp only [asyncRead, hc, Bool.not_true, Bool.false_eq_true, if_false, h, recv, Int.le_refl,
    if_true, handleError]
  rw [← h]

theorem asyncWrite_connected {c : Connection} {buffer : Bytes} (h : 0 < (c.asyncWrite buffer).1) :
    (c.asyncWrite buffer).2.connected = true := by
  unfold asyncWrite at h ⊢
  by_cases hc : c.connected
  · simp only [hc, Bool.not_true, Bool.false_eq_true, if_false] at h ⊢
    rw [if_neg (Int.not_le.mpr h)]
    exact hc
  · simp [hc] at h

theorem asyncWrite_whole {c : Connection} (hc : c.connected) (hs : c.sends = []) {buffer : Bytes}
    (hb : buffer ≠ []) :
    c.asyncWrite buffer =
      ((buffer.length : Int), { c with writes := c.writes ++ [⟨buffer, buffer.length⟩] }) := by
  have hpos : 0 < buffer.length := List.length_pos_iff.mpr hb
  simp only [asyncWrite, hc, Bool.not_true, Bool.false_eq_true, if_false, hs, send, Int.toNat_natCast]
  rw [if_neg (by omega), ← hs]

end Connection

end CoroRpc.Net

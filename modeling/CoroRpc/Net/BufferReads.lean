import CoroRpc.Net.Buffer
import CoroRpc.Net.ReadLine

namespace CoroRpc.Net

open Memory

namespace Connection

/-- `async_read` into a buffer: what it returns, with the connection and the buffer behind it. The bytes come to
stand behind the written ones, and no position of the buffer moves. -/
def asyncReadInto (c : Connection) (b : Buffer) : Option (Int × Connection × Buffer) :=
  if b.writable = 0 then some (0, c, b)
  else do
    let r := c.asyncRead b.writable.toNat
    let block ← b.block
    let block ← block.copyIn b.writePos r.2.1
    some (r.1, r.2.2, { b with block := some block })

end Connection

inductive ReceiverCall
  | buffer (op : Buffer.Op)
  | asyncRead

/-- What arrives is lost: each read completes and takes from the connection as many bytes as it says, and each call
on the buffer, as long as the sizes fit, gives its caller what a queue gives into which nothing has been read. -/
def Loses : Connection → Buffer → ByteQueue → List ReceiverCall → Prop
  | _, b, q, [] => b.Holds q
  | c, b, q, .buffer op :: calls =>
      b.Holds q ∧
        (b.Fits op → ∃ b', b.apply op = some (b', (q.apply (b.compacts op) op).2) ∧
          Loses c b' (q.apply (b.compacts op) op).1 calls)
  | c, b, q, .asyncRead :: calls =>
      b.Holds q ∧
        ∃ n c' b', c.asyncReadInto b = some (n, c', b') ∧ b'.readable = b.readable ∧
          (0 < n → ∃ lost, lost.length = n.toNat ∧ ahead c.arrivals = lost ++ ahead c'.arrivals) ∧
          Loses c' b' q calls

theorem recv_length (size : Nat) (arrivals : List Arrival) : (recv size arrivals).2.1.length ≤ size := by
  cases arrivals with
  | nil => exact Nat.zero_le _
  | cons a rest =>
      cases a with
      | fail errno => exact Nat.zero_le _
      | data bs =>
          simp only [recv, List.length_take]
          exact Nat.min_le_left _ _

theorem ahead_data {bs : Bytes} (h : bs ≠ []) (rest : List Arrival) : ahead (.data bs :: rest) = bs ++ ahead rest := by
  cases bs with
  | nil => exact absurd rfl h
  | cons b bs => rfl

/-- A read that gets bytes takes them off what is ahead. -/
theorem recv_ahead {size : Nat} {arrivals : List Arrival} (h : 0 < (recv size arrivals).1) :
    (recv size arrivals).2.1.length = (recv size arrivals).1.toNat ∧
      ahead arrivals = (recv size arrivals).2.1 ++ ahead (recv size arrivals).2.2 := by
  cases arrivals with
  | nil => cases h
  | cons a rest =>
      cases a with
      | fail errno =>
          simp only [recv] at h
          omega
      | data bs =>
          simp only [recv] at h ⊢
          have hne : bs ≠ [] := by
            rintro rfl
            simp at h
          refine ⟨by rw [List.length_take]; omega, ?_⟩
          rw [ahead_data hne]
          split
          · next hle => rw [List.take_of_length_le hle]
          · next hlt =>
              have hmore : bs.drop size ≠ [] := by
                rw [Ne, List.drop_eq_nil_iff]
                exact hlt
              rw [ahead_data hmore, ← List.append_assoc, List.take_append_drop]

namespace Connection

theorem asyncRead_length (c : Connection) (size : Nat) : (c.asyncRead size).2.1.length ≤ size := by
  rw [asyncRead]
  split
  · exact Nat.zero_le _
  · exact recv_length size c.arrivals

theorem asyncRead_ahead {c : Connection} {size : Nat} (h : 0 < (c.asyncRead size).1) :
    (c.asyncRead size).2.1.length = (c.asyncRead size).1.toNat ∧
      ahead c.arrivals = (c.asyncRead size).2.1 ++ ahead (c.asyncRead size).2.2.arrivals := by
  unfold asyncRead at h ⊢
  split at h
  · cases h
  · next hc =>
      rw [if_neg hc]
      dsimp only at h ⊢
      rw [if_neg (Int.not_le.mpr h)]
      exact recv_ahead h

end Connection

namespace Buffer

variable {b : Buffer} {q : ByteQueue} {block : BufferBlock} {free : Bytes}

/-- A read into a buffer changes its free bytes at most. -/
theorem Represents.asyncReadInto (h : Represents b q block free) (c : Connection) :
    ∃ n c' b' block' free', c.asyncReadInto b = some (n, c', b') ∧ Represents b' q block' free' ∧
      b'.readable = b.readable ∧
      (0 < n → ∃ lost, lost.length = n.toNat ∧ ahead c.arrivals = lost ++ ahead c'.arrivals) := by
  by_cases hfull : b.writable = 0
  · refine ⟨0, c, b, block, free, ?_, h, rfl, fun h => absurd h (lt_irrefl _)⟩
    rw [Connection.asyncReadInto, if_pos hfull]
  · have hend : b.writePos.toNat = (q.consumed ++ q.content).length := by
      rw [h.writePos_eq, List.length_append]
    have hlength := c.asyncRead_length b.writable.toNat
    have hahead := @Connection.asyncRead_ahead c b.writable.toNat
    rcases hread : c.asyncRead b.writable.toNat with ⟨n, bytes, c'⟩
    rw [hread, h.toNat_writable] at hlength
    rw [hread] at hahead
    obtain ⟨block', hin, -, hdata⟩ := BufferBlock.copyIn_eq h.data_eq hend hlength
    refine ⟨n, c', { b with block := some block' }, block', bytes ++ free.drop bytes.length, ?_,
      ⟨rfl, ?_, h.readPos_eq, h.writePos_eq⟩, rfl, fun hpos => ⟨bytes, hahead hpos⟩⟩
    · simp [Connection.asyncReadInto, hfull, hread, h.block_eq, hin]
    · rw [hdata, List.append_assoc]

theorem Represents.loses (h : Represents b q block free) (c : Connection) (calls : List ReceiverCall) :
    Loses c b q calls := by
  induction calls generalizing c b q block free with
  | nil => exact h.holds
  | cons call calls ih =>
      cases call with
      | buffer op =>
          refine ⟨h.holds, fun hfit => ?_⟩
          obtain ⟨b', block', free', happly, -, hr⟩ := h.apply hfit
          exact ⟨b', happly, ih hr c⟩
      | asyncRead =>
          obtain ⟨n, c', b', block', free', hread, hr, hreadable, hlost⟩ := h.asyncReadInto c
          exact ⟨h.holds, n, c', b', hread, hreadable, hlost, ih hr c'⟩

/-- Whatever is read from a connection into a buffer, nobody can read it out of the buffer. -/
theorem ofCapacity_loses (heap : Mem) (capacity : UInt64) (c : Connection) (calls : List ReceiverCall) :
    Loses c (ofCapacity heap capacity) {} calls := (represents_ofCapacity heap capacity).loses c calls

end Buffer

end CoroRpc.Net

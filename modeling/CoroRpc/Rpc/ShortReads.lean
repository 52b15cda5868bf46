import CoroRpc.Rpc.Admission
import CoroRpc.Rpc.Framing

namespace CoroRpc.Rpc

open Memory Net Protocol

variable {σ : Type}

def assembled (heap : Mem) (buffer : Bytes) (arrivals : List Arrival) : Bytes :=
  let r := recv ProtocolHeader.size arrivals
  let buffer := store buffer 0 r.2.1
  let header := ProtocolHeader.load (ofList buffer heap) 0
  let body := (recv (header.totalSize - ProtocolHeader.size) r.2.2).2.1
  (store (grow buffer header.totalSize) ProtocolHeader.size body).take header.totalSize

/-- Where the first of the parts comes short, what it lacks stands in the buffer already. -/
def Fills (buffer : Bytes) : Nat → List Arrival → List Bytes → Prop
  | _, _, [] => True
  | off, arrivals, part :: later =>
      let r := recv part.length arrivals
      (∀ i, r.2.1.length ≤ i → i < part.length → buffer[off + i]? = part[i]?) ∧
        (r.1 = part.length → Fills buffer (off + part.length) r.2.2 later)

/-- A body of no bytes is not read. -/
theorem store_recv_zero {size : Nat} (h : ¬0 < size) (buffer : Bytes) (off : Nat) (arrivals : List Arrival) :
    store buffer off (recv size arrivals).2.1 = buffer := by
  have hread := length_recv size arrivals
  have hnil : (recv size arrivals).2.1 = [] := List.eq_nil_of_length_eq_zero (by omega)
  simp [hnil, store]

section Buffer

variable {buffer : Bytes} {i size : Nat}

theorem getElem?_grow (h : i < buffer.length) : (grow buffer size)[i]? = buffer[i]? := List.getElem?_append_left h

theorem getElem?_store_header {bs : Bytes} (hbs : bs.length ≤ buffer.length) (hi : bs.length ≤ i) :
    (store buffer 0 bs)[i]? = buffer[i]? := by
  rw [getElem?_store (by omega), if_neg (by omega)]

/-- Behind the header the buffer is grown as it would be without the header. -/
theorem getElem?_grow_store {bs : Bytes} (hbs : bs.length ≤ buffer.length) (hi : bs.length ≤ i) :
    (grow (store buffer 0 bs) size)[i]? = (grow buffer size)[i]? := by
  have hlen : (store buffer 0 bs).length = buffer.length := length_store (by omega)
  by_cases hlt : i < buffer.length
  · rw [getElem?_grow (hlen ▸ hlt), getElem?_grow hlt, getElem?_store_header hbs hi]
  · rw [grow, grow, List.getElem?_append_right (by omega), List.getElem?_append_right (by omega), hlen]

end Buffer

section Assembled

variable {f : Frame} {buffer later : Bytes} {heap : Mem} {arrivals : List Arrival}

/-- The header is what the first read made of the buffer. -/
theorem getElem?_assembled (hb : ProtocolHeader.size ≤ buffer.length) {i : Nat} (hi : i < ProtocolHeader.size) :
    (assembled heap buffer arrivals)[i]? = (store buffer 0 (recv ProtocolHeader.size arrivals).2.1)[i]? := by
  have hread := length_recv ProtocolHeader.size arrivals
  have hlen : (store buffer 0 (recv ProtocolHeader.size arrivals).2.1).length = buffer.length :=
    length_store (by omega)
  rw [assembled]
  generalize store buffer 0 _ = received at hlen ⊢
  generalize ProtocolHeader.load _ 0 = header
  have hsize := Session.size_le_totalSize header
  have hbody := length_recv (header.totalSize - ProtocolHeader.size) (recv ProtocolHeader.size arrivals).2.2
  have hgrow := length_grow received header.totalSize
  rw [List.getElem?_take_of_lt (by omega), getElem?_store (by omega), if_neg (by omega), getElem?_grow (by omega)]

/-- If two reads assemble the frame that the stream starts with, they were short only by what stood there. -/
theorem fills_of_assembled (hb : ProtocolHeader.size ≤ buffer.length) (hc : Carries arrivals (f.bytes ++ later))
    (h : assembled heap buffer arrivals = f.bytes) : Fills (grow buffer f.bytes.length) 0 arrivals f.parts := by
  have h16 := ProtocolHeader.length_toBytes f.header
  rw [Frame.bytes, List.append_assoc] at hc
  obtain ⟨n, rest, hr, -, hn, hrest⟩ := hc.recv_part (Frame.toBytes_ne_nil f.header)
  have hlen : (f.header.toBytes.take n).length = n := by rw [List.length_take, Nat.min_eq_left hn]
  have hheader : ∀ i < ProtocolHeader.size,
      f.header.toBytes[i]? = (store buffer 0 (f.header.toBytes.take n))[i]? := by
    intro i hi
    have hi' : (assembled heap buffer arrivals)[i]? = _ := getElem?_assembled hb hi
    rw [← h16, hr, h, Frame.bytes, List.getElem?_append_left (by omega)] at hi'
    exact hi'
  rw [Frame.parts, Fills, hr]
  refine ⟨fun i hni hi => ?_, fun hwhole => ?_⟩
  · rw [hlen] at hni
    rw [hheader i (by omega), getElem?_store_header (by omega) (by omega), Nat.zero_add, getElem?_grow (by omega)]
  · have hwhole : n = f.header.toBytes.length := Int.ofNat_inj.mp hwhole
    by_cases hbody : f.body = []
    · rw [if_pos hbody]
      trivial
    · rw [if_neg hbody, Fills]
      obtain ⟨m, rest', hr', -, hm, -⟩ := (hrest hwhole).recv_part hbody
      rw [hr']
      refine ⟨fun i hmi hi => ?_, fun _ => trivial⟩
      rw [List.length_take, Nat.min_eq_left hm] at hmi
      -- the header is whole, so the body is read to its size
      have hload : ProtocolHeader.load (ofList (store buffer 0 f.header.toBytes) heap) 0 = f.header := by
        rw [store_zero]
        exact ProtocolHeader.load_eq (holds_ofList _ _ _)
      rw [hwhole, List.take_length] at hr
      rw [assembled, ← h16, hr] at h
      dsimp only at h
      rw [hload, h16, f.totalSize_sub, hr', f.totalSize_eq] at h
      have hget := congrArg (·[f.header.toBytes.length + i]?) h
      dsimp only at hget
      have htotal : f.bytes.length = f.header.toBytes.length + f.body.length := List.length_append
      have hgrow := length_grow (store buffer 0 f.header.toBytes) f.bytes.length
      have htake : (f.body.take m).length = m := by rw [List.length_take, Nat.min_eq_left hm]
      rw [List.getElem?_take_of_lt (by omega), getElem?_store (by omega), if_neg (by omega),
        getElem?_grow_store (by omega) (by omega), Frame.bytes, List.getElem?_append_right (by omega),
        Nat.add_sub_cancel_left] at hget
      rw [Nat.zero_add]
      exact hget

end Assembled

namespace Session

theorem readBody_next {s u : Session σ} {remaining : Nat} (h : s.readBody remaining = .next u) :
    u.buffer = store s.buffer ProtocolHeader.size (recv remaining s.conn.arrivals).2.1 := by
  rw [readBody] at h
  split at h
  · dsimp only at h
    split at h
    · cases h
    · next hn =>
        cases h
        rw [(Connection.asyncRead_pos (Int.not_le.mp hn)).2]
  · next hzero =>
      cases h
      exact (store_recv_zero hzero s.buffer ProtocolHeader.size s.conn.arrivals).symm

/-- The frame that a round hands over is what its two reads assemble. -/
theorem call_assembled {heap : Mem} {s u : Session σ} {header : ProtocolHeader}
    (hc : s.call heap = some (header, u)) : u.buffer.take header.totalSize = assembled heap s.buffer s.conn.arrivals := by
  simp only [call, readHeader] at hc
  split at hc
  · cases hc
  · next header' t hread =>
      split at hread
      · next hpos =>
          cases hread
          rw [(Connection.asyncRead_pos hpos.2).2] at hc
          split at hc
          · split at hc
            · next v hv =>
                cases hc
                rw [readBody_next hv]
                rfl
            · cases hc
          · cases hc
      · cases hread

end Session

end CoroRpc.Rpc

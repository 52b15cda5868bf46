import CoroRpc.Rpc.Admission
import CoroRpc.Rpc.Chunking
import CoroRpc.Rpc.Correspondence

namespace CoroRpc.Rpc

open Loop Memory Net Protocol

variable {σ : Type}

def leadingHeader (stream : Bytes) : ProtocolHeader := .load (ofList stream fun _ => 0) 0

/-- A stream starts with a whole frame that is within the limit. -/
def Leads (limit : Nat) (stream : Bytes) : Prop :=
  (leadingHeader stream).valid = true ∧ (leadingHeader stream).totalSize ≤ limit ∧
    (leadingHeader stream).totalSize ≤ stream.length

instance (limit : Nat) (stream : Bytes) : Decidable (Leads limit stream) := inferInstanceAs (Decidable (_ ∧ _ ∧ _))

/-- The frames that a stream starts with, one after the other, and what is left of it. -/
def splitFrames (limit : Nat) (stream : Bytes) : List Bytes × Bytes :=
  if _h : Leads limit stream then
    let rest := splitFrames limit (stream.drop (leadingHeader stream).totalSize)
    (stream.take (leadingHeader stream).totalSize :: rest.1, rest.2)
  else ([], stream)
termination_by stream.length
decreasing_by
  have hsize := Session.size_le_totalSize (leadingHeader stream)
  have h16 : ProtocolHeader.size = 16 := rfl
  have hlen := _h.2.2
  rw [List.length_drop]
  omega

/-- The frames and the rest make up the stream, and the rest starts with no frame. -/
theorem splitFrames_flatten (limit : Nat) (stream : Bytes) :
    (splitFrames limit stream).1.flatten ++ (splitFrames limit stream).2 = stream ∧
      ¬Leads limit (splitFrames limit stream).2 := by
  induction stream using splitFrames.induct limit with
  | case1 stream h ih =>
      rw [splitFrames, dif_pos h]
      simp only [List.flatten_cons, List.append_assoc]
      rw [ih.1, List.take_append_drop]
      exact ⟨rfl, ih.2⟩
  | case2 stream h =>
      rw [splitFrames, dif_neg h]
      exact ⟨rfl, h⟩

namespace Session

structure Served (limit : Nat) (stream : Bytes) (s : Session σ) : Prop where
  config : s.server.config.maxRequestSize = limit
  connected : s.conn.connected
  sends : s.conn.sends = []
  arrivals : s.conn.arrivals = whole stream
  buffer : 4096 ≤ s.buffer.length

theorem asyncRead_whole {c : Connection} {stream : Bytes} (hc : c.connected) (h : c.arrivals = whole stream)
    (hne : stream ≠ []) {size : Nat} (hsize : 0 < size) :
    c.asyncRead size = (((min stream.length size : Nat) : Int), stream.take size,
      { c with arrivals := whole (stream.drop size) }) := by
  have hpos : 0 < stream.length := List.length_pos_iff.mpr hne
  rw [whole, if_neg hne] at h
  have hrest : (if stream.length ≤ size then [] else [Arrival.data (stream.drop size)]) = whole (stream.drop size) := by
    by_cases hle : stream.length ≤ size
    · simp [whole, hle]
    · simp [whole, hle]
  simp only [Connection.asyncRead, hc, Bool.not_true, Bool.false_eq_true, if_false, h, recv]
  rw [if_neg (by omega), hrest]
  simp

variable {registry : ServiceRegistry σ} {heap : Mem} {limit : Nat} {stream rest : Bytes} {s : Session σ}

/-- The call of `handle_message` and its response. -/
theorem Served.process (registry : ServiceRegistry σ) (heap : Mem) (h : Served limit stream s) (n : Nat) :
    ∃ t, process registry heap n s = .next t ∧ Served limit stream t ∧
      t.handled = s.handled ++ [s.buffer.take n] := by
  have hconfig := handleMessage_config registry s.server (ofList s.buffer heap) n
  rw [Session.process]
  generalize s.server.handleMessage registry (ofList s.buffer heap) n = r at hconfig
  have hlimit : r.2.config.maxRequestSize = limit := hconfig ▸ h.config
  simp only [respond]
  by_cases hr : r.1 = []
  · rw [if_pos hr]
    exact ⟨_, rfl, ⟨hlimit, h.connected, h.sends, h.arrivals, h.buffer⟩, rfl⟩
  · have hpos : 0 < r.1.length := List.length_pos_iff.mpr hr
    rw [if_neg hr, Connection.asyncWrite_whole h.connected h.sends hr]
    simp only
    rw [if_neg (by omega)]
    exact ⟨_, rfl, ⟨hlimit, h.connected, h.sends, h.arrivals, h.buffer⟩, rfl⟩

theorem Served.next {t : Session σ} (h : Served limit stream s) (hserver : t.server = s.server)
    (hconn : t.conn = { s.conn with arrivals := whole rest }) (hbuffer : 4096 ≤ t.buffer.length) :
    Served limit rest t := by
  refine ⟨hserver ▸ h.config, ?_, ?_, ?_, hbuffer⟩
  · rw [hconn]
    exact h.connected
  · rw [hconn]
    exact h.sends
  · rw [hconn]

/-- A read of the header, when the peer has sent anything. -/
theorem Served.header (registry : ServiceRegistry σ) (heap : Mem) (h : Served limit stream s) (hne : stream ≠ []) :
    ∃ t, serve registry heap s = receive registry heap (.load (ofList t.buffer heap) 0) t ∧
      Served limit (stream.drop ProtocolHeader.size) t ∧ t.handled = s.handled ∧ t.server = s.server ∧
      t.buffer = store s.buffer 0 (stream.take ProtocolHeader.size) := by
  have hread := asyncRead_whole h.connected h.arrivals hne (show 0 < ProtocolHeader.size by decide)
  have hpos : 0 < stream.length := List.length_pos_iff.mpr hne
  have h16 : ProtocolHeader.size = 16 := rfl
  have hlen : (store s.buffer 0 (stream.take ProtocolHeader.size)).length = s.buffer.length := by
    apply length_store
    have hbuffer := h.buffer
    rw [List.length_take]
    omega
  refine ⟨{ s with
    conn := { s.conn with arrivals := whole (stream.drop ProtocolHeader.size) }
    buffer := store s.buffer 0 (stream.take ProtocolHeader.size) }, ?_, h.next rfl rfl (hlen ▸ h.buffer), rfl, rfl, rfl⟩
  simp only [serve, h.connected, Bool.not_true, Bool.false_eq_true, if_false, hread]
  rw [if_neg (by omega)]

/-- A frame that the server takes, and of which it gets at least one byte behind the header, or needs none. -/
theorem Served.body (registry : ServiceRegistry σ) (heap : Mem) {header : ProtocolHeader}
    (h : Served limit rest s) (hv : header.valid = true) (hmax : header.totalSize ≤ limit)
    (hrest : rest ≠ [] ∨ header.totalSize = ProtocolHeader.size) :
    ∃ t, receive registry heap header s = .next t ∧
      Served limit (rest.drop (header.totalSize - ProtocolHeader.size)) t ∧
      t.handled = s.handled ++
        [(store (grow s.buffer header.totalSize) ProtocolHeader.size
          (rest.take (header.totalSize - ProtocolHeader.size))).take header.totalSize] := by
  have hgrow := grow_room s.buffer header
  have hlong : 4096 ≤ (grow s.buffer header.totalSize).length := by
    rw [length_grow]
    exact h.buffer.trans (Nat.le_max_left _ _)
  rw [receive_accepts registry heap hv (hmax.trans_eq h.config.symm)]
  by_cases hpos : 0 < header.totalSize - ProtocolHeader.size
  · have hne : rest ≠ [] := by
      obtain hne | heq := hrest
      · exact hne
      · omega
    have hread := asyncRead_whole (c := s.conn) h.connected h.arrivals hne hpos
    have hlen : 0 < rest.length := List.length_pos_iff.mpr hne
    have hstore : (store (grow s.buffer header.totalSize) ProtocolHeader.size
        (rest.take (header.totalSize - ProtocolHeader.size))).length = (grow s.buffer header.totalSize).length := by
      apply length_store
      rw [List.length_take]
      omega
    simp only [readBody, hpos, if_true, hread]
    rw [if_neg (by omega)]
    have hserved : Served limit (rest.drop (header.totalSize - ProtocolHeader.size))
        { s with
          conn := { s.conn with arrivals := whole (rest.drop (header.totalSize - ProtocolHeader.size)) }
          buffer := store (grow s.buffer header.totalSize) ProtocolHeader.size
            (rest.take (header.totalSize - ProtocolHeader.size)) } := h.next rfl rfl (hstore ▸ hlong)
    exact hserved.process registry heap header.totalSize
  · have hzero : header.totalSize - ProtocolHeader.size = 0 := by omega
    have hserved : Served limit rest { s with buffer := grow s.buffer header.totalSize } :=
      ⟨h.config, h.connected, h.sends, h.arrivals, hlong⟩
    obtain ⟨t, ht, hserved', hhandled⟩ := hserved.process registry heap header.totalSize
    simp only [readBody, hzero, List.drop_zero, List.take_zero]
    refine ⟨t, ht, hserved', ?_⟩
    rw [hhandled]
    simp [store]

/-- What is in the buffer for a frame of which the peer has sent `stream`. -/
theorem take_received {buffer : Bytes} (hbuffer : 4096 ≤ buffer.length) (stream : Bytes) (header : ProtocolHeader) :
    let received := (store (grow (store buffer 0 (stream.take ProtocolHeader.size)) header.totalSize) ProtocolHeader.size
      ((stream.drop ProtocolHeader.size).take (header.totalSize - ProtocolHeader.size))).take header.totalSize
    received.length = header.totalSize ∧ received.take stream.length = stream.take header.totalSize := by
  intro received
  have h16 : ProtocolHeader.size = 16 := rfl
  have hsize := size_le_totalSize header
  have hfirst : (store buffer 0 (stream.take ProtocolHeader.size)).length = buffer.length := by
    apply length_store
    rw [List.length_take]
    omega
  have hgrow : (grow (store buffer 0 (stream.take ProtocolHeader.size)) header.totalSize).length =
      max buffer.length header.totalSize := by
    rw [length_grow, hfirst]
  have hroom : ProtocolHeader.size +
      ((stream.drop ProtocolHeader.size).take (header.totalSize - ProtocolHeader.size)).length ≤
        (grow (store buffer 0 (stream.take ProtocolHeader.size)) header.totalSize).length := by
    rw [hgrow, List.length_take]
    omega
  constructor
  · rw [List.length_take, length_store hroom, hgrow]
    omega
  · ext1 i
    rw [List.getElem?_take, List.getElem?_take, List.getElem?_take, getElem?_store hroom]
    by_cases hi : i < stream.length
    · by_cases hn : i < header.totalSize
      · rw [if_pos hi, if_pos hn, if_pos hn]
        by_cases hbody : ProtocolHeader.size ≤ i
        · rw [if_pos, List.getElem?_take, if_pos (by omega), List.getElem?_drop, Nat.add_sub_cancel' hbody]
          rw [List.length_take, List.length_drop]
          omega
        · have hhead := congrArg (·[i]?) (take_grow
            (show ProtocolHeader.size ≤ (store buffer 0 (stream.take ProtocolHeader.size)).length by omega) header.totalSize)
          simp only [List.getElem?_take, if_pos (Nat.not_le.mp hbody)] at hhead
          rw [if_neg (fun h => hbody h.1), hhead, store_zero, List.getElem?_append_left, List.getElem?_take, if_pos (by omega)]
          rw [List.length_take]
          omega
      · rw [if_neg hn, if_neg hn]
        simp
    · rw [if_neg hi, List.getElem?_eq_none (Nat.not_lt.mp hi)]
      simp

theorem load_leading {buffer : Bytes} (hbuffer : 4096 ≤ buffer.length) (hlen : ProtocolHeader.size ≤ stream.length) :
    ProtocolHeader.load (ofList (store buffer 0 (stream.take ProtocolHeader.size)) heap) 0 = leadingHeader stream := by
  have h16 : ProtocolHeader.size = 16 := rfl
  have htake : (stream.take ProtocolHeader.size).length = ProtocolHeader.size := by
    rw [List.length_take]
    omega
  have hstore : (store buffer 0 (stream.take ProtocolHeader.size)).length = buffer.length := length_store (by omega)
  apply load_eq_of_slice
  rw [slice_ofList (by omega), slice_ofList (by omega), List.drop_zero, List.drop_zero, store_zero, List.take_left' htake]

/-- A round that takes the next frame of the stream. -/
theorem Served.serve_leads (registry : ServiceRegistry σ) (heap : Mem) (h : Served limit stream s)
    (hleads : Leads limit stream) :
    ∃ t, serve registry heap s = .next t ∧ Served limit (stream.drop (leadingHeader stream).totalSize) t ∧
      t.handled = s.handled ++ [stream.take (leadingHeader stream).totalSize] := by
  obtain ⟨hv, hmax, hlen⟩ := hleads
  have hsize := size_le_totalSize (leadingHeader stream)
  have h16 : ProtocolHeader.size = 16 := rfl
  have hne : stream ≠ [] := by
    rintro rfl
    simp only [List.length_nil] at hlen
    omega
  obtain ⟨t, hserve, ht, hhandled, -, hbuffer⟩ := h.header registry heap hne
  have hheader : ProtocolHeader.load (ofList t.buffer heap) 0 = leadingHeader stream := by
    rw [hbuffer]
    exact load_leading h.buffer (by omega)
  have hrest : stream.drop ProtocolHeader.size ≠ [] ∨ (leadingHeader stream).totalSize = ProtocolHeader.size := by
    by_cases hmore : stream.length = ProtocolHeader.size
    · right
      omega
    · left
      apply List.ne_nil_of_length_pos
      rw [List.length_drop]
      omega
  obtain ⟨u, hu, hserved, hhandled'⟩ := ht.body registry heap hv hmax hrest
  rw [List.drop_drop, Nat.add_sub_cancel' hsize] at hserved
  refine ⟨u, by rw [hserve, hheader, hu], hserved, ?_⟩
  obtain ⟨hreceived, htake⟩ := take_received h.buffer stream (leadingHeader stream)
  rw [List.take_of_length_le (by omega)] at htake
  rw [hhandled', hhandled, hbuffer, htake]

theorem Served.serve_nil (registry : ServiceRegistry σ) (heap : Mem) (h : Served limit [] s) :
    ∃ t, serve registry heap s = .stop t ∧ t.handled = s.handled := by
  have hread := Connection.asyncRead_eof h.connected h.arrivals ProtocolHeader.size
  refine ⟨{ s with conn := s.conn.close, buffer := store s.buffer 0 [] }, ?_, rfl⟩
  simp only [serve, h.connected, Bool.not_true, Bool.false_eq_true, if_false, hread, Int.le_refl, if_true]

theorem Served.body_nil (registry : ServiceRegistry σ) (heap : Mem) {header : ProtocolHeader}
    (h : Served limit [] s) (hv : header.valid = true) (hmax : header.totalSize ≤ limit)
    (hpos : ProtocolHeader.size < header.totalSize) :
    ∃ t, receive registry heap header s = .stop t ∧ t.handled = s.handled := by
  have hread := Connection.asyncRead_eof h.connected h.arrivals (header.totalSize - ProtocolHeader.size)
  rw [receive_accepts registry heap hv (hmax.trans_eq h.config.symm)]
  simp only [readBody, Nat.sub_pos_of_lt hpos, if_true, hread, Int.le_refl]
  exact ⟨_, rfl, rfl⟩

/-- The rounds after the last whole frame: at most one more frame is handed on, and the stream ends within it. -/
theorem Served.serve_last (registry : ServiceRegistry σ) (heap : Mem) (h : Served limit stream s)
    (hleads : ¬Leads limit stream) :
    ∃ t, iterate (serve registry heap) 2 (.next s) = .stop t ∧
      (t.handled = s.handled ∨
        ∃ stale, stream ≠ [] ∧ stale ≠ [] ∧ t.handled = s.handled ++ [stream ++ stale]) := by
  have hlast {t : Session σ} (ht : serve registry heap s = .stop t) (hhandled : t.handled = s.handled) :
      ∃ t, iterate (serve registry heap) 2 (.next s) = .stop t ∧
        (t.handled = s.handled ∨
          ∃ stale, stream ≠ [] ∧ stale ≠ [] ∧ t.handled = s.handled ++ [stream ++ stale]) :=
    ⟨t, iterate_last ht 1, .inl hhandled⟩
  by_cases hne : stream = []
  · subst hne
    obtain ⟨t, ht, hhandled⟩ := h.serve_nil registry heap
    exact hlast ht hhandled
  · obtain ⟨t, hserve, ht, hhandled, -, hbuffer⟩ := h.header registry heap hne
    generalize hheader : ProtocolHeader.load (ofList t.buffer heap) 0 = header at hserve
    have hsize := size_le_totalSize header
    by_cases hr : Refuses header t
    · rw [receive_refuses registry heap hr] at hserve
      exact hlast hserve hhandled
    · rw [Refuses, not_or, Bool.not_eq_false, Nat.not_lt, ht.config] at hr
      have hcut : stream.length < header.totalSize := by
        by_contra hwhole
        have heq : header = leadingHeader stream := by
          rw [← hheader, hbuffer]
          exact load_leading h.buffer (by omega)
        rw [heq] at hr hwhole
        exact hleads ⟨hr.1, hr.2, Nat.not_lt.mp hwhole⟩
      by_cases hrest : stream.drop ProtocolHeader.size ≠ [] ∨ header.totalSize = ProtocolHeader.size
      · obtain ⟨u, hu, hserved, hhandled'⟩ := ht.body registry heap hr.1 hr.2 hrest
        have hend : (stream.drop ProtocolHeader.size).drop (header.totalSize - ProtocolHeader.size) = [] := by
          rw [List.drop_drop]
          apply List.drop_eq_nil_of_le
          omega
        rw [hend] at hserved
        obtain ⟨v, hv, hvhandled⟩ := hserved.serve_nil registry heap
        obtain ⟨hlen, htake⟩ := take_received h.buffer stream header
        rw [← hbuffer] at hlen htake
        rw [hhandled] at hhandled'
        generalize (store (grow t.buffer header.totalSize) _ _).take header.totalSize = received at hlen htake hhandled'
        rw [List.take_of_length_le (Nat.le_of_lt hcut)] at htake
        refine ⟨v, ?_, .inr ⟨received.drop stream.length, hne, ?_, ?_⟩⟩
        · rw [iterate_next (hserve.trans hu)]
          exact iterate_last hv 0
        · apply List.ne_nil_of_length_pos
          rw [List.length_drop]
          omega
        · rw [hvhandled, hhandled']
          congr 2
          conv_lhs => rw [← List.take_append_drop stream.length received, htake]
      · rw [not_or, not_not] at hrest
        rw [hrest.1] at ht
        obtain ⟨u, hu, hhandled'⟩ := ht.body_nil registry heap hr.1 hr.2 (by omega)
        exact hlast (hserve.trans hu) (hhandled'.trans hhandled)

theorem Served.iterate_frames (registry : ServiceRegistry σ) (heap : Mem) (h : Served limit stream s) :
    ∃ n t, iterate (serve registry heap) n (.next s) = .stop t ∧
      (t.handled = s.handled ++ (splitFrames limit stream).1 ∨
        ∃ stale, (splitFrames limit stream).2 ≠ [] ∧ stale ≠ [] ∧
          t.handled = s.handled ++ (splitFrames limit stream).1 ++ [(splitFrames limit stream).2 ++ stale]) := by
  induction stream using splitFrames.induct limit generalizing s with
  | case1 stream hleads ih =>
      obtain ⟨u, hu, hserved, hhandled⟩ := h.serve_leads registry heap hleads
      obtain ⟨n, t, ht, hresult⟩ := ih hserved
      rw [hhandled] at hresult
      rw [splitFrames, dif_pos hleads]
      simp only [List.append_assoc, List.singleton_append] at hresult ⊢
      exact ⟨n + 1, t, by rw [iterate_next hu, ht], hresult⟩
  | case2 stream hleads =>
      obtain ⟨t, ht, hresult⟩ := h.serve_last registry heap hleads
      rw [splitFrames, dif_neg hleads]
      refine ⟨2, t, ht, ?_⟩
      simpa using hresult

end Session

/-- Whatever a peer sends, the frames that `handle_connection` hands on are the frames that the stream starts with,
one after the other and each once. At most one more follows, which begins where they end and within which the
stream ends; its missing bytes are those that the buffer happens to hold. -/
theorem handleConnection_splitFrames (registry : ServiceRegistry σ) (heap : Mem) (server : RpcServer σ)
    (conn : Connection) (stream : Bytes) (hc : conn.connected) (hs : conn.sends = [])
    (ha : conn.arrivals = whole stream) :
    let split := splitFrames server.config.maxRequestSize stream
    (split.1.flatten ++ split.2 = stream ∧ ¬Leads server.config.maxRequestSize split.2) ∧
      ((handleConnection registry heap server conn).handled = split.1 ∨
        ∃ stale, split.2 ≠ [] ∧ stale ≠ [] ∧
          (handleConnection registry heap server conn).handled = split.1 ++ [split.2 ++ stale]) := by
  have hserved : Session.Served server.config.maxRequestSize stream ({ server, conn } : Session σ) :=
    ⟨rfl, hc, hs, ha, (List.length_replicate ..).ge⟩
  obtain ⟨n, t, ht, hresult⟩ := hserved.iterate_frames registry heap
  rw [handleConnection_eq ht]
  exact ⟨splitFrames_flatten _ _, by simpa using hresult⟩

def cutStream : Bytes := (ProtocolHeader.init .heartbeat).toBytes ++ [1, 2, 3]

theorem handleConnection_splitFrames_cut :
    let split := splitFrames (10 * 1024 * 1024) cutStream
    let handled := (handleConnection (∅ : ServiceRegistry Unit) (fun _ => 0) { world := () }
      (sampleConnection (whole cutStream))).handled
    (split.1.flatten ++ split.2 = cutStream ∧ ¬Leads (10 * 1024 * 1024) split.2) ∧
      (handled = split.1 ∨ ∃ stale, split.2 ≠ [] ∧ stale ≠ [] ∧ handled = split.1 ++ [split.2 ++ stale]) :=
  handleConnection_splitFrames ∅ (fun _ => 0) { world := () } (sampleConnection (whole cutStream)) cutStream rfl rfl rfl

end CoroRpc.Rpc

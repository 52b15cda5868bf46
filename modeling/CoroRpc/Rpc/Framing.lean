import CoroRpc.Rpc.RpcServer
import CoroRpc.Rpc.RoundTrip

namespace CoroRpc.Rpc

open Loop Memory Net Protocol

variable {σ : Type}

structure Frame where
  header : ProtocolHeader
  body : Bytes
  valid : header.valid = true
  length_body : body.length = header.metaLen.toNat + header.payloadLen.toNat

namespace Frame

def bytes (f : Frame) : Bytes := f.header.toBytes ++ f.body

def parts (f : Frame) : List Bytes := f.header.toBytes :: if f.body = [] then [] else [f.body]

theorem flatten_parts (f : Frame) : f.parts.flatten = f.bytes := by
  unfold parts bytes
  split
  · simp [*]
  · simp

theorem toBytes_ne_nil (h : ProtocolHeader) : h.toBytes ≠ [] := by
  apply List.ne_nil_of_length_pos
  rw [ProtocolHeader.length_toBytes]
  decide

theorem nil_notMem_parts (f : Frame) : [] ∉ f.parts := by
  rw [parts]
  split
  · simpa using toBytes_ne_nil f.header
  · rename_i hb
    simpa using ⟨toBytes_ne_nil f.header, hb⟩

theorem totalSize_eq (f : Frame) : f.header.totalSize = f.bytes.length := by
  rw [ProtocolHeader.totalSize_eq, bytes, List.length_append, ProtocolHeader.length_toBytes, f.length_body,
    Nat.add_assoc]

theorem totalSize_sub (f : Frame) : f.header.totalSize - ProtocolHeader.size = f.body.length := by
  rw [totalSize_eq, bytes, List.length_append, ProtocolHeader.length_toBytes, Nat.add_sub_cancel_left]

def fill (f : Frame) (buffer : Bytes) : Bytes :=
  store (grow (store buffer 0 f.header.toBytes) f.header.totalSize) ProtocolHeader.size f.body

/-- Bytes of earlier frames can only stand behind the frame. -/
theorem fill_eq (f : Frame) (buffer : Bytes) : ∃ stale, f.fill buffer = f.bytes ++ stale := by
  rw [fill]
  rw [store_zero, grow, List.append_assoc, ← ProtocolHeader.length_toBytes f.header, store_append]
  exact ⟨_, rfl⟩

theorem take_fill (f : Frame) (buffer : Bytes) : (f.fill buffer).take f.bytes.length = f.bytes := by
  obtain ⟨stale, hfill⟩ := f.fill_eq buffer
  rw [hfill, List.take_left]

def ofMessage (m : RpcMessage) (padding : UInt32) (hf : m.Fits) (hv : m.header.valid) : Frame where
  header := m.wireHeader
  body := m.wireMeta padding ++ m.payload
  valid := hv
  length_body := by
    simp only [List.length_append, RpcMessage.length_wireMeta, RpcMessage.wireHeader,
      UInt32.toNat_ofNat_of_lt' hf.metadata, UInt32.toNat_ofNat_of_lt' hf.payload]

@[simp] theorem bytes_ofMessage (m : RpcMessage) (padding : UInt32) (hf : m.Fits) (hv : m.header.valid) :
    (ofMessage m padding hf hv).bytes = m.serialize padding := by
  simp [bytes, ofMessage, RpcMessage.serialize]

end Frame

theorem nil_notMem_flatMap_parts (frames : List Frame) : [] ∉ frames.flatMap Frame.parts := by
  intro h
  obtain ⟨f, _, hf⟩ := List.mem_flatMap.mp h
  exact f.nil_notMem_parts hf

theorem flatten_flatMap_parts (frames : List Frame) :
    (frames.flatMap Frame.parts).flatten = frames.flatMap Frame.bytes := by
  induction frames with
  | nil => rfl
  | cons f frames ih =>
      rw [List.flatMap_cons, List.flatten_append, ih, f.flatten_parts, List.flatMap_cons]

namespace Session

variable (registry : ServiceRegistry σ) (heap : Mem) {s : Session σ}

def advance (s : Session σ) (rest : List Arrival) (buffer : Bytes) : Session σ :=
  { s with conn := { s.conn with arrivals := rest }, buffer }

theorem serve_header (hc : s.conn.connected) (header : ProtocolHeader) {rest : List Arrival}
    (h : Reads s.conn.arrivals [header.toBytes] rest) :
    serve registry heap s = receive registry heap header (s.advance rest (store s.buffer 0 header.toBytes)) := by
  cases h with
  | cons hrecv hrest =>
      cases hrest
      have hlen : (header.toBytes.length : Int) = 16 := congrArg Nat.cast header.length_toBytes
      have hr := Connection.asyncRead_recv hc hrecv (by rw [hlen]; decide)
      rw [ProtocolHeader.length_toBytes] at hr
      have hload : ProtocolHeader.load (ofList (store s.buffer 0 header.toBytes) heap) 0 = header := by
        rw [store_zero]
        exact ProtocolHeader.load_eq (holds_ofList _ _ _)
      have hn : ¬((ProtocolHeader.size : Int) ≤ 0) := by decide
      simp only [serve, hc, Bool.not_true, Bool.false_eq_true, if_false, hr, hn, hload]
      rfl

theorem receive_invalid {header : ProtocolHeader} (hv : header.valid = false) (s : Session σ) :
    receive registry heap header s = .stop s.countError := by
  simp [receive, hv]

theorem readBody_part (s : Session σ) (hc : s.conn.connected) (body : Bytes) {rest : List Arrival}
    (h : Reads s.conn.arrivals (if body = [] then [] else [body]) rest) :
    s.readBody body.length = .next (s.advance rest (store s.buffer ProtocolHeader.size body)) := by
  by_cases hb : body = []
  · subst hb
    cases h
    simp [readBody, advance, store]
  · rw [if_neg hb] at h
    cases h with
    | cons hrecv hrest =>
        cases hrest
        have hpos : 0 < body.length := List.length_pos_iff.mpr hb
        have hr := Connection.asyncRead_recv hc hrecv (by omega)
        simp only [readBody, hpos, if_true, hr]
        rw [if_neg (by omega)]
        rfl

/-- A frame that the server admits goes to `handle_message` as it was sent. -/
theorem serve_frame (hc : s.conn.connected) (f : Frame) (hmax : f.bytes.length ≤ s.server.config.maxRequestSize)
    {rest : List Arrival} (h : Reads s.conn.arrivals f.parts rest) :
    serve registry heap s = process registry heap f.bytes.length (s.advance rest (f.fill s.buffer)) := by
  obtain ⟨next, hheader, hbody⟩ := reads_append [f.header.toBytes] h
  rw [serve_header registry heap hc f.header hheader, receive]
  simp only [f.valid, Bool.not_true, Bool.false_eq_true, if_false, f.totalSize_sub]
  rw [if_neg (by rw [f.totalSize_eq]; exact Nat.not_lt.mpr hmax)]
  generalize hs : (advance s next _) = s'
  have hread := readBody_part { s' with buffer := grow s'.buffer f.header.totalSize } (by subst hs; exact hc) f.body
    (by subst hs; exact hbody)
  rw [hread, Flow.andThen, f.totalSize_eq, ← hs]
  simp only [advance, Frame.fill, f.totalSize_eq]

theorem serve_oversized (hc : s.conn.connected) (f : Frame)
    (hmax : s.server.config.maxRequestSize < f.bytes.length) {rest : List Arrival}
    (h : Reads s.conn.arrivals [f.header.toBytes] rest) :
    serve registry heap s = .stop (s.advance rest (store s.buffer 0 f.header.toBytes)).countError := by
  rw [serve_header registry heap hc f.header h, receive]
  simp only [f.valid, Bool.not_true, Bool.false_eq_true, if_false]
  rw [if_pos (by rw [f.totalSize_eq]; exact hmax)]

theorem respond_whole (s : Session σ) (hc : s.conn.connected) (hs : s.conn.sends = []) {response : Bytes}
    (hne : response ≠ []) :
    s.respond response = .next
      { s with conn := { s.conn with writes := s.conn.writes ++ [⟨response, response.length⟩] } } := by
  have hpos : 0 < response.length := List.length_pos_iff.mpr hne
  simp only [respond, hne, if_false, Connection.asyncWrite_whole hc hs hne]
  rw [if_neg (by omega)]

theorem serve_eof (hc : s.conn.connected) (h : s.conn.arrivals = []) :
    serve registry heap s = .stop { s with conn := s.conn.close } := by
  simp only [serve, hc, Bool.not_true, Bool.false_eq_true, if_false, Connection.asyncRead_eof hc h,
    Int.le_refl, if_true, store_zero, List.nil_append, List.length_nil, List.drop_zero]

end Session

end CoroRpc.Rpc

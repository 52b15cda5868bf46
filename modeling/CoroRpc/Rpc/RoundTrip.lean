import CoroRpc.Rpc.Protocol

namespace CoroRpc.Protocol

open Memory

namespace RpcMessage

structure Fits (m : RpcMessage) : Prop where
  metadata : m.metaSize < 2 ^ 32
  payload : m.payload.length < 2 ^ 32

theorem Fits.totalSize {m : RpcMessage} (h : m.Fits) (padding : UInt32) :
    m.wireHeader.totalSize = (m.serialize padding).length := by
  rw [ProtocolHeader.totalSize_eq, length_serialize]
  simp only [wireHeader, UInt32.toNat_ofNat_of_lt' h.metadata, UInt32.toNat_ofNat_of_lt' h.payload]

theorem Fits.service {m : RpcMessage} (h : m.Fits) (ht : m.type = .request) :
    (UInt32.ofNat m.service.length).toNat = m.service.length := by
  have hm := h.metadata
  simp only [metaSize, ht, if_true] at hm
  exact UInt32.toNat_ofNat_of_lt' (show m.service.length < 2 ^ 32 by omega)

theorem Fits.method {m : RpcMessage} (h : m.Fits) (ht : m.type = .request) :
    (UInt32.ofNat m.method.length).toNat = m.method.length := by
  have hm := h.metadata
  simp only [metaSize, ht, if_true] at hm
  exact UInt32.toNat_ofNat_of_lt' (show m.method.length < 2 ^ 32 by omega)

theorem Fits.errorMessage {m : RpcMessage} (h : m.Fits) (ht : m.type ≠ .request) :
    (UInt32.ofNat m.errorMessage.length).toNat = m.errorMessage.length := by
  have hm := h.metadata
  simp only [metaSize, ht, if_false] at hm
  exact UInt32.toNat_ofNat_of_lt' (show m.errorMessage.length < 2 ^ 32 by omega)

end RpcMessage

open RpcMessage

theorem readRequestMeta_wire {m : RpcMessage} {padding : UInt32} {mem : Mem} (c : Cursor)
    (hf : m.Fits) (ht : m.type = .request) (hm : Holds mem c.ptr (m.wireMeta padding)) :
    (readRequestMeta mem c).msg =
        { c.msg with
          requestId := m.requestId, timestamp := m.timestamp, timeoutMs := m.timeoutMs,
          service := m.service, method := m.method } ∧
      (readRequestMeta mem c).ptr = c.ptr + m.metaSize := by
  simp only [wireMeta, ht, if_true, holds_append, List.length_append, RequestMeta.length_toBytes] at hm
  obtain ⟨⟨hmeta, hservice⟩, hmethod⟩ := hm
  have hl := RequestMeta.load_eq hmeta
  constructor
  · simp only [readRequestMeta, hl, requestMeta, hf.service ht, hf.method ht,
      hservice.slice_eq rfl]
    rw [Nat.add_assoc, hmethod.slice_eq rfl]
  · simp only [readRequestMeta, hl, requestMeta, hf.service ht, hf.method ht, metaSize, ht, if_true]
    omega

theorem readResponseMeta_wire {m : RpcMessage} {padding : UInt32} {mem : Mem} (c : Cursor)
    (hf : m.Fits) (ht : m.type ≠ .request) (hm : Holds mem c.ptr (m.wireMeta padding)) :
    (readResponseMeta mem c).msg =
        { c.msg with
          requestId := m.requestId, errorCode := m.errorCode,
          errorMessage := if m.errorMessage = [] then c.msg.errorMessage else m.errorMessage } ∧
      (readResponseMeta mem c).ptr = c.ptr + m.metaSize := by
  simp only [wireMeta, ht, if_false, holds_append, ResponseMeta.length_toBytes] at hm
  obtain ⟨hmeta, htext⟩ := hm
  have hl := ResponseMeta.load_eq hmeta
  have hlen := hf.errorMessage ht
  by_cases he : m.errorMessage = []
  · simp [readResponseMeta, hl, responseMeta, he, metaSize, ht]
  · have hpos : 0 < m.errorMessage.length := List.length_pos_iff.mpr he
    have hlt : 0 < UInt32.ofNat m.errorMessage.length := by
      rw [UInt32.lt_iff_toNat_lt, hlen]
      exact hpos
    simp only [readResponseMeta, hl, responseMeta, hlt, if_true, hlen, htext.slice_eq rfl, he,
      if_false, metaSize, ht, Nat.add_assoc, and_self]

theorem readPayload_wire {mem : Mem} (c : Cursor) (bs : Bytes) (hb : bs.length < 2 ^ 32)
    (hl : c.msg.header.payloadLen = UInt32.ofNat bs.length) (hm : Holds mem c.ptr bs) :
    (readPayload mem c).msg =
      { c.msg with payload := if bs = [] then c.msg.payload else bs } := by
  have hlen := UInt32.toNat_ofNat_of_lt' hb
  by_cases he : bs = []
  · simp [readPayload, hl, he]
  · have hlt : 0 < UInt32.ofNat bs.length := by
      rw [UInt32.lt_iff_toNat_lt, hlen]
      exact List.length_pos_iff.mpr he
    simp only [readPayload, hl, hlt, if_true, hlen, hm.slice_eq rfl, he, if_false]

/-- A decoder run over a frame that `serialize` made: the destination gets the header
and the fields of the message's kind, and keeps its own payload or error text where the
frame's is empty. -/
theorem deserialize_serialize {m : RpcMessage} {padding : UInt32} {mem : Mem} {size : Nat}
    (dst : RpcMessage) (hf : m.Fits) (hv : m.header.valid)
    (hm : Holds mem 0 (m.serialize padding)) (hs : (m.serialize padding).length ≤ size) :
    (deserialize mem size dst).ok = true ∧
      (m.type = .request → (deserialize mem size dst).msg =
        { dst with
          header := m.wireHeader, requestId := m.requestId, timestamp := m.timestamp,
          timeoutMs := m.timeoutMs, service := m.service, method := m.method,
          payload := if m.payload = [] then dst.payload else m.payload }) ∧
      (m.type = .response → (deserialize mem size dst).msg =
        { dst with
          header := m.wireHeader, requestId := m.requestId, errorCode := m.errorCode,
          errorMessage := if m.errorMessage = [] then dst.errorMessage else m.errorMessage,
          payload := if m.payload = [] then dst.payload else m.payload }) := by
  have htotal := hf.totalSize padding
  have hsize : ProtocolHeader.size ≤ size := by
    rw [length_serialize] at hs
    omega
  rw [serialize, holds_append, holds_append] at hm
  obtain ⟨⟨hheader, hmeta⟩, hpayload⟩ := hm
  have hl := ProtocolHeader.load_eq hheader
  have hvalid : m.wireHeader.valid = true := hv
  rw [ProtocolHeader.length_toBytes, Nat.zero_add] at hmeta
  rw [List.length_append, ProtocolHeader.length_toBytes, length_wireMeta, Nat.zero_add] at hpayload
  have hdec : deserialize mem size dst =
      let c := readPayload mem (readMeta mem ⟨{ dst with header := m.wireHeader },
        ProtocolHeader.size, [⟨.header, 0, ProtocolHeader.size⟩]⟩)
      ⟨true, c.msg, c.reads⟩ := by
    simp only [deserialize, hl, hvalid, htotal, Nat.not_lt.mpr hsize, Nat.not_lt.mpr hs, if_false,
      Bool.not_true, Bool.false_eq_true]
  refine ⟨by rw [hdec], fun ht => ?_, fun ht => ?_⟩
  · obtain ⟨hmsg, hptr⟩ := readRequestMeta_wire
      ⟨{ dst with header := m.wireHeader }, ProtocolHeader.size,
        [⟨.header, 0, ProtocolHeader.size⟩]⟩ hf ht hmeta
    have hread : readMeta mem ⟨{ dst with header := m.wireHeader }, ProtocolHeader.size,
        [⟨.header, 0, ProtocolHeader.size⟩]⟩ = readRequestMeta mem _ := if_pos ht
    rw [hdec, hread]
    simp only
    rw [readPayload_wire _ m.payload hf.payload (by rw [hmsg]; rfl) (by rw [hptr]; exact hpayload),
      hmsg]
  · have hne : m.type ≠ .request := by
      rw [ht]
      decide
    obtain ⟨hmsg, hptr⟩ := readResponseMeta_wire
      ⟨{ dst with header := m.wireHeader }, ProtocolHeader.size,
        [⟨.header, 0, ProtocolHeader.size⟩]⟩ hf hne hmeta
    have hread : readMeta mem ⟨{ dst with header := m.wireHeader }, ProtocolHeader.size,
        [⟨.header, 0, ProtocolHeader.size⟩]⟩ = readResponseMeta mem _ :=
      (if_neg hne).trans (if_pos ht)
    rw [hdec, hread]
    simp only
    rw [readPayload_wire _ m.payload hf.payload (by rw [hmsg]; rfl) (by rw [hptr]; exact hpayload),
      hmsg]

theorem deserialize_prefix {m : RpcMessage} {padding : UInt32} {mem : Mem} {size : Nat}
    (dst : RpcMessage) (hf : m.Fits) (hs : size < (m.serialize padding).length)
    (hm : Holds mem 0 ((m.serialize padding).take size)) :
    (deserialize mem size dst).ok = false := by
  by_cases hsize : size < ProtocolHeader.size
  · simp [deserialize, hsize]
  · have hheader : Holds mem 0 m.wireHeader.toBytes := by
      have ht := hm.take ProtocolHeader.size
      rw [List.take_take, Nat.min_eq_left (Nat.not_lt.mp hsize), serialize, List.append_assoc,
        List.take_left' (ProtocolHeader.length_toBytes _)] at ht
      exact ht
    have hl := ProtocolHeader.load_eq hheader
    have htotal := hf.totalSize padding
    simp only [deserialize, hsize, if_false, hl, htotal, hs, if_true]
    split <;> rfl

inductive Created : RpcMessage → Prop
  | request (id : UInt64) (service method payload : Bytes) (timeout : UInt32) (timestamp : UInt64) :
      Created (createRequest id service method payload timeout timestamp)
  | response (id : UInt64) (payload : Bytes) (error : ErrorCode) :
      Created (createResponse id payload error)
  | error (id : UInt64) (error : ErrorCode) (message : Bytes) :
      Created (createError id error message)

theorem Created.valid {m : RpcMessage} (h : Created m) : m.header.valid := by
  cases h <;> rfl

structure SameContent (m out : RpcMessage) : Prop where
  type : out.type = m.type
  requestId : out.requestId = m.requestId
  payload : out.payload = m.payload
  request : m.type = .request → out.service = m.service ∧ out.method = m.method ∧
    out.timeoutMs = m.timeoutMs ∧ out.timestamp = m.timestamp
  response : m.type = .response → out.errorCode = m.errorCode ∧ out.errorMessage = m.errorMessage

theorem Created.kind {m : RpcMessage} (h : Created m) : m.type = .request ∨ m.type = .response := by
  cases h with
  | request => exact .inl rfl
  | response => exact .inr rfl
  | error => exact .inr rfl

/-- Whatever follows a frame, decoding it into a fresh message gives the message back;
cut short anywhere, it is refused. -/
theorem serialize_round_trip (m : RpcMessage) (padding : UInt32) (hc : Created m)
    (hmeta : m.metaSize < 2 ^ 32) (hpayload : m.payload.length < 2 ^ 32) :
    (∀ (rest : Bytes) (mem : Mem), Holds mem 0 (m.serialize padding ++ rest) →
      (deserialize mem (m.serialize padding ++ rest).length fresh).ok = true ∧
        SameContent m (deserialize mem (m.serialize padding ++ rest).length fresh).msg) ∧
    ∀ (size : Nat) (mem : Mem), size < (m.serialize padding).length →
      Holds mem 0 ((m.serialize padding).take size) → (deserialize mem size fresh).ok = false := by
  have hf : m.Fits := ⟨hmeta, hpayload⟩
  refine ⟨fun rest mem hm => ?_, fun size mem hs hm => deserialize_prefix fresh hf hs hm⟩
  have hle : (m.serialize padding).length ≤ (m.serialize padding ++ rest).length := by
    rw [List.length_append]
    exact Nat.le_add_right _ _
  obtain ⟨hok, hreq, hresp⟩ :=
    deserialize_serialize fresh hf hc.valid (holds_append.mp hm).1 hle
  refine ⟨hok, ?_⟩
  rcases hc.kind with ht | ht
  · have hne : m.type ≠ .response := by
      rw [ht]
      decide
    rw [hreq ht]
    refine ⟨rfl, rfl, ?_, fun _ => ⟨rfl, rfl, rfl, rfl⟩, fun h => absurd h hne⟩
    by_cases hp : m.payload = [] <;> simp [hp, fresh]
  · have hne : m.type ≠ .request := by
      rw [ht]
      decide
    rw [hresp ht]
    refine ⟨rfl, rfl, ?_, fun h => absurd h hne, fun _ => ⟨rfl, ?_⟩⟩
    · by_cases hp : m.payload = [] <;> simp [hp, fresh]
    · by_cases he : m.errorMessage = [] <;> simp [he, fresh]

theorem serialize_round_trip_request_42 :
    let m := createRequest 42 [65] [66] [1, 2, 3] 5000 7
    let frame := m.serialize 0
    (deserialize (ofList (frame ++ [80] ++ []) fun _ => 0) (frame ++ [80]).length fresh).ok = true ∧
      (deserialize (ofList (frame.take 20 ++ []) fun _ => 0) 20 fresh).ok = false := by
  have h := serialize_round_trip (createRequest 42 [65] [66] [1, 2, 3] 5000 7) 0
    (.request 42 [65] [66] [1, 2, 3] 5000 7) (by decide) (by decide)
  exact ⟨(h.1 [80] _ (holds_ofList _ [] _)).1, h.2 20 _ (by decide) (holds_ofList _ [] _)⟩

end CoroRpc.Protocol

import CoroRpc.Rpc.Protocol

namespace CoroRpc.Protocol

open Memory

def Access.Inside (a : Access) (lo hi : Nat) : Prop :=
  ∀ i, a.offset ≤ i → i < a.offset + a.length → lo ≤ i ∧ i < hi

theorem Access.inside_iff (a : Access) (lo hi : Nat) :
    a.Inside lo hi ↔ a.length = 0 ∨ (lo ≤ a.offset ∧ a.offset + a.length ≤ hi) := by
  constructor
  · intro h
    rcases Nat.eq_zero_or_pos a.length with hz | hp
    · exact .inl hz
    · have hfirst := h a.offset le_rfl (by omega)
      have hlast := h (a.offset + a.length - 1) (by omega) (by omega)
      exact .inr ⟨hfirst.1, by omega⟩
  · intro h i hlo hhi
    omega

namespace Decoded

def copied (r : Decoded) (data : Mem) (f : Field) : Bytes :=
  (r.reads.filter fun a => a.field = f).flatMap fun a => slice data a.offset a.length

/-- The returned value of a field is what was copied for it, out of `[lo, hi)`. -/
def CopiedFrom (r : Decoded) (data : Mem) (f : Field) (value : Bytes) (lo hi : Nat) : Prop :=
  value = r.copied data f ∧ ∀ a ∈ r.reads, a.field = f → a.Inside lo hi

def metaEnd (r : Decoded) : Nat := ProtocolHeader.size + r.msg.header.metaLen.toNat

end Decoded

structure Contained (data : Mem) (size : Nat) (r : Decoded) : Prop where
  reads : ∀ a ∈ r.reads, a.Inside 0 size
  request : r.ok = true → r.msg.type = .request →
    r.CopiedFrom data .service r.msg.service ProtocolHeader.size r.metaEnd ∧
      r.CopiedFrom data .method r.msg.method ProtocolHeader.size r.metaEnd
  response : r.ok = true → r.msg.type = .response →
    r.CopiedFrom data .errorText r.msg.errorMessage ProtocolHeader.size r.metaEnd
  payload : r.ok = true → r.msg.type = .request ∨ r.msg.type = .response →
    r.msg.payload = slice data r.metaEnd r.msg.header.payloadLen.toNat ∧
      ∀ a ∈ r.reads, a.field = .payload →
        a.offset = r.metaEnd ∧ a.length = r.msg.header.payloadLen.toNat

def Accepts (data : Mem) (size : Nat) : Prop :=
  ProtocolHeader.size ≤ size ∧ (ProtocolHeader.load data 0).valid = true ∧
    (ProtocolHeader.load data 0).totalSize ≤ size

/-- The lengths inside a request agree with the header's: the fixed part lies inside the
frame, a non-empty text ends inside the meta region, and a payload starts where the texts
end. Where the frame has no payload the destination must have none either. -/
def RequestAgrees (data : Mem) (size : Nat) (dst : RpcMessage) : Prop :=
  let h := ProtocolHeader.load data 0
  let m := RequestMeta.load data ProtocolHeader.size
  ProtocolHeader.size + RequestMeta.size ≤ size ∧
    (m.serviceLen.toNat = 0 ∨ RequestMeta.size + m.serviceLen.toNat ≤ h.metaLen.toNat) ∧
    (m.methodLen.toNat = 0 ∨
      RequestMeta.size + m.serviceLen.toNat + m.methodLen.toNat ≤ h.metaLen.toNat) ∧
    if h.payloadLen.toNat = 0 then dst.payload = []
    else RequestMeta.size + m.serviceLen.toNat + m.methodLen.toNat = h.metaLen.toNat

def ResponseAgrees (data : Mem) (size : Nat) (dst : RpcMessage) : Prop :=
  let h := ProtocolHeader.load data 0
  let m := ResponseMeta.load data ProtocolHeader.size
  ProtocolHeader.size + ResponseMeta.size ≤ size ∧
    (if m.errorLen.toNat = 0 then dst.errorMessage = []
      else ResponseMeta.size + m.errorLen.toNat ≤ h.metaLen.toNat) ∧
    if h.payloadLen.toNat = 0 then dst.payload = []
    else ResponseMeta.size + m.errorLen.toNat = h.metaLen.toNat

def WellFramed (data : Mem) (size : Nat) (dst : RpcMessage) : Prop :=
  Accepts data size →
    ((ProtocolHeader.load data 0).type = MessageType.request.value → RequestAgrees data size dst) ∧
    ((ProtocolHeader.load data 0).type = MessageType.response.value → ResponseAgrees data size dst)

theorem deserialize_accepts {data : Mem} {size : Nat} (dst : RpcMessage) (h : Accepts data size) :
    deserialize data size dst =
      let c := readPayload data (readMeta data ⟨{ dst with header := .load data 0 },
        ProtocolHeader.size, [⟨.header, 0, ProtocolHeader.size⟩]⟩)
      ⟨true, c.msg, c.reads⟩ := by
  obtain ⟨hsize, hvalid, htotal⟩ := h
  simp only [deserialize, Nat.not_lt.mpr hsize, hvalid, Nat.not_lt.mpr htotal, if_false,
    Bool.not_true, Bool.false_eq_true]

theorem deserialize_refuses {data : Mem} {size : Nat} (dst : RpcMessage) (h : ¬ Accepts data size) :
    Contained data size (deserialize data size dst) := by
  have hok : (deserialize data size dst).ok = false ∧
      ∀ a ∈ (deserialize data size dst).reads, a.Inside 0 size := by
    by_cases hsize : size < ProtocolHeader.size
    · simp [deserialize, hsize]
    · have hread : (⟨.header, 0, ProtocolHeader.size⟩ : Access).Inside 0 size :=
        (Access.inside_iff _ _ _).mpr (.inr ⟨le_rfl, by simpa using hsize⟩)
      cases hvalid : (ProtocolHeader.load data 0).valid with
      | false => simpa [deserialize, hsize, hvalid] using hread
      | true =>
          have htotal : size < (ProtocolHeader.load data 0).totalSize := by
            by_contra htotal
            exact h ⟨Nat.not_lt.mp hsize, hvalid, Nat.not_lt.mp htotal⟩
          simpa [deserialize, hsize, hvalid, htotal] using hread
  exact ⟨hok.2, fun hk => by simp [hok.1] at hk, fun hk => by simp [hok.1] at hk,
    fun hk => by simp [hok.1] at hk⟩

def payloadReads (h : ProtocolHeader) (ptr : Nat) : List Access :=
  if h.payloadLen.toNat = 0 then [] else [⟨.payload, ptr, h.payloadLen.toNat⟩]

def payloadAt (data : Mem) (h : ProtocolHeader) (ptr : Nat) (dst : RpcMessage) : Bytes :=
  if h.payloadLen.toNat = 0 then dst.payload else slice data ptr h.payloadLen.toNat

theorem mem_payloadReads {h : ProtocolHeader} {ptr : Nat} {a : Access} :
    a ∈ payloadReads h ptr ↔
      h.payloadLen.toNat ≠ 0 ∧ a = ⟨.payload, ptr, h.payloadLen.toNat⟩ := by
  rw [payloadReads]
  split <;> simp_all

theorem copiedFrom_payloadReads {ok : Bool} {msg : RpcMessage} {reads : List Access} {data : Mem}
    {f : Field} (hf : f ≠ .payload) {h : ProtocolHeader} {ptr : Nat} {value : Bytes} {lo hi : Nat} :
    (⟨ok, msg, reads ++ payloadReads h ptr⟩ : Decoded).CopiedFrom data f value lo hi ↔
      (⟨ok, msg, reads⟩ : Decoded).CopiedFrom data f value lo hi := by
  have hother : ∀ a ∈ payloadReads h ptr, a.field ≠ f := by
    intro a ha
    rw [(mem_payloadReads.mp ha).2]
    exact Ne.symm hf
  have hnil : (payloadReads h ptr).filter (fun a => a.field = f) = [] := by
    rw [List.filter_eq_nil_iff]
    intro a ha
    simpa using hother a ha
  simp only [Decoded.CopiedFrom, Decoded.copied, List.filter_append, hnil, List.append_nil,
    List.mem_append, or_imp, forall_and]
  exact ⟨fun hc => ⟨hc.1, hc.2.1⟩, fun hc => ⟨hc.1, hc.2, fun a ha he => absurd he (hother a ha)⟩⟩

theorem zero_lt_iff_toNat (n : UInt32) : 0 < n ↔ ¬ n.toNat = 0 := by
  rw [UInt32.lt_iff_toNat_lt, UInt32.toNat_zero]
  omega

theorem readPayload_eq (data : Mem) (c : Cursor) :
    readPayload data c =
      { c with
        msg := { c.msg with payload := payloadAt data c.msg.header c.ptr c.msg }
        reads := c.reads ++ payloadReads c.msg.header c.ptr } := by
  by_cases h : c.msg.header.payloadLen.toNat = 0
  · simp [readPayload, payloadAt, payloadReads, zero_lt_iff_toNat, h]
  · simp [readPayload, payloadAt, payloadReads, zero_lt_iff_toNat, h]

/-- The payload is the declared one exactly when the read pointer stands at its start. -/
theorem payload_placed (data : Mem) (h : ProtocolHeader) (ptr start : Nat) (dst : RpcMessage)
    (reads : List Access) (hr : ∀ a ∈ reads, a.field ≠ .payload) :
    (payloadAt data h ptr dst = slice data start h.payloadLen.toNat ∧
      ∀ a ∈ reads ++ payloadReads h ptr, a.field = .payload →
        a.offset = start ∧ a.length = h.payloadLen.toNat) ↔
      if h.payloadLen.toNat = 0 then dst.payload = [] else ptr = start := by
  by_cases hp : h.payloadLen.toNat = 0
  · simp only [payloadAt, payloadReads, hp, if_true, slice_zero, List.append_nil]
    exact ⟨fun hc => hc.1, fun hc => ⟨hc, fun a ha hf => absurd hf (hr a ha)⟩⟩
  · simp only [payloadAt, hp, if_false]
    constructor
    · rintro ⟨-, hplace⟩
      exact (hplace _ (List.mem_append_right _ (mem_payloadReads.mpr ⟨hp, rfl⟩)) rfl).1
    · rintro rfl
      refine ⟨rfl, fun a ha hf => ?_⟩
      rcases List.mem_append.mp ha with ha | ha
      · exact absurd hf (hr a ha)
      · rw [(mem_payloadReads.mp ha).2]
        exact ⟨rfl, rfl⟩

def requestReads (m : RequestMeta) : List Access :=
  [⟨.header, 0, 16⟩, ⟨.metadata, 16, 32⟩, ⟨.service, 48, m.serviceLen.toNat⟩,
    ⟨.method, 48 + m.serviceLen.toNat, m.methodLen.toNat⟩]

def responseReads (m : ResponseMeta) : List Access :=
  [⟨.header, 0, 16⟩, ⟨.metadata, 16, 16⟩] ++
    if m.errorLen.toNat = 0 then [] else [⟨.errorText, 32, m.errorLen.toNat⟩]

theorem contained_accepted {data : Mem} {size ptr : Nat} {msg : RpcMessage} {reads : List Access}
    (dst : RpcMessage) (htotal : msg.header.totalSize ≤ size) (hr : ∀ a ∈ reads, a.field ≠ .payload)
    (hpayload : msg.payload = payloadAt data msg.header ptr dst)
    (hkind : msg.type = .request ∨ msg.type = .response) :
    Contained data size ⟨true, msg, reads ++ payloadReads msg.header ptr⟩ ↔
      (∀ a ∈ reads, a.Inside 0 size) ∧
        (msg.type = .request →
          (⟨true, msg, reads⟩ : Decoded).CopiedFrom data .service msg.service 16
            (16 + msg.header.metaLen.toNat) ∧
          (⟨true, msg, reads⟩ : Decoded).CopiedFrom data .method msg.method 16
            (16 + msg.header.metaLen.toNat)) ∧
        (msg.type = .response →
          (⟨true, msg, reads⟩ : Decoded).CopiedFrom data .errorText msg.errorMessage 16
            (16 + msg.header.metaLen.toNat)) ∧
        if msg.header.payloadLen.toNat = 0 then dst.payload = []
        else ptr = 16 + msg.header.metaLen.toNat := by
  have hplaced := payload_placed data msg.header ptr (16 + msg.header.metaLen.toNat) dst reads hr
  rw [← hpayload] at hplaced
  constructor
  · rintro ⟨hreads, hrequest, hresponse, hbytes⟩
    refine ⟨fun a ha => hreads a (List.mem_append_left _ ha), fun ht => ?_, fun ht => ?_,
      hplaced.mp (hbytes rfl hkind)⟩
    · obtain ⟨hs, hm⟩ := hrequest rfl ht
      exact ⟨(copiedFrom_payloadReads (by decide)).mp hs, (copiedFrom_payloadReads (by decide)).mp hm⟩
    · exact (copiedFrom_payloadReads (by decide)).mp (hresponse rfl ht)
  · rintro ⟨hreads, hrequest, hresponse, hbytes⟩
    refine ⟨fun a ha => ?_, fun _ ht => ?_, fun _ ht => ?_, fun _ _ => hplaced.mpr hbytes⟩
    · rcases List.mem_append.mp ha with ha | ha
      · exact hreads a ha
      · obtain ⟨hp, rfl⟩ := mem_payloadReads.mp ha
        simp only [hp, if_false] at hbytes
        rw [ProtocolHeader.totalSize_eq, ProtocolHeader.size] at htotal
        exact (Access.inside_iff _ _ _).mpr (.inr ⟨Nat.zero_le _, by simp only; omega⟩)
    · obtain ⟨hs, hm⟩ := hrequest ht
      exact ⟨(copiedFrom_payloadReads (by decide)).mpr hs, (copiedFrom_payloadReads (by decide)).mpr hm⟩
    · exact (copiedFrom_payloadReads (by decide)).mpr (hresponse ht)

def requestMessage (data : Mem) (dst : RpcMessage) : RpcMessage :=
  let h := ProtocolHeader.load data 0
  let m := RequestMeta.load data 16
  { dst with
    header := h
    requestId := m.requestId
    timestamp := m.timestamp
    timeoutMs := m.timeoutMs
    service := slice data 48 m.serviceLen.toNat
    method := slice data (48 + m.serviceLen.toNat) m.methodLen.toNat
    payload := payloadAt data h (48 + m.serviceLen.toNat + m.methodLen.toNat) dst }

def responseMessage (data : Mem) (dst : RpcMessage) : RpcMessage :=
  let h := ProtocolHeader.load data 0
  let m := ResponseMeta.load data 16
  { dst with
    header := h
    requestId := m.requestId
    errorCode := ⟨m.errorCode⟩
    errorMessage := if m.errorLen.toNat = 0 then dst.errorMessage else slice data 32 m.errorLen.toNat
    payload := payloadAt data h (32 + m.errorLen.toNat) dst }

theorem deserialize_request {data : Mem} {size : Nat} (dst : RpcMessage) (h : Accepts data size)
    (ht : (ProtocolHeader.load data 0).type = MessageType.request.value) :
    let m := RequestMeta.load data 16
    deserialize data size dst = ⟨true, requestMessage data dst, requestReads m ++
      payloadReads (requestMessage data dst).header (48 + m.serviceLen.toNat + m.methodLen.toNat)⟩ := by
  have hreq : (⟨(ProtocolHeader.load data 0).type⟩ : MessageType) = .request := by rw [ht]
  rw [deserialize_accepts dst h]
  simp only [readMeta, RpcMessage.type, hreq, if_true, readPayload_eq]
  rfl

theorem deserialize_response {data : Mem} {size : Nat} (dst : RpcMessage) (h : Accepts data size)
    (ht : (ProtocolHeader.load data 0).type = MessageType.response.value) :
    let m := ResponseMeta.load data 16
    deserialize data size dst = ⟨true, responseMessage data dst, responseReads m ++
      payloadReads (responseMessage data dst).header (32 + m.errorLen.toNat)⟩ := by
  have hresp : (⟨(ProtocolHeader.load data 0).type⟩ : MessageType) = .response := by rw [ht]
  have hne : MessageType.response ≠ .request := by decide
  rw [deserialize_accepts dst h]
  simp only [readMeta, RpcMessage.type, hresp, hne, if_true, if_false, readPayload_eq]
  by_cases he : (ResponseMeta.load data 16).errorLen.toNat = 0
  · simp [readResponseMeta, zero_lt_iff_toNat, ProtocolHeader.size, ResponseMeta.size, he, payloadAt,
      responseReads, responseMessage]
  · simp [readResponseMeta, zero_lt_iff_toNat, ProtocolHeader.size, ResponseMeta.size, he, payloadAt,
      responseReads, responseMessage]

theorem requestReads_inside (m : RequestMeta) (size : Nat) :
    (∀ a ∈ requestReads m, a.Inside 0 size) ↔ 48 ≤ size ∧
      (m.serviceLen.toNat = 0 ∨ 48 + m.serviceLen.toNat ≤ size) ∧
      (m.methodLen.toNat = 0 ∨ 48 + m.serviceLen.toNat + m.methodLen.toNat ≤ size) := by
  simp [requestReads, Access.inside_iff]
  omega

theorem service_copied (msg : RpcMessage) (m : RequestMeta) (data : Mem) (hi : Nat) :
    (⟨true, msg, requestReads m⟩ : Decoded).CopiedFrom data .service
        (slice data 48 m.serviceLen.toNat) 16 hi ↔
      m.serviceLen.toNat = 0 ∨ 48 + m.serviceLen.toNat ≤ hi := by
  simp [Decoded.CopiedFrom, Decoded.copied, requestReads, Access.inside_iff]

theorem method_copied (msg : RpcMessage) (m : RequestMeta) (data : Mem) (hi : Nat) :
    (⟨true, msg, requestReads m⟩ : Decoded).CopiedFrom data .method
        (slice data (48 + m.serviceLen.toNat) m.methodLen.toNat) 16 hi ↔
      m.methodLen.toNat = 0 ∨ 48 + m.serviceLen.toNat + m.methodLen.toNat ≤ hi := by
  simp [Decoded.CopiedFrom, Decoded.copied, requestReads, Access.inside_iff]
  omega

theorem responseReads_inside (m : ResponseMeta) (size : Nat) :
    (∀ a ∈ responseReads m, a.Inside 0 size) ↔ 32 ≤ size ∧
      (m.errorLen.toNat = 0 ∨ 32 + m.errorLen.toNat ≤ size) := by
  by_cases he : m.errorLen.toNat = 0
  · simp [responseReads, Access.inside_iff, he]
    omega
  · simp [responseReads, Access.inside_iff, he]
    omega

theorem errorText_copied (msg : RpcMessage) (m : ResponseMeta) (data : Mem) (text : Bytes) (hi : Nat) :
    (⟨true, msg, responseReads m⟩ : Decoded).CopiedFrom data .errorText
        (if m.errorLen.toNat = 0 then text else slice data 32 m.errorLen.toNat) 16 hi ↔
      if m.errorLen.toNat = 0 then text = [] else 32 + m.errorLen.toNat ≤ hi := by
  by_cases he : m.errorLen.toNat = 0
  · simp [Decoded.CopiedFrom, Decoded.copied, responseReads, he]
  · simp [Decoded.CopiedFrom, Decoded.copied, responseReads, Access.inside_iff, he]

theorem contained_request {data : Mem} {size : Nat} {dst : RpcMessage} (h : Accepts data size)
    (ht : (ProtocolHeader.load data 0).type = MessageType.request.value) :
    Contained data size (deserialize data size dst) ↔ RequestAgrees data size dst := by
  have htype : (requestMessage data dst).type = .request := by
    rw [RpcMessage.type, requestMessage, ht]
  have hne : MessageType.request ≠ .response := by decide
  have htotal : (requestMessage data dst).header.totalSize ≤ size := h.2.2
  rw [deserialize_request dst h ht,
    contained_accepted dst htotal (by simp [requestReads]) rfl (.inl htype)]
  rw [ProtocolHeader.totalSize_eq, ProtocolHeader.size] at htotal
  simp only [htype, hne, true_implies, false_implies, true_and, requestReads_inside]
  simp only [requestMessage, service_copied, method_copied, RequestAgrees, ProtocolHeader.size,
    RequestMeta.size] at htotal ⊢
  have hstart : 48 + (RequestMeta.load data 16).serviceLen.toNat +
      (RequestMeta.load data 16).methodLen.toNat = 16 + (ProtocolHeader.load data 0).metaLen.toNat ↔
      32 + (RequestMeta.load data 16).serviceLen.toNat + (RequestMeta.load data 16).methodLen.toNat =
        (ProtocolHeader.load data 0).metaLen.toNat := by
    omega
  simp only [hstart]
  constructor
  · rintro ⟨hfixed, ⟨hservice, hmethod⟩, hpayload⟩
    exact ⟨hfixed.1, by omega, by omega, hpayload⟩
  · rintro ⟨hfixed, hservice, hmethod, hpayload⟩
    exact ⟨⟨hfixed, by omega, by omega⟩, ⟨by omega, by omega⟩, hpayload⟩

theorem contained_response {data : Mem} {size : Nat} {dst : RpcMessage} (h : Accepts data size)
    (ht : (ProtocolHeader.load data 0).type = MessageType.response.value) :
    Contained data size (deserialize data size dst) ↔ ResponseAgrees data size dst := by
  have htype : (responseMessage data dst).type = .response := by
    rw [RpcMessage.type, responseMessage, ht]
  have hne : MessageType.response ≠ .request := by decide
  have htotal : (responseMessage data dst).header.totalSize ≤ size := h.2.2
  have hpayload : ∀ a ∈ responseReads (ResponseMeta.load data 16), a.field ≠ .payload := by
    by_cases he : (ResponseMeta.load data 16).errorLen.toNat = 0 <;> simp [responseReads, he]
  rw [deserialize_response dst h ht,
    contained_accepted dst htotal hpayload rfl (.inr htype)]
  rw [ProtocolHeader.totalSize_eq, ProtocolHeader.size] at htotal
  simp only [htype, hne, true_implies, false_implies, true_and, responseReads_inside]
  simp only [responseMessage, errorText_copied, ResponseAgrees, ProtocolHeader.size,
    ResponseMeta.size] at htotal ⊢
  have hstart : 32 + (ResponseMeta.load data 16).errorLen.toNat =
      16 + (ProtocolHeader.load data 0).metaLen.toNat ↔
      16 + (ResponseMeta.load data 16).errorLen.toNat = (ProtocolHeader.load data 0).metaLen.toNat := by
    omega
  have hend : 32 + (ResponseMeta.load data 16).errorLen.toNat ≤
      16 + (ProtocolHeader.load data 0).metaLen.toNat ↔
      16 + (ResponseMeta.load data 16).errorLen.toNat ≤ (ProtocolHeader.load data 0).metaLen.toNat := by
    omega
  simp only [hstart, hend]
  constructor
  · rintro ⟨hfixed, htext, hpay⟩
    exact ⟨hfixed.1, htext, hpay⟩
  · rintro ⟨hfixed, htext, hpay⟩
    refine ⟨⟨hfixed, ?_⟩, htext, hpay⟩
    by_cases he : (ResponseMeta.load data 16).errorLen.toNat = 0
    · exact .inl he
    · simp only [he, if_false] at htext
      exact .inr (by omega)

/-- A frame of another type has its payload read from the end of the header, which never
leaves the frame. -/
theorem contained_other {data : Mem} {size : Nat} (dst : RpcMessage) (h : Accepts data size)
    (hreq : (ProtocolHeader.load data 0).type ≠ MessageType.request.value)
    (hresp : (ProtocolHeader.load data 0).type ≠ MessageType.response.value) :
    Contained data size (deserialize data size dst) := by
  have htotal := h.2.2
  rw [ProtocolHeader.totalSize_eq] at htotal
  have hreq' : (⟨(ProtocolHeader.load data 0).type⟩ : MessageType) ≠ .request :=
    fun he => hreq (congrArg MessageType.value he)
  have hresp' : (⟨(ProtocolHeader.load data 0).type⟩ : MessageType) ≠ .response :=
    fun he => hresp (congrArg MessageType.value he)
  rw [deserialize_accepts dst h]
  simp only [readMeta, RpcMessage.type, hreq', hresp', if_false, readPayload_eq]
  refine ⟨fun a ha => ?_, fun _ hc => absurd hc hreq', fun _ hc => absurd hc hresp',
    fun _ hc => absurd hc (not_or.mpr ⟨hreq', hresp'⟩)⟩
  rw [Access.inside_iff]
  rcases List.mem_append.mp ha with ha | ha
  · rw [List.mem_singleton.mp ha]
    exact .inr ⟨le_rfl, by simpa using h.1⟩
  · rw [(mem_payloadReads.mp ha).2]
    exact .inr ⟨Nat.zero_le _, by simp only; omega⟩

/-- For every input and every destination, the decoder stays inside the frame and inside
the regions it declares exactly when the inner lengths agree with the header. -/
theorem deserialize_contained_iff (data : Mem) (size : Nat) (dst : RpcMessage) :
    Contained data size (deserialize data size dst) ↔ WellFramed data size dst := by
  by_cases h : Accepts data size
  · by_cases hreq : (ProtocolHeader.load data 0).type = MessageType.request.value
    · have hresp : (ProtocolHeader.load data 0).type ≠ MessageType.response.value := by
        rw [hreq]
        decide
      rw [contained_request h hreq]
      exact ⟨fun hc _ => ⟨fun _ => hc, fun hr => absurd hr hresp⟩, fun hw => (hw h).1 hreq⟩
    · by_cases hresp : (ProtocolHeader.load data 0).type = MessageType.response.value
      · rw [contained_response h hresp]
        exact ⟨fun hc _ => ⟨fun hr => absurd hr hreq, fun _ => hc⟩, fun hw => (hw h).2 hresp⟩
      · exact ⟨fun _ _ => ⟨fun hr => absurd hr hreq, fun hr => absurd hr hresp⟩,
          fun _ => contained_other dst h hreq hresp⟩
  · exact ⟨fun _ ha => absurd ha h, fun _ => deserialize_refuses dst h⟩

def bareRequest : Bytes := (ProtocolHeader.init .request).toBytes

theorem bareRequest_not_contained :
    ¬ Contained (ofList bareRequest fun _ => 0) bareRequest.length
      (deserialize (ofList bareRequest fun _ => 0) bareRequest.length .fresh) := by
  intro h
  have hread := h.reads ⟨.metadata, 16, 32⟩ (by decide) 16 le_rfl (by decide)
  exact absurd hread.2 (by decide)

end CoroRpc.Protocol

import CoroRpc.Rpc.Containment

namespace CoroRpc.Protocol

open Memory

structure SameExposed (a b : RpcMessage) : Prop where
  type : a.type = b.type
  requestId : a.requestId = b.requestId
  service : a.service = b.service
  method : a.method = b.method
  payload : a.payload = b.payload
  errorCode : a.errorCode = b.errorCode
  errorMessage : a.errorMessage = b.errorMessage
  timeoutMs : a.timeoutMs = b.timeoutMs
  timestamp : a.timestamp = b.timestamp

def SameBesideMeta (data : Mem) (a b : RpcMessage) : Prop :=
  let type : MessageType := ⟨(ProtocolHeader.load data 0).type⟩
  if type = .request then a.errorCode = b.errorCode ∧ a.errorMessage = b.errorMessage
  else if type = .response then
    a.service = b.service ∧ a.method = b.method ∧ a.timeoutMs = b.timeoutMs ∧ a.timestamp = b.timestamp ∧
      ((ResponseMeta.load data ProtocolHeader.size).errorLen = 0 → a.errorMessage = b.errorMessage)
  else
    a.requestId = b.requestId ∧ a.service = b.service ∧ a.method = b.method ∧ a.errorCode = b.errorCode ∧
      a.errorMessage = b.errorMessage ∧ a.timeoutMs = b.timeoutMs ∧ a.timestamp = b.timestamp

def SameUnassigned (data : Mem) (a b : RpcMessage) : Prop :=
  SameBesideMeta data a b ∧ ((ProtocolHeader.load data 0).payloadLen = 0 → a.payload = b.payload)

theorem accepts_of_ok {data : Mem} {size : Nat} {dst : RpcMessage} (h : (deserialize data size dst).ok = true) :
    Accepts data size := by
  rw [deserialize] at h
  split at h
  · cases h
  · next hsize =>
      dsimp only at h
      split at h
      · cases h
      · next hvalid =>
          split at h
          · cases h
          · next htotal =>
              exact ⟨Nat.not_lt.mp hsize, by simpa using hvalid, Nat.not_lt.mp htotal⟩

theorem deserialize_other {data : Mem} {size : Nat} (dst : RpcMessage) (h : Accepts data size)
    (hreq : (⟨(ProtocolHeader.load data 0).type⟩ : MessageType) ≠ .request)
    (hresp : (⟨(ProtocolHeader.load data 0).type⟩ : MessageType) ≠ .response) :
    (deserialize data size dst).msg =
      { dst with header := .load data 0, payload := payloadAt data (.load data 0) ProtocolHeader.size dst } := by
  rw [deserialize_accepts dst h]
  simp only [readMeta, RpcMessage.type, hreq, hresp, if_false, readPayload_eq]
  rfl

theorem payloadAt_eq_iff {data : Mem} {h : ProtocolHeader} {ptr : Nat} {a b : RpcMessage} :
    payloadAt data h ptr a = payloadAt data h ptr b ↔ (h.payloadLen = 0 → a.payload = b.payload) := by
  rw [← UInt32.toNat_inj, UInt32.toNat_zero]
  by_cases hlen : h.payloadLen.toNat = 0
  · simp [payloadAt, hlen]
  · simp [payloadAt, hlen]

theorem errorText_eq_iff {data : Mem} {m : ResponseMeta} {a b : RpcMessage} :
    (if m.errorLen.toNat = 0 then a.errorMessage else slice data 32 m.errorLen.toNat) =
        (if m.errorLen.toNat = 0 then b.errorMessage else slice data 32 m.errorLen.toNat) ↔
      (m.errorLen = 0 → a.errorMessage = b.errorMessage) := by
  rw [← UInt32.toNat_inj, UInt32.toNat_zero]
  by_cases hlen : m.errorLen.toNat = 0
  · simp [hlen]
  · simp [hlen]

/-- A frame that is accepted for one destination is accepted for every other, and two destinations show the same
afterwards exactly when they were the same in the fields that the frame does not assign. -/
theorem deserialize_sameExposed_iff {data : Mem} {size : Nat} {a b : RpcMessage}
    (ha : (deserialize data size a).ok = true) :
    (deserialize data size b).ok = true ∧
      (SameExposed (deserialize data size a).msg (deserialize data size b).msg ↔ SameUnassigned data a b) := by
  have h := accepts_of_ok ha
  refine ⟨by rw [deserialize_accepts b h], ?_⟩
  have htype (m n : RpcMessage) (hm : m.header = .load data 0) (hn : n.header = .load data 0) : m.type = n.type := by
    rw [RpcMessage.type, RpcMessage.type, hm, hn]
  rw [SameUnassigned, SameBesideMeta]
  by_cases hreq : (⟨(ProtocolHeader.load data 0).type⟩ : MessageType) = .request
  · have hval : (ProtocolHeader.load data 0).type = MessageType.request.value := congrArg MessageType.value hreq
    rw [deserialize_request a h hval, deserialize_request b h hval, if_pos hreq]
    constructor
    · intro hs
      exact ⟨⟨hs.errorCode, hs.errorMessage⟩, payloadAt_eq_iff.mp hs.payload⟩
    · rintro ⟨⟨hcode, htext⟩, hpayload⟩
      exact ⟨htype _ _ rfl rfl, rfl, rfl, rfl, payloadAt_eq_iff.mpr hpayload, hcode, htext, rfl, rfl⟩
  · rw [if_neg hreq]
    by_cases hresp : (⟨(ProtocolHeader.load data 0).type⟩ : MessageType) = .response
    · have hval : (ProtocolHeader.load data 0).type = MessageType.response.value := congrArg MessageType.value hresp
      rw [deserialize_response a h hval, deserialize_response b h hval, if_pos hresp]
      constructor
      · intro hs
        exact ⟨⟨hs.service, hs.method, hs.timeoutMs, hs.timestamp, errorText_eq_iff.mp hs.errorMessage⟩,
          payloadAt_eq_iff.mp hs.payload⟩
      · rintro ⟨⟨hservice, hmethod, htimeout, hstamp, htext⟩, hpayload⟩
        exact ⟨htype _ _ rfl rfl, rfl, hservice, hmethod, payloadAt_eq_iff.mpr hpayload, rfl,
          errorText_eq_iff.mpr htext, htimeout, hstamp⟩
    · rw [deserialize_other a h hreq hresp, deserialize_other b h hreq hresp, if_neg hresp]
      constructor
      · intro hs
        exact ⟨⟨hs.requestId, hs.service, hs.method, hs.errorCode, hs.errorMessage, hs.timeoutMs, hs.timestamp⟩,
          payloadAt_eq_iff.mp hs.payload⟩
      · rintro ⟨⟨hid, hservice, hmethod, hcode, htext, htimeout, hstamp⟩, hpayload⟩
        exact ⟨htype _ _ rfl rfl, hid, hservice, hmethod, payloadAt_eq_iff.mpr hpayload, hcode, htext, htimeout,
          hstamp⟩

def bareResponse : Bytes := (RpcMessage.createResponse 7 [] .ok).serialize 0

def reused (payload : Bytes) : RpcMessage :=
  { RpcMessage.fresh with requestId := 3, errorCode := .unknown, payload }

theorem deserialize_sameExposed_reused :
    SameExposed (deserialize (ofList bareResponse fun _ => 0) bareResponse.length (reused [])).msg
      (deserialize (ofList bareResponse fun _ => 0) bareResponse.length .fresh).msg :=
  (deserialize_sameExposed_iff (by decide)).2.mpr ⟨⟨rfl, rfl, rfl, rfl, fun _ => rfl⟩, fun _ => rfl⟩

theorem deserialize_reused_differs :
    (deserialize (ofList bareResponse fun _ => 0) bareResponse.length (reused [1])).ok = true ∧
      (deserialize (ofList bareResponse fun _ => 0) bareResponse.length .fresh).ok = true ∧
      ¬SameExposed (deserialize (ofList bareResponse fun _ => 0) bareResponse.length (reused [1])).msg
        (deserialize (ofList bareResponse fun _ => 0) bareResponse.length .fresh).msg := by
  refine ⟨by decide, by decide, fun h => ?_⟩
  exact absurd h.payload (by decide)

end CoroRpc.Protocol

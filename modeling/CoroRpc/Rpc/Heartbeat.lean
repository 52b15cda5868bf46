import CoroRpc.Rpc.Destination
import CoroRpc.Rpc.RoundTrip
import CoroRpc.Rpc.RpcServer

namespace CoroRpc.Protocol

open Memory RpcMessage

def MessageType.Plain (t : MessageType) : Prop := t = .heartbeat ∨ t = .error ∨ t = .stream ∨ t = .streamEnd

theorem MessageType.Plain.ne_request {t : MessageType} (h : t.Plain) : t ≠ .request := by
  rcases h with rfl | rfl | rfl | rfl <;> decide

theorem MessageType.Plain.ne_response {t : MessageType} (h : t.Plain) : t ≠ .response := by
  rcases h with rfl | rfl | rfl | rfl <;> decide

theorem prefix_append_iff {α : Type} {p l : List α} (hp : 0 < p.length) :
    l <+: p ++ l ↔ ∀ i, i < l.length → l[i]? = p[i % p.length]? := by
  rw [List.prefix_iff_getElem?]
  constructor
  · intro h i
    induction i using Nat.strongRecOn with
    | ind i ih =>
        intro hi
        rw [List.getElem?_eq_getElem hi, ← h i hi]
        by_cases hlt : i < p.length
        · rw [List.getElem?_append_left hlt, Nat.mod_eq_of_lt hlt]
        · have hle : p.length ≤ i := Nat.not_lt.mp hlt
          rw [List.getElem?_append_right hle, ih (i - p.length) (by omega) (by omega), Nat.mod_eq_sub_mod hle]
  · intro h i hi
    rw [← List.getElem?_eq_getElem hi, h i hi]
    by_cases hlt : i < p.length
    · rw [List.getElem?_append_left hlt, Nat.mod_eq_of_lt hlt]
    · have hle : p.length ≤ i := Nat.not_lt.mp hlt
      rw [List.getElem?_append_right hle, h (i - p.length) (by omega), Nat.mod_eq_sub_mod hle]

def Kept (m : RpcMessage) (mem : Mem) (size : Nat) : Prop :=
  (deserialize mem size fresh).ok = true ∧ (deserialize mem size fresh).msg.requestId = m.requestId ∧
    (deserialize mem size fresh).msg.payload = m.payload

/-- The payload is what stands in the place of the metadata: the metadata, over and over. -/
def RepeatsMeta (m : RpcMessage) : Prop :=
  ∀ i, i < m.payload.length → m.payload[i]? = (m.wireMeta 0)[i % m.metaSize]?

section Frame

variable {m : RpcMessage} {padding : UInt32} {mem : Mem}

theorem wireMeta_padding (ht : m.type ≠ .request) : m.wireMeta padding = m.wireMeta 0 := by
  rw [wireMeta, wireMeta, if_neg ht, if_neg ht]

theorem metaSize_pos (m : RpcMessage) : 0 < m.metaSize := by
  rw [metaSize]
  split
  · exact Nat.lt_of_lt_of_le (Nat.zero_lt_succ 31) (by rw [Nat.add_assoc]; exact Nat.le_add_right _ _)
  · exact Nat.lt_of_lt_of_le (Nat.zero_lt_succ 15) (Nat.le_add_right _ _)

theorem load_serialize (hm : Holds mem 0 (m.serialize padding)) :
    ProtocolHeader.load mem 0 = m.wireHeader := by
  rw [serialize, List.append_assoc, holds_append] at hm
  exact ProtocolHeader.load_eq hm.1

/-- The lengths that do not fit only make the header promise less. -/
theorem totalSize_wireHeader_le (m : RpcMessage) (padding : UInt32) :
    m.wireHeader.totalSize ≤ (m.serialize padding).length := by
  rw [ProtocolHeader.totalSize_eq, length_serialize]
  have hmeta : m.wireHeader.metaLen.toNat ≤ m.metaSize := by
    show (UInt32.ofNat m.metaSize).toNat ≤ _
    rw [UInt32.toNat_ofNat']
    exact Nat.mod_le _ _
  have hpayload : m.wireHeader.payloadLen.toNat ≤ m.payload.length := by
    show (UInt32.ofNat m.payload.length).toNat ≤ _
    rw [UInt32.toNat_ofNat']
    exact Nat.mod_le _ _
  omega

theorem accepts_serialize (hm : Holds mem 0 (m.serialize padding)) :
    Accepts mem (m.serialize padding).length ↔ m.header.valid = true := by
  rw [Accepts, load_serialize hm]
  constructor
  · rintro ⟨-, hvalid, -⟩
    exact hvalid
  · intro hvalid
    refine ⟨?_, hvalid, totalSize_wireHeader_le m padding⟩
    rw [length_serialize]
    omega

theorem slice_serialize (hm : Holds mem 0 (m.serialize padding)) {len : Nat} (hlen : len ≤ m.payload.length) :
    slice mem ProtocolHeader.size len = (m.wireMeta padding ++ m.payload).take len := by
  rw [serialize, List.append_assoc, holds_append] at hm
  have hbody := hm.2
  rw [ProtocolHeader.length_toBytes, Nat.zero_add] at hbody
  refine (hbody.take len).slice_eq ?_
  rw [List.length_take, List.length_append]
  omega

theorem deserialize_plain (ht : m.type.Plain) (hm : Holds mem 0 (m.serialize padding))
    (hvalid : m.header.valid = true) :
    (deserialize mem (m.serialize padding).length fresh).ok = true ∧
      (deserialize mem (m.serialize padding).length fresh).msg =
        { fresh with
          header := m.wireHeader
          payload := (m.wireMeta padding ++ m.payload).take (m.payload.length % 2 ^ 32) } := by
  have haccepts := (accepts_serialize hm).mpr hvalid
  have hload := load_serialize hm
  have hlen : m.wireHeader.payloadLen.toNat = m.payload.length % 2 ^ 32 := UInt32.toNat_ofNat' ..
  constructor
  · rw [deserialize_accepts fresh haccepts]
  · rw [deserialize_other fresh haccepts (by rw [hload]; exact ht.ne_request) (by rw [hload]; exact ht.ne_response),
      hload, payloadAt, hlen, slice_serialize hm (Nat.mod_le _ _)]
    split
    · next hzero =>
        rw [hzero]
        rfl
    · rfl

theorem kept_iff (ht : m.type.Plain) (hm : Holds mem 0 (m.serialize padding)) :
    Kept m mem (m.serialize padding).length ↔
      m.header.valid = true ∧ m.requestId = 0 ∧ m.payload.length < 2 ^ 32 ∧ RepeatsMeta m := by
  have hrepeats : m.payload <+: m.wireMeta 0 ++ m.payload ↔ RepeatsMeta m := by
    rw [prefix_append_iff (by rw [length_wireMeta]; exact metaSize_pos m), length_wireMeta]
    rfl
  constructor
  · rintro ⟨hok, hid, hpayload⟩
    have hvalid := (accepts_serialize hm).mp (accepts_of_ok hok)
    have hmsg := (deserialize_plain ht hm hvalid).2
    rw [hmsg] at hid hpayload
    rw [wireMeta_padding ht.ne_request] at hpayload
    have hlength := congrArg List.length hpayload
    rw [List.length_take, List.length_append] at hlength
    have hlt : m.payload.length < 2 ^ 32 := by
      have hmod := Nat.mod_lt m.payload.length (Nat.two_pow_pos 32)
      omega
    rw [Nat.mod_eq_of_lt hlt] at hpayload
    exact ⟨hvalid, hid.symm, hlt, hrepeats.mp (List.prefix_iff_eq_take.mpr hpayload.symm)⟩
  · rintro ⟨hvalid, hid, hlt, hpayload⟩
    obtain ⟨hok, hmsg⟩ := deserialize_plain ht hm hvalid
    refine ⟨hok, ?_, ?_⟩
    · rw [hmsg, hid]
      rfl
    · rw [hmsg, wireMeta_padding ht.ne_request, Nat.mod_eq_of_lt hlt]
      exact (List.prefix_iff_eq_take.mp (hrepeats.mpr hpayload)).symm

end Frame

end CoroRpc.Protocol

namespace CoroRpc.Rpc

open Memory Protocol RpcMessage

variable {σ : Type}

def Answered (registry : ServiceRegistry σ) (s : RpcServer σ) (id : UInt64) (mem : Mem) (size : Nat) : Prop :=
  let answer := (s.handleMessage registry mem size).1
  ∀ wire, Holds wire 0 answer →
    (deserialize wire answer.length fresh).ok = true ∧
      (deserialize wire answer.length fresh).msg.header.totalSize = answer.length ∧
      (deserialize wire answer.length fresh).msg.type = .response ∧
      (deserialize wire answer.length fresh).msg.requestId = id

variable {registry : ServiceRegistry σ} {s : RpcServer σ} {m : RpcMessage} {padding : UInt32} {mem : Mem}

theorem handleMessage_heartbeat (registry : ServiceRegistry σ) (s : RpcServer σ) (ht : m.type = .heartbeat)
    (hm : Holds mem 0 (m.serialize padding)) (hvalid : m.header.valid = true) :
    (s.handleMessage registry mem (m.serialize padding).length).1 = (createResponse 0 [] .ok).serialize 0 := by
  obtain ⟨hok, hmsg⟩ := deserialize_plain (.inl ht) hm hvalid
  have htype : (deserialize mem (m.serialize padding).length fresh).msg.type = .heartbeat := by
    rw [hmsg]
    exact ht
  have hid : (deserialize mem (m.serialize padding).length fresh).msg.requestId = 0 := by
    rw [hmsg]
    rfl
  simp only [RpcServer.handleMessage, hok, htype, hid]
  rfl

theorem deserialize_createResponse (id : UInt64) {wire : Mem}
    (hm : Holds wire 0 ((createResponse id [] .ok).serialize 0)) :
    (deserialize wire ((createResponse id [] .ok).serialize 0).length fresh).ok = true ∧
      (deserialize wire ((createResponse id [] .ok).serialize 0).length fresh).msg =
        { fresh with header := (createResponse id [] .ok).wireHeader, requestId := id } := by
  have hfits : (createResponse id [] .ok).Fits := ⟨by show 16 < 2 ^ 32; decide, Nat.two_pow_pos 32⟩
  obtain ⟨hok, -, hmsg⟩ := deserialize_serialize fresh hfits rfl hm le_rfl
  exact ⟨hok, hmsg rfl⟩

theorem answered_iff (ht : m.type = .heartbeat) (hm : Holds mem 0 (m.serialize padding)) :
    Answered registry s m.requestId mem (m.serialize padding).length ↔
      m.header.valid = true ∧ m.requestId = 0 := by
  by_cases hvalid : m.header.valid = true
  · have hanswer := handleMessage_heartbeat registry s ht hm hvalid
    simp only [Answered, hanswer]
    constructor
    · intro h
      have hwire := holds_ofList ((createResponse 0 [] .ok).serialize 0) [] fun _ => 0
      obtain ⟨-, -, -, hid⟩ := h _ hwire
      rw [(deserialize_createResponse 0 hwire).2] at hid
      exact ⟨hvalid, hid.symm⟩
    · rintro ⟨-, hid⟩ wire hwire
      obtain ⟨hok, hmsg⟩ := deserialize_createResponse 0 hwire
      refine ⟨hok, ?_, ?_, ?_⟩
      · rw [hmsg]
        rfl
      · rw [hmsg]
        rfl
      · rw [hmsg]
        exact hid.symm
  · have hrefused : (deserialize mem (m.serialize padding).length fresh).ok = false := by
      rw [← Bool.not_eq_true]
      exact fun hok => hvalid ((accepts_serialize hm).mp (accepts_of_ok hok))
    refine iff_of_false (fun h => ?_) fun h => hvalid h.1
    simp only [Answered, RpcServer.handleMessage, hrefused] at h
    have hempty := (h (fun _ => 0) rfl).1
    cases hempty

/-- A message of a type other than request and response comes back with its id and payload, and a
heartbeat is answered under its id, exactly when the id is the one of a fresh message and the payload
reads like the metadata in front of it. -/
theorem plain_message_kept_iff (registry : ServiceRegistry σ) (s : RpcServer σ) (m : RpcMessage)
    (padding : UInt32) (mem : Mem) (ht : m.type.Plain) (hm : Holds mem 0 (m.serialize padding)) :
    (Kept m mem (m.serialize padding).length ∧
        (m.type = .heartbeat → Answered registry s m.requestId mem (m.serialize padding).length) ↔
      m.header.valid = true ∧ m.requestId = 0 ∧ m.payload.length < 2 ^ 32 ∧ RepeatsMeta m) ∧
    (m.type = .heartbeat →
      (Answered registry s m.requestId mem (m.serialize padding).length ↔
        m.header.valid = true ∧ m.requestId = 0)) := by
  refine ⟨?_, fun hheart => answered_iff hheart hm⟩
  rw [kept_iff ht hm]
  constructor
  · rintro ⟨hkept, -⟩
    exact hkept
  · rintro ⟨hvalid, hid, hrest⟩
    exact ⟨⟨hvalid, hid, hrest⟩, fun hheart => (answered_iff hheart hm).mpr ⟨hvalid, hid⟩⟩

def beat (requestId : UInt64) (payload : Bytes) : RpcMessage :=
  { fresh with header := .init .heartbeat, requestId, payload }

def repeating : Bytes := List.replicate 40 0

theorem plain_message_kept_repeating :
    Kept (beat 0 repeating) (ofList ((beat 0 repeating).serialize 0 ++ []) fun _ => 0) 72 := by
  have hm := holds_ofList ((beat 0 repeating).serialize 0) [] fun _ => 0
  have hiff := (plain_message_kept_iff ({} : ServiceRegistry Unit) ⟨{}, 0, 0, ()⟩ (beat 0 repeating) 0 _ (.inl rfl)
    hm).1
  have hrepeats : ∀ i < 40, repeating[i]? = ((beat 0 repeating).wireMeta 0)[i % 16]? := by decide
  exact (hiff.mpr ⟨rfl, rfl, by decide, hrepeats⟩).1

/-- A heartbeat with the id 7 and one byte comes back with the id 0 and the first byte of its metadata,
and is answered under the id 0. -/
theorem plain_message_not_kept :
    let mem := ofList ((beat 7 [1]).serialize 0 ++ []) fun _ => 0
    (deserialize mem 33 fresh).msg.requestId = 0 ∧ (deserialize mem 33 fresh).msg.payload = [7] ∧
      ¬Kept (beat 7 [1]) mem 33 ∧
      ¬Answered ({} : ServiceRegistry Unit) ⟨{}, 0, 0, ()⟩ 7 mem 33 := by
  have hm := holds_ofList ((beat 7 [1]).serialize 0) [] fun _ => 0
  obtain ⟨-, hmsg⟩ := deserialize_plain (.inl rfl) hm rfl
  refine ⟨congrArg requestId hmsg, congrArg payload hmsg, fun h => ?_, fun h => ?_⟩
  · have hid := ((kept_iff (.inl rfl) hm).mp h).2.1
    exact absurd hid (by decide)
  · have hid := ((answered_iff rfl hm).mp h).2
    exact absurd hid (by decide)

end CoroRpc.Rpc

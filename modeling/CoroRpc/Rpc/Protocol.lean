import CoroRpc.Lib.Memory

namespace CoroRpc.Protocol

open Memory Words

def text (s : String) : Bytes := s.toList.map fun c => .ofNat c.toNat

-- A `uint8_t` enum class: every value of the underlying type is a value of the enum, also one read off the wire
-- that has no enumerator.
structure MessageType where
  value : UInt8
  deriving DecidableEq, Repr

namespace MessageType

def request : MessageType := ⟨0⟩
def response : MessageType := ⟨1⟩
def heartbeat : MessageType := ⟨2⟩
def error : MessageType := ⟨3⟩
def stream : MessageType := ⟨4⟩
def streamEnd : MessageType := ⟨5⟩

end MessageType

structure ErrorCode where
  value : Int32
  deriving DecidableEq

namespace ErrorCode

def ok : ErrorCode := ⟨0⟩
def unknown : ErrorCode := ⟨-1⟩
def invalidRequest : ErrorCode := ⟨-2⟩
def serviceNotFound : ErrorCode := ⟨-3⟩
def methodNotFound : ErrorCode := ⟨-4⟩
def serializationError : ErrorCode := ⟨-5⟩
def timeout : ErrorCode := ⟨-6⟩
def connectionError : ErrorCode := ⟨-7⟩
def serverBusy : ErrorCode := ⟨-8⟩

end ErrorCode

structure ProtocolHeader where
  magic : UInt16
  version : UInt8
  type : UInt8
  metaLen : UInt32
  payloadLen : UInt32
  reserved : UInt32
  deriving DecidableEq, Repr

namespace ProtocolHeader

def kMagic : UInt16 := 0x5250
def kVersion : UInt8 := 1

def size : Nat := 16

def zero : ProtocolHeader := ⟨0, 0, 0, 0, 0, 0⟩

def valid (h : ProtocolHeader) : Bool := h.magic == kMagic

def init (t : MessageType) : ProtocolHeader := ⟨kMagic, kVersion, t.value, 0, 0, 0⟩

def totalSize (h : ProtocolHeader) : Nat := (size + h.metaLen.toNat + h.payloadLen.toNat) % 2 ^ 64

def toBytes (h : ProtocolHeader) : Bytes :=
  Words.toBytes 2 h.magic.toBitVec ++ [h.version] ++ [h.type] ++ Words.toBytes 4 h.metaLen.toBitVec ++
    Words.toBytes 4 h.payloadLen.toBitVec ++ Words.toBytes 4 h.reserved.toBitVec

def load (mem : Mem) (off : Nat) : ProtocolHeader where
  magic := ⟨loadWord 16 2 mem off⟩
  version := mem (off + 2)
  type := mem (off + 3)
  metaLen := ⟨loadWord 32 4 mem (off + 4)⟩
  payloadLen := ⟨loadWord 32 4 mem (off + 8)⟩
  reserved := ⟨loadWord 32 4 mem (off + 12)⟩

@[simp] theorem length_toBytes (h : ProtocolHeader) : h.toBytes.length = size := by
  simp [toBytes, size]

theorem totalSize_eq (h : ProtocolHeader) :
    h.totalSize = size + h.metaLen.toNat + h.payloadLen.toNat := by
  have hm := h.metaLen.toNat_lt
  have hp := h.payloadLen.toNat_lt
  apply Nat.mod_eq_of_lt
  rw [size]
  omega

theorem load_eq {mem : Mem} {off : Nat} {h : ProtocolHeader} (hm : Holds mem off h.toBytes) :
    load mem off = h := by
  simp only [toBytes, holds_append, List.length_append, Words.length_toBytes, List.length_singleton] at hm
  obtain ⟨⟨⟨⟨⟨hmagic, hversion⟩, htype⟩, hmeta⟩, hpayload⟩, hreserved⟩ := hm
  simp only [load, loadWord_eq (by decide) hmagic, hversion.byte_eq, htype.byte_eq,
    loadWord_eq (by decide) hmeta, loadWord_eq (by decide) hpayload, loadWord_eq (by decide) hreserved]

end ProtocolHeader

-- The padding is the tail that brings `sizeof(RequestMeta)` to 32; `RequestMeta meta{}` leaves its four bytes
-- unspecified.
structure RequestMeta where
  requestId : UInt64
  timestamp : UInt64
  timeoutMs : UInt32
  serviceLen : UInt32
  methodLen : UInt32
  padding : UInt32
  deriving DecidableEq, Repr

namespace RequestMeta

def size : Nat := 32

def toBytes (m : RequestMeta) : Bytes :=
  Words.toBytes 8 m.requestId.toBitVec ++ Words.toBytes 8 m.timestamp.toBitVec ++
    Words.toBytes 4 m.timeoutMs.toBitVec ++ Words.toBytes 4 m.serviceLen.toBitVec ++
    Words.toBytes 4 m.methodLen.toBitVec ++ Words.toBytes 4 m.padding.toBitVec

def load (mem : Mem) (off : Nat) : RequestMeta where
  requestId := ⟨loadWord 64 8 mem off⟩
  timestamp := ⟨loadWord 64 8 mem (off + 8)⟩
  timeoutMs := ⟨loadWord 32 4 mem (off + 16)⟩
  serviceLen := ⟨loadWord 32 4 mem (off + 20)⟩
  methodLen := ⟨loadWord 32 4 mem (off + 24)⟩
  padding := ⟨loadWord 32 4 mem (off + 28)⟩

@[simp] theorem length_toBytes (m : RequestMeta) : m.toBytes.length = size := by
  simp [toBytes, size]

theorem load_eq {mem : Mem} {off : Nat} {m : RequestMeta} (hm : Holds mem off m.toBytes) :
    load mem off = m := by
  simp only [toBytes, holds_append, List.length_append, Words.length_toBytes] at hm
  obtain ⟨⟨⟨⟨⟨hid, hstamp⟩, htimeout⟩, hservice⟩, hmethod⟩, hpad⟩ := hm
  simp only [load, loadWord_eq (by decide) hid, loadWord_eq (by decide) hstamp,
    loadWord_eq (by decide) htimeout, loadWord_eq (by decide) hservice,
    loadWord_eq (by decide) hmethod, loadWord_eq (by decide) hpad]

end RequestMeta

structure ResponseMeta where
  requestId : UInt64
  errorCode : Int32
  errorLen : UInt32
  deriving DecidableEq

namespace ResponseMeta

def size : Nat := 16

def toBytes (m : ResponseMeta) : Bytes :=
  Words.toBytes 8 m.requestId.toBitVec ++ Words.toBytes 4 m.errorCode.toBitVec ++
    Words.toBytes 4 m.errorLen.toBitVec

def load (mem : Mem) (off : Nat) : ResponseMeta where
  requestId := ⟨loadWord 64 8 mem off⟩
  errorCode := ⟨⟨loadWord 32 4 mem (off + 8)⟩⟩
  errorLen := ⟨loadWord 32 4 mem (off + 12)⟩

@[simp] theorem length_toBytes (m : ResponseMeta) : m.toBytes.length = size := by
  simp [toBytes, size]

theorem load_eq {mem : Mem} {off : Nat} {m : ResponseMeta} (hm : Holds mem off m.toBytes) :
    load mem off = m := by
  simp only [toBytes, holds_append, List.length_append, Words.length_toBytes] at hm
  obtain ⟨⟨hid, hcode⟩, hlen⟩ := hm
  simp only [load, loadWord_eq (by decide) hid, loadWord_eq (by decide) hcode,
    loadWord_eq (by decide) hlen]
  rfl

end ResponseMeta

structure RpcMessage where
  header : ProtocolHeader := .zero
  requestId : UInt64 := 0
  service : Bytes := []
  method : Bytes := []
  payload : Bytes := []
  errorCode : ErrorCode := .ok
  errorMessage : Bytes := []
  timeoutMs : UInt32 := 30000
  timestamp : UInt64 := 0
  deriving DecidableEq

namespace RpcMessage

def fresh : RpcMessage := {}

def type (m : RpcMessage) : MessageType := ⟨m.header.type⟩

def createRequest (requestId : UInt64) (service method payload : Bytes) (timeoutMs : UInt32)
    (timestamp : UInt64) : RpcMessage :=
  { fresh with header := .init .request, requestId, service, method, payload, timeoutMs, timestamp }

def createResponse (requestId : UInt64) (payload : Bytes) (error : ErrorCode) : RpcMessage :=
  { fresh with header := .init .response, requestId, payload, errorCode := error }

def createError (requestId : UInt64) (error : ErrorCode) (message : Bytes) : RpcMessage :=
  { fresh with header := .init .response, requestId, errorCode := error, errorMessage := message }

def metaSize (m : RpcMessage) : Nat :=
  if m.type = .request then RequestMeta.size + m.service.length + m.method.length
  else ResponseMeta.size + m.errorMessage.length

def wireHeader (m : RpcMessage) : ProtocolHeader :=
  { m.header with metaLen := .ofNat m.metaSize, payloadLen := .ofNat m.payload.length }

def requestMeta (m : RpcMessage) (padding : UInt32) : RequestMeta where
  requestId := m.requestId
  timestamp := m.timestamp
  timeoutMs := m.timeoutMs
  serviceLen := .ofNat m.service.length
  methodLen := .ofNat m.method.length
  padding := padding

def responseMeta (m : RpcMessage) : ResponseMeta where
  requestId := m.requestId
  errorCode := m.errorCode.value
  errorLen := .ofNat m.errorMessage.length

def wireMeta (m : RpcMessage) (padding : UInt32) : Bytes :=
  if m.type = .request then (m.requestMeta padding).toBytes ++ m.service ++ m.method
  else m.responseMeta.toBytes ++ m.errorMessage

/-- The buffer is filled front to back, each `memcpy` starting where the one before ended. -/
def serialize (m : RpcMessage) (padding : UInt32) : Bytes :=
  m.wireHeader.toBytes ++ m.wireMeta padding ++ m.payload

@[simp] theorem length_wireMeta (m : RpcMessage) (padding : UInt32) :
    (m.wireMeta padding).length = m.metaSize := by
  unfold wireMeta metaSize
  split <;> simp [Nat.add_assoc]

@[simp] theorem length_serialize (m : RpcMessage) (padding : UInt32) :
    (m.serialize padding).length = ProtocolHeader.size + m.metaSize + m.payload.length := by
  simp [serialize, Nat.add_assoc]

end RpcMessage

inductive Field
  | header | metadata | service | method | errorText | payload
  deriving DecidableEq, Repr

structure Access where
  field : Field
  offset : Nat
  length : Nat
  deriving DecidableEq, Repr

structure Cursor where
  msg : RpcMessage
  ptr : Nat
  reads : List Access

structure Decoded where
  ok : Bool
  msg : RpcMessage
  reads : List Access

def readRequestMeta (data : Mem) (c : Cursor) : Cursor :=
  let m := RequestMeta.load data c.ptr
  let servicePtr := c.ptr + RequestMeta.size
  let methodPtr := servicePtr + m.serviceLen.toNat
  { msg :=
      { c.msg with
        requestId := m.requestId
        timestamp := m.timestamp
        timeoutMs := m.timeoutMs
        service := slice data servicePtr m.serviceLen.toNat
        method := slice data methodPtr m.methodLen.toNat }
    ptr := methodPtr + m.methodLen.toNat
    reads := c.reads ++ [⟨.metadata, c.ptr, RequestMeta.size⟩,
      ⟨.service, servicePtr, m.serviceLen.toNat⟩, ⟨.method, methodPtr, m.methodLen.toNat⟩] }

def readResponseMeta (data : Mem) (c : Cursor) : Cursor :=
  let m := ResponseMeta.load data c.ptr
  let textPtr := c.ptr + ResponseMeta.size
  let msg := { c.msg with requestId := m.requestId, errorCode := ⟨m.errorCode⟩ }
  let reads := c.reads ++ [⟨.metadata, c.ptr, ResponseMeta.size⟩]
  if 0 < m.errorLen then
    { msg := { msg with errorMessage := slice data textPtr m.errorLen.toNat }
      ptr := textPtr + m.errorLen.toNat
      reads := reads ++ [⟨.errorText, textPtr, m.errorLen.toNat⟩] }
  else ⟨msg, textPtr, reads⟩

def readMeta (data : Mem) (c : Cursor) : Cursor :=
  if c.msg.type = .request then readRequestMeta data c
  else if c.msg.type = .response then readResponseMeta data c
  else c

def readPayload (data : Mem) (c : Cursor) : Cursor :=
  let len := c.msg.header.payloadLen
  if 0 < len then
    { c with
      msg := { c.msg with payload := slice data c.ptr len.toNat }
      reads := c.reads ++ [⟨.payload, c.ptr, len.toNat⟩] }
  else c

/-- `RpcMessage::deserialize` on the `size` bytes at `data`, with its destination
passed in and returned. The destination keeps what was assigned before a failure. -/
def deserialize (data : Mem) (size : Nat) (msg : RpcMessage) : Decoded :=
  if size < ProtocolHeader.size then ⟨false, msg, []⟩
  else
    let header := ProtocolHeader.load data 0
    let msg := { msg with header }
    let reads := [⟨.header, 0, ProtocolHeader.size⟩]
    if !header.valid then ⟨false, msg, reads⟩
    else if size < header.totalSize then ⟨false, msg, reads⟩
    else
      let c := readPayload data (readMeta data ⟨msg, ProtocolHeader.size, reads⟩)
      ⟨true, c.msg, c.reads⟩

end CoroRpc.Protocol

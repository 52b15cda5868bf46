import CoroRpc.Net.TcpClient
import CoroRpc.Rpc.Protocol
import CoroRpc.Rpc.Serializer

namespace CoroRpc.Rpc

open Memory Net Protocol RpcMessage Serializer

structure RpcClientConfig where
  timeoutMs : Int32 := 30000

structure RpcClient where
  config : RpcClientConfig := {}
  requestId : UInt64 := 0
  tcpClient : TcpClient

inductive RpcResult (α : Type)
  | ok (value : α)
  | makeError (code : ErrorCode) (message : Bytes)

structure Call (α : Type) where
  result : RpcResult α
  decoded : Option Bytes := none
  client : RpcClient

namespace RpcClient

variable (response : Ty) (heap : Mem)

def parseResponse (buffer : Bytes) (totalSize : Nat) : RpcResult response.Val :=
  let d := deserialize (ofList buffer heap) totalSize .fresh
  if !d.ok then .makeError .serializationError (text "Failed to deserialize response")
  else if d.msg.errorCode ≠ .ok then .makeError d.msg.errorCode d.msg.errorMessage
  else
    match decode response d.msg.payload with
    | .failure _ => .makeError .serializationError (text "Failed to deserialize result")
    | .success _ value => .ok value

def finish (c : RpcClient) (buffer : Bytes) (totalSize : Nat) : Call response.Val :=
  { result := parseResponse response heap buffer totalSize
    decoded := some (buffer.take totalSize)
    client := c }

def readRemaining (c : RpcClient) (buffer : Bytes) (totalSize : Nat) : Except Stuck (Call response.Val) := do
  let remaining := totalSize - ProtocolHeader.size
  if 0 < remaining then
    let r ← c.tcpClient.recv remaining
    let c := { c with tcpClient := r.2.2 }
    if r.1 ≤ 0 then
      return { result := .makeError .connectionError (text "Failed to receive response"), client := c }
    else return c.finish response heap (store buffer ProtocolHeader.size r.2.1) totalSize
  else return c.finish response heap buffer totalSize

def readResponse (c : RpcClient) : Except Stuck (Call response.Val) := do
  let r ← c.tcpClient.recv ProtocolHeader.size
  let c := { c with tcpClient := r.2.2 }
  if r.1 ≤ 0 then
    return { result := .makeError .connectionError (text "Failed to receive response"), client := c }
  else
    let buffer := store (List.replicate 4096 0) 0 r.2.1
    let header := ProtocolHeader.load (ofList buffer heap) 0
    if !header.valid then
      return { result := .makeError .invalidRequest (text "Invalid response header"), client := c }
    else c.readRemaining response heap (grow buffer header.totalSize) header.totalSize

/-- `timestamp` is the clock `create_request` reads, `padding` the bytes it leaves unset; `heap`
is the memory behind the response buffer. -/
def call (request : Ty) (timestamp : UInt64) (padding : UInt32) (c : RpcClient) (service method : Bytes)
    (value : request.Val) : Except Stuck (Call response.Val) := do
  let id := c.requestId
  let c := { c with requestId := c.requestId + 1 }
  let msg := createRequest id service method (Serializer.serialize request value)
    c.config.timeoutMs.toUInt32 timestamp
  let w ← c.tcpClient.send (msg.serialize padding)
  let c := { c with tcpClient := w.2 }
  if w.1 ≤ 0 then
    return { result := .makeError .connectionError (text "Failed to send request"), client := c }
  else c.readResponse response heap

def asyncCall (request : Ty) (timestamp : UInt64) (padding : UInt32) (c : RpcClient) (service method : Bytes)
    (value : request.Val) : Except Stuck (Bool × RpcClient) := do
  let id := c.requestId
  let c := { c with requestId := c.requestId + 1 }
  let msg := createRequest id service method (Serializer.serialize request value)
    c.config.timeoutMs.toUInt32 timestamp
  let w ← c.tcpClient.send (msg.serialize padding)
  return (decide (0 < w.1), { c with tcpClient := w.2 })

end RpcClient

end CoroRpc.Rpc

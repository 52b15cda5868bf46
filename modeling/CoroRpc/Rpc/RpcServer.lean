import CoroRpc.Lib.Loop
import CoroRpc.Net.Connection
import CoroRpc.Rpc.Protocol
import CoroRpc.Rpc.ServiceRegistry

namespace CoroRpc.Rpc

open Loop Memory Net Protocol RpcMessage

variable {σ : Type}

structure RpcServerConfig where
  maxRequestSize : Nat := 10 * 1024 * 1024

structure RpcServer (σ : Type) where
  config : RpcServerConfig := {}
  totalRequests : UInt64 := 0
  totalErrors : UInt64 := 0
  world : σ

namespace RpcServer

def countError (s : RpcServer σ) : RpcServer σ := { s with totalErrors := s.totalErrors + 1 }

def countRequest (s : RpcServer σ) : RpcServer σ := { s with totalRequests := s.totalRequests + 1 }

def notFound (id : UInt64) : RpcMessage :=
  createError id .serviceNotFound (text "Service or method not found")

def internalError (id : UInt64) : RpcMessage :=
  createError id .unknown (text "Internal server error")

def dispatch (registry : ServiceRegistry σ) (s : RpcServer σ) (msg : RpcMessage) :
    RpcMessage × RpcServer σ :=
  match registry.findMethod msg.service msg.method with
  | none => (notFound msg.requestId, s)
  | some handler =>
      match handler msg.payload s.world with
      | (.ok result, world) => (createResponse msg.requestId result .ok, { s with world })
      | (.error _, world) => (internalError msg.requestId, countError { s with world })

/-- The empty vector stands for no response. A response has no padding bytes. -/
def handleMessage (registry : ServiceRegistry σ) (s : RpcServer σ) (data : Mem) (size : Nat) :
    Bytes × RpcServer σ :=
  let d := deserialize data size .fresh
  if !d.ok then ([], s.countError)
  else
    let s := s.countRequest
    if d.msg.type = .request then
      let r := dispatch registry s d.msg
      (r.1.serialize 0, r.2)
    else if d.msg.type = .heartbeat then ((createResponse d.msg.requestId [] .ok).serialize 0, s)
    else ([], s)

end RpcServer

structure Session (σ : Type) where
  server : RpcServer σ
  conn : Connection
  buffer : Bytes := List.replicate 4096 0
  handled : List Bytes := []

namespace Session

def countError (s : Session σ) : Session σ := { s with server := s.server.countError }

def readBody (s : Session σ) (remaining : Nat) : Flow (Session σ) :=
  if 0 < remaining then
    let r := s.conn.asyncRead remaining
    let s := { s with conn := r.2.2, buffer := store s.buffer ProtocolHeader.size r.2.1 }
    if r.1 ≤ 0 then .stop s else .next s
  else .next s

def respond (s : Session σ) (response : Bytes) : Flow (Session σ) :=
  if response = [] then .next s
  else
    let w := s.conn.asyncWrite response
    let s := { s with conn := w.2 }
    if w.1 ≤ 0 then .stop s else .next s

variable (registry : ServiceRegistry σ) (heap : Mem)

def process (totalSize : Nat) (s : Session σ) : Flow (Session σ) :=
  let r := s.server.handleMessage registry (ofList s.buffer heap) totalSize
  respond { s with server := r.2, handled := s.handled ++ [s.buffer.take totalSize] } r.1

def receive (header : ProtocolHeader) (s : Session σ) : Flow (Session σ) :=
  if !header.valid then .stop s.countError
  else if s.server.config.maxRequestSize < header.totalSize then .stop s.countError
  else
    let s := { s with buffer := grow s.buffer header.totalSize }
    (s.readBody (header.totalSize - ProtocolHeader.size)).andThen (process registry heap header.totalSize)

def serve (s : Session σ) : Flow (Session σ) :=
  if !s.conn.connected then .stop s
  else
    let r := s.conn.asyncRead ProtocolHeader.size
    let s := { s with conn := r.2.2, buffer := store s.buffer 0 r.2.1 }
    if r.1 ≤ 0 then .stop s
    else receive registry heap (.load (ofList s.buffer heap) 0) s

theorem respond_pending {s s' : Session σ} {response : Bytes} (h : s.respond response = .next s') :
    s'.conn.pending = s.conn.pending := by
  rw [respond] at h
  split at h
  · cases h
    rfl
  · dsimp only at h
    split at h
    · cases h
    · cases h
      exact s.conn.asyncWrite_pending response

theorem readBody_pending {s s' : Session σ} {remaining : Nat} (h : s.readBody remaining = .next s') :
    s'.conn.pending ≤ s.conn.pending := by
  rw [readBody] at h
  split at h
  · dsimp only at h
    split at h
    · cases h
    · rename_i hn
      cases h
      exact Nat.le_of_lt (s.conn.asyncRead_pending remaining (Int.not_le.mp hn))
  · cases h
    exact Nat.le_refl _

theorem process_pending {s s' : Session σ} {totalSize : Nat}
    (h : process registry heap totalSize s = .next s') : s'.conn.pending = s.conn.pending := by
  have hr := respond_pending h
  exact hr

theorem receive_pending {header : ProtocolHeader} {s s' : Session σ}
    (h : receive registry heap header s = .next s') : s'.conn.pending ≤ s.conn.pending := by
  rw [receive] at h
  split at h
  · cases h
  · split at h
    · cases h
    · dsimp only at h
      generalize hb : readBody _ _ = b at h
      cases b with
      | stop t => cases h
      | next t =>
          have hread := readBody_pending hb
          exact (process_pending registry heap h).le.trans hread

theorem serve_pending {s s' : Session σ} (h : serve registry heap s = .next s') :
    s'.conn.pending < s.conn.pending := by
  rw [serve] at h
  split at h
  · cases h
  · dsimp only at h
    split at h
    · cases h
    · rename_i hn
      have hread := s.conn.asyncRead_pending _ (Int.not_le.mp hn)
      exact Nat.lt_of_le_of_lt (receive_pending registry heap h) hread

end Session

/-- `handle_connection` with a fresh buffer, run until the loop is left. -/
def handleConnection (registry : ServiceRegistry σ) (heap : Mem) (server : RpcServer σ)
    (conn : Connection) : Session σ :=
  (iterate (Session.serve registry heap) (conn.pending + 1) (.next { server, conn })).state

theorem handleConnection_stops (registry : ServiceRegistry σ) (heap : Mem) (server : RpcServer σ)
    (conn : Connection) :
    iterate (Session.serve registry heap) (conn.pending + 1) (.next { server, conn }) =
      .stop (handleConnection registry heap server conn) := by
  obtain ⟨t, ht⟩ := iterate_stops (fun s : Session σ => s.conn.pending)
    (fun _ _ h => Session.serve_pending registry heap h) (conn.pending + 1) { server, conn }
    (Nat.lt_succ_self _)
  rw [handleConnection, ht]
  rfl

theorem handleConnection_eq {registry : ServiceRegistry σ} {heap : Mem} {server : RpcServer σ}
    {conn : Connection} {n : Nat} {s : Session σ}
    (h : iterate (Session.serve registry heap) n (.next { server, conn }) = .stop s) :
    handleConnection registry heap server conn = s := by
  have hc := handleConnection_stops registry heap server conn
  rcases Nat.le_total n (conn.pending + 1) with hle | hle
  · exact (Flow.stop.inj ((iterate_mono h hle).symm.trans hc)).symm
  · exact Flow.stop.inj ((iterate_mono hc hle).symm.trans h)

end CoroRpc.Rpc

import CoroRpc.Net.ConnectionPool

namespace CoroRpc.Net

inductive Dial
  | noSocket
  | refused (fd : Int)
  | established (conn : Connection)

structure TcpClientConfig where
  autoReconnect : Bool := true
  maxReconnectAttempts : Nat := 3
  enableConnectionPool : Bool := true

-- `managed` is the pool that `get_pool` returns for the endpoint, `dials` are the coming direct connection
-- attempts.
structure TcpClient where
  config : TcpClientConfig := {}
  connection : Option Connection := none
  pool : Option ConnectionPool := none
  connected : Bool := false
  managed : ConnectionPool := {}
  dials : List Dial := []

namespace TcpClient

def connect (t : TcpClient) : Bool × TcpClient :=
  if t.config.enableConnectionPool then (true, { t with pool := some t.managed })
  else
    match t.dials with
    | [] => (false, t)
    | .noSocket :: dials => (false, { t with dials })
    | .refused fd :: dials =>
        (false,
          { t with connection := some { fd, state := .disconnected, arrivals := [] }, connected := false, dials })
    | .established conn :: dials => (true, { t with connection := some conn, connected := true, dials })

def tryReconnect (t : TcpClient) : TcpClient :=
  go t.config.maxReconnectAttempts t
where
  go : Nat → TcpClient → TcpClient
    | 0, t => t
    | n + 1, t => if t.connect.1 then t.connect.2 else go n t.connect.2

def reconnectAfter (t : TcpClient) (n : Int) : TcpClient :=
  if n ≤ 0 ∧ t.config.autoReconnect then t.tryReconnect else t

def send (t : TcpClient) (data : Bytes) : Except Stuck (Int × TcpClient) :=
  match t.pool with
  | some pool =>
      match pool.acquire with
      | .error e => .error e
      | .ok (none, _) => .error .nullPointer
      | .ok (some conn, pool) =>
          let w := conn.asyncWrite data
          .ok (w.1, { t with pool := some (pool.release w.2) })
  | none =>
      match t.connection with
      | none => .ok (-1, t)
      | some conn =>
          if !t.connected then .ok (-1, t)
          else
            let w := conn.asyncWrite data
            .ok (w.1, { t with connection := some w.2 }.reconnectAfter w.1)

def recv (t : TcpClient) (size : Nat) : Except Stuck (Int × Bytes × TcpClient) :=
  match t.pool with
  | some pool =>
      match pool.acquire with
      | .error e => .error e
      | .ok (none, _) => .error .nullPointer
      | .ok (some conn, pool) =>
          let r := conn.asyncRead size
          .ok (r.1, r.2.1, { t with pool := some (pool.release r.2.2) })
  | none =>
      match t.connection with
      | none => .ok (-1, [], t)
      | some conn =>
          if !t.connected then .ok (-1, [], t)
          else
            let r := conn.asyncRead size
            .ok (r.1, r.2.1, { t with connection := some r.2.2 }.reconnectAfter r.1)

end TcpClient

end CoroRpc.Net

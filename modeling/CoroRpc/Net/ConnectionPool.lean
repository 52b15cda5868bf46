import CoroRpc.Net.Connection

namespace CoroRpc.Net

structure ConnectionPoolConfig where
  maxConnections : Nat := 1000
  maxIdle : Nat := 100

structure Socket where
  fd : Int
  arrivals : List Arrival := []
  sends : List SendResult := []

structure ConnectionPool where
  config : ConnectionPoolConfig := {}
  idle : List Connection := []
  totalConnections : UInt64 := 0
  activeConnections : UInt64 := 0
  sockets : List Socket := []

/-- Why a call does not return: `acquire` waits for the `release` of another client, or a null pointer is
followed. -/
inductive Stuck
  | waiting
  | nullPointer
  deriving DecidableEq

namespace ConnectionPool

def createConnection (p : ConnectionPool) : Option Connection × ConnectionPool :=
  match p.sockets with
  | [] => (none, p)
  | s :: sockets =>
      if s.fd < 0 then (none, { p with sockets })
      else
        (some { fd := s.fd, state := .connected, arrivals := s.arrivals, sends := s.sends }, { p with sockets })

def takeIdle : List Connection → UInt64 → Option Connection × List Connection × UInt64
  | [], total => (none, [], total)
  | conn :: idle, total => if conn.connected then (some conn, idle, total) else takeIdle idle (total - 1)

def acquire (p : ConnectionPool) : Except Stuck (Option Connection × ConnectionPool) :=
  match takeIdle p.idle p.totalConnections with
  | (some conn, idle, total) =>
      .ok (some conn, { p with idle, totalConnections := total, activeConnections := p.activeConnections + 1 })
  | (none, idle, total) =>
      if total.toNat < p.config.maxConnections then
        match createConnection { p with idle, totalConnections := total } with
        | (some conn, p) =>
            .ok (some conn,
              { p with
                activeConnections := p.activeConnections + 1
                totalConnections := p.totalConnections + 1 })
        | (none, p) => .ok (none, p)
      else .error .waiting

def release (p : ConnectionPool) (conn : Connection) : ConnectionPool :=
  let p := { p with activeConnections := p.activeConnections - 1 }
  if conn.connected ∧ p.idle.length < p.config.maxIdle then { p with idle := conn :: p.idle }
  else { p with totalConnections := p.totalConnections - 1 }

theorem acquire_release {p : ConnectionPool} {conn : Connection} (hc : conn.connected)
    (h : p.idle.length < p.config.maxIdle) : (p.release conn).acquire = .ok (some conn, p) := by
  simp [release, acquire, takeIdle, hc, h]

theorem isSome_takeIdle (idle : List Connection) (total : UInt64) :
    (takeIdle idle total).1.isSome = idle.any Connection.connected := by
  induction idle generalizing total with
  | nil => rfl
  | cons conn idle ih =>
      rw [List.any_cons]
      by_cases hc : conn.connected
      · simp [takeIdle, hc]
      · simp only [takeIdle, hc, if_false, Bool.false_eq_true, Bool.false_or]
        exact ih _

end ConnectionPool

end CoroRpc.Net

import CoroRpc.Lib.Trace
import CoroRpc.Net.ConnectionPool
import Mathlib.Algebra.Order.Ring.Int

namespace CoroRpc.Net

open Trace

inductive HandlerPhase
  | spawned | handling | ended
  deriving DecidableEq

structure Served where
  conn : Connection
  -- the `shared_ptr`s to the connection
  owners : Nat := 1
  -- the lambda of `handle_connection` exists; its coroutine gets at `conn` through it
  closure : Bool := false
  phase : HandlerPhase := .spawned

structure TcpServerRun where
  maxConnections : Nat
  running : Bool := false
  loopsSpawned : Nat := 0
  acceptLoops : Nat := 0
  -- an integer, so that a decrement at zero shows
  connections : Int := 0
  totalAccepted : Nat := 0
  served : List Served := []
  -- a coroutine has looked for something where it is no more
  undefined : Bool := false

inductive TcpServerEvent
  | start
  | stop
  | enter
  | accept (client : Socket)
  | stray
  | begin (i : Nat)
  | read (i : Nat) (size : Nat)
  | write (i : Nat) (buffer : Bytes)
  | close (i : Nat)
  | finish (i : Nat) (throws : Bool)

namespace Served

def copy (s : Served) : Served := { s with owners := s.owners + 1 }

def drop (s : Served) : Served :=
  if s.owners ≤ 1 then { s with owners := 0, conn := s.conn.close } else { s with owners := s.owners - 1 }

/-- `handler_task()` makes the coroutine and does not start it; when the function returns, its lambda goes
with the capture, and then the parameter. -/
def handleConnection (s : Served) : Served :=
  let s := s.copy
  let s := { s.copy with closure := true, phase := .spawned }
  let s := { s.drop with closure := false }
  s.drop

end Served

namespace TcpServerRun

/-- The close callback takes the count down each time it is called. -/
def update (r : TcpServerRun) (i : Nat) (s s' : Served) : TcpServerRun :=
  { r with
    served := r.served.set i s'
    connections := r.connections - (s'.conn.closeCalls - s.conn.closeCalls : Nat) }

def accept (r : TcpServerRun) (client : Socket) : TcpServerRun :=
  if client.fd < 0 then r
  else if r.maxConnections ≤ r.connections then r
  else
    let conn : Connection :=
      { fd := client.fd, state := .connected, arrivals := client.arrivals, sends := client.sends }
    -- the loop's own pointer goes at the end of the iteration
    let s := (Served.handleConnection { conn }).drop
    { r with
      connections := r.connections + 1 - s.conn.closeCalls
      totalAccepted := r.totalAccepted + 1
      served := r.served ++ [s] }

def within (r : TcpServerRun) (i : Nat) (phases : List HandlerPhase) (f : Served → Served) : Option TcpServerRun :=
  match r.served[i]? with
  | some s => if s.phase ∈ phases then some (r.update i s (f s)) else none
  | none => none

def begin (r : TcpServerRun) (i : Nat) : Option TcpServerRun :=
  match r.served[i]? with
  | some s =>
      if s.closure then r.within i [.spawned] fun s => { s with conn.closeCallback := true, phase := .handling }
      else if s.phase = .spawned then some { r with undefined := true }
      else none
  | none => none

def step (r : TcpServerRun) (e : TcpServerEvent) : Option TcpServerRun :=
  if r.undefined then none
  else
    match e with
    | .start =>
        if r.running then some r else some { r with running := true, loopsSpawned := r.loopsSpawned + 1 }
    | .stop => some { r with running := false }
    | .enter =>
        if 0 < r.loopsSpawned then
          some
            { r with
              loopsSpawned := r.loopsSpawned - 1
              acceptLoops := if r.running then r.acceptLoops + 1 else r.acceptLoops }
        else none
    | .accept client =>
        if 0 < r.acceptLoops then
          let r := r.accept client
          some (if r.running then r else { r with acceptLoops := r.acceptLoops - 1 })
        else none
    -- the lambda of `accept_loop` is gone as well: `start` has returned, and what its coroutine finds in
    -- the place of `this` is the server in the other events of the loop, and something else here
    | .stray => if 0 < r.loopsSpawned + r.acceptLoops then some { r with undefined := true } else none
    | .begin i => r.begin i
    | .read i size => r.within i [.handling, .ended] fun s => { s with conn := (s.conn.asyncRead size).2.2 }
    | .write i buffer => r.within i [.handling, .ended] fun s => { s with conn := (s.conn.asyncWrite buffer).2 }
    | .close i => r.within i [.handling, .ended] fun s => { s with conn := s.conn.close }
    | .finish i _ => r.within i [.handling] fun s => { s with conn := s.conn.close, phase := .ended }

structure CountsOpen (r : TcpServerRun) : Prop where
  connections_eq : r.connections = r.served.countP fun s => s.conn.connected
  connections_le : r.connections ≤ r.maxConnections
  calls_eq : ∀ s ∈ r.served, s.conn.closeCalls = if s.conn.connected then 0 else 1
  ended : ∀ s ∈ r.served, s.phase = .ended → s.conn.closeCalls = 1

/-- No client is taken on. -/
def TurnsAway (r : TcpServerRun) : TcpServerEvent → Prop
  | .accept client => client.fd < 0 ∨ r.maxConnections ≤ r.connections
  | _ => True

end TcpServerRun

structure Served.Abandoned (s : Served) : Prop where
  connected : s.conn.connected = false
  closeCalls : s.conn.closeCalls = 0
  closure : s.closure = false
  phase : s.phase = .spawned

namespace TcpServerRun

def Abandoned (r : TcpServerRun) : Prop := ∀ s ∈ r.served, s.Abandoned

variable {r r' : TcpServerRun}

theorem accept_turnedAway {client : Socket} (h : client.fd < 0 ∨ r.maxConnections ≤ r.connections) :
    r.accept client = r := by
  rw [accept]
  split
  · rfl
  · next hfd => rw [if_pos (h.resolve_left hfd)]

/-- The client that is taken on is counted, and closed. -/
theorem accept_taken {client : Socket} (h : ¬(client.fd < 0 ∨ r.maxConnections ≤ r.connections)) :
    ∃ s : Served, s.Abandoned ∧ r.accept client =
      { r with
        connections := r.connections + 1
        totalAccepted := r.totalAccepted + 1
        served := r.served ++ [s] } := by
  rw [not_or] at h
  let conn : Connection := { fd := client.fd, state := .connected, arrivals := client.arrivals, sends := client.sends }
  let s := (Served.handleConnection { conn }).drop
  have hs : s.Abandoned := ⟨rfl, rfl, rfl, rfl⟩
  refine ⟨s, hs, ?_⟩
  rw [accept, if_neg h.1, if_neg h.2]
  show ({ r with
    connections := r.connections + 1 - (s.conn.closeCalls : Int)
    totalAccepted := r.totalAccepted + 1
    served := r.served ++ [s] } : TcpServerRun) = _
  rw [hs.closeCalls, Int.natCast_zero, Int.sub_zero]

theorem Abandoned.accept (h : r.Abandoned) (client : Socket) : (r.accept client).Abandoned := by
  by_cases haway : client.fd < 0 ∨ r.maxConnections ≤ r.connections
  · rw [accept_turnedAway haway]
    exact h
  · obtain ⟨s, hs, heq⟩ := accept_taken haway
    rw [heq]
    exact List.forall_mem_append.mpr ⟨h, List.forall_mem_singleton.mpr hs⟩

theorem Abandoned.within_none (h : r.Abandoned) {i : Nat} {phases : List HandlerPhase} (hp : .spawned ∉ phases)
    (f : Served → Served) : r.within i phases f = none := by
  rw [within]
  split
  · next s hs =>
      rw [if_neg]
      rw [(h s (List.mem_of_getElem? hs)).phase]
      exact hp
  · rfl

theorem Abandoned.begin_some (h : r.Abandoned) {i : Nat} (hs : r.begin i = some r') :
    r' = { r with undefined := true } ∧ r.served ≠ [] := by
  rw [begin] at hs
  split at hs
  · next s hi =>
      have hmem := List.mem_of_getElem? hi
      obtain ⟨-, -, hclosure, hphase⟩ := h s hmem
      rw [if_neg (by rw [hclosure]; exact Bool.false_ne_true), if_pos hphase] at hs
      exact ⟨(Option.some.inj hs).symm, List.ne_nil_of_mem hmem⟩
  · cases hs

/-- A step changes nothing that is counted unless it takes on a client. -/
theorem Abandoned.step_cases (h : r.Abandoned) {e : TcpServerEvent} (hs : r.step e = some r') :
    (∃ client, e = .accept client ∧ r'.served = (r.accept client).served ∧
      r'.connections = (r.accept client).connections ∧ r'.maxConnections = (r.accept client).maxConnections) ∨
    (∀ client, e ≠ .accept client) ∧ r'.served = r.served ∧ r'.connections = r.connections ∧
      r'.maxConnections = r.maxConnections := by
  unfold step at hs
  split at hs
  · cases hs
  · cases e with
    | start =>
        right
        dsimp only at hs
        split at hs <;> cases hs <;> exact ⟨nofun, rfl, rfl, rfl⟩
    | stop =>
        cases hs
        exact .inr ⟨nofun, rfl, rfl, rfl⟩
    | enter =>
        simp only [Option.ite_none_right_eq_some, Option.some.injEq] at hs
        obtain ⟨-, rfl⟩ := hs
        exact .inr ⟨nofun, rfl, rfl, rfl⟩
    | accept client =>
        simp only [Option.ite_none_right_eq_some, Option.some.injEq] at hs
        obtain ⟨-, rfl⟩ := hs
        left
        refine ⟨client, rfl, ?_⟩
        split <;> exact ⟨rfl, rfl, rfl⟩
    | stray =>
        simp only [Option.ite_none_right_eq_some, Option.some.injEq] at hs
        obtain ⟨-, rfl⟩ := hs
        exact .inr ⟨nofun, rfl, rfl, rfl⟩
    | begin i =>
        rw [(h.begin_some hs).1]
        exact .inr ⟨nofun, rfl, rfl, rfl⟩
    | read | write | close | finish =>
        dsimp only at hs
        rw [h.within_none (by decide)] at hs
        cases hs

theorem Abandoned.step {e : TcpServerEvent} (h : r.Abandoned) (hs : r.step e = some r') : r'.Abandoned := by
  rcases h.step_cases hs with ⟨client, -, hserved, -⟩ | ⟨-, hserved, -⟩
  · rw [Abandoned, hserved]
    exact h.accept client
  · rw [Abandoned, hserved]
    exact h

theorem Abandoned.served_nil (h : r.Abandoned) (hP : r.CountsOpen) : r.served = [] := by
  rw [List.eq_nil_iff_forall_not_mem]
  intro s hs
  obtain ⟨hconnected, hcalls, -, -⟩ := h s hs
  have hone := hP.calls_eq s hs
  rw [hcalls, hconnected] at hone
  exact absurd hone (by decide)

theorem CountsOpen.of_same (h : r.CountsOpen) (hserved : r'.served = r.served)
    (hconnections : r'.connections = r.connections) (hmax : r'.maxConnections = r.maxConnections) :
    r'.CountsOpen := by
  refine ⟨?_, ?_, ?_, ?_⟩
  · rw [hserved, hconnections]
    exact h.connections_eq
  · rw [hconnections, hmax]
    exact h.connections_le
  · rw [hserved]
    exact h.calls_eq
  · rw [hserved]
    exact h.ended

theorem countsOpen_step {e : TcpServerEvent} (h : r.Abandoned) (hP : r.CountsOpen) (hs : r.step e = some r') :
    r'.CountsOpen ↔ r.TurnsAway e := by
  rcases h.step_cases hs with ⟨client, rfl, hserved, hconnections, hmax⟩ | ⟨hne, hserved, hconnections, hmax⟩
  · by_cases haway : client.fd < 0 ∨ r.maxConnections ≤ r.connections
    · rw [accept_turnedAway haway] at hserved hconnections hmax
      exact iff_of_true (hP.of_same hserved hconnections hmax) haway
    · obtain ⟨s, -, heq⟩ := accept_taken haway
      refine iff_of_false (fun hP' => ?_) haway
      have hnil := (h.step hs).served_nil hP'
      rw [hserved, heq] at hnil
      exact List.append_ne_nil_of_right_ne_nil _ (List.cons_ne_nil _ _) hnil
  · refine iff_of_true (hP.of_same hserved hconnections hmax) ?_
    cases e with
    | accept client => exact absurd rfl (hne client)
    | start | stop | enter | stray | begin | read | write | close | finish => trivial

end TcpServerRun

/-- A connection that is taken on is counted for good: the last pointer to it goes before its coroutine can
install the callback. The count is right throughout a run exactly when no client is taken on. -/
theorem server_countsOpen_iff (maxConnections : Nat) (evs : List TcpServerEvent) (r : TcpServerRun)
    (h : run TcpServerRun.step { maxConnections } evs = some r) :
    Throughout TcpServerRun.step TcpServerRun.CountsOpen { maxConnections } evs ↔
      EachStep TcpServerRun.step TcpServerRun.TurnsAway { maxConnections } evs := by
  have hstart : TcpServerRun.CountsOpen { maxConnections } :=
    ⟨rfl, Int.natCast_nonneg _, nofun, nofun⟩
  exact throughout_iff (fun _ _ _ h hs => TcpServerRun.Abandoned.step h hs)
    (fun _ _ _ h hP hs => TcpServerRun.countsOpen_step h hP hs) nofun hstart h

/-- A server for no client turns away those that come. -/
theorem server_countsOpen_full :
    Throughout TcpServerRun.step TcpServerRun.CountsOpen { maxConnections := 0 }
      [.start, .enter, .accept { fd := -24 }, .accept { fd := 5 }, .stop, .accept { fd := -9 }] := by
  refine (server_countsOpen_iff 0 _ _ rfl).mpr ?_
  iterate 2 refine (eachStep_cons rfl).mpr ⟨trivial, ?_⟩
  refine (eachStep_cons rfl).mpr ⟨.inl (by decide), ?_⟩
  refine (eachStep_cons rfl).mpr ⟨.inr (by decide), ?_⟩
  refine (eachStep_cons rfl).mpr ⟨trivial, ?_⟩
  exact (eachStep_cons rfl).mpr ⟨.inl (by decide), eachStep_nil⟩

/-- The only client of a server for one is closed before its handler starts and stays counted, so that the next
client is turned away; the coroutine that was spawned for it finds nothing where `conn` was. -/
theorem server_leaks :
    ∃ r, run TcpServerRun.step { maxConnections := 1 }
        [.start, .enter, .accept { fd := 5 }, .accept { fd := 6 }, .begin 0] = some r ∧
      r.totalAccepted = 1 ∧ r.connections = 1 ∧ r.served.countP (fun s => s.conn.connected) = 0 ∧
      r.undefined = true ∧ ¬r.CountsOpen := by
  refine ⟨_, rfl, rfl, rfl, rfl, rfl, fun h => ?_⟩
  exact absurd h.connections_eq (by decide)

end CoroRpc.Net

import CoroRpc.Lib.Atomic
import CoroRpc.Rpc.Correspondence
import CoroRpc.Rpc.Heartbeat
import CoroRpc.Rpc.RegistryHistory
import CoroRpc.Rpc.ReplyMatching

namespace CoroRpc.Rpc

open Loop Memory Net Protocol RpcMessage Serializer Trace

variable {ι σ : Type}

namespace RpcClient

def requestOf (c : RpcClient) (a : Arguments) : Request where
  id := c.requestId
  service := a.service
  method := a.method
  payload := Serializer.serialize a.request a.value
  timeoutMs := c.config.timeoutMs.toUInt32
  timestamp := a.timestamp
  padding := a.padding

def sendRequest (c : RpcClient) (a : Arguments) : Except Stuck (Int × RpcClient) :=
  (c.tcpClient.send (c.requestOf a).bytes).map fun w =>
    (w.1, { c with requestId := c.requestId + 1, tcpClient := w.2 })

theorem call_eq (c : RpcClient) (a : Arguments) (response : Ty) (heap : Mem) :
    c.call response heap a.request a.timestamp a.padding a.service a.method a.value =
      match c.sendRequest a with
      | .error e => .error e
      | .ok (n, c) =>
          if n ≤ 0 then .ok { result := .makeError .connectionError (text "Failed to send request"), client := c }
          else c.readResponse response heap := by
  show (c.tcpClient.send (c.requestOf a).bytes >>= _) = _
  rw [sendRequest]
  cases c.tcpClient.send (c.requestOf a).bytes with
  | error e => rfl
  | ok w => rfl

def inUse (c : RpcClient) : Option Connection :=
  match c.tcpClient.pool with
  | some pool =>
      match pool.acquire with
      | .ok (conn, _) => conn
      | .error _ => none
  | none => c.tcpClient.connection

def written (c : RpcClient) : List Write := (c.inUse.map Connection.writes).getD []

end RpcClient

/-- How the network hands over a frame: at once, or the header before the rest. -/
def handOver (cut : Bool) (bytes : Bytes) : List Arrival :=
  if cut then [.data (bytes.take ProtocolHeader.size), .data (bytes.drop ProtocolHeader.size)] else [.data bytes]

-- A client and the server's end of its connection, with the bytes under way between them: `inbox` to the
-- server, `outbox` to the client. `waiting` is the call that has been sent and has not returned.
structure Link where
  client : RpcClient
  waiting : Option (Arguments × Ty) := none
  failed : Bool := false
  inbox : List Bytes := []
  outbox : List Bytes := []
  conn : Connection
  buffer : Bytes := List.replicate 4096 0
  handled : List Bytes := []
  serving : Bool := true

structure Returned (ι : Type) where
  caller : ι
  args : Arguments
  response : Ty
  result : RpcResult response.Val

structure RemoteRun (ι σ : Type) where
  registry : ServiceRegistry σ
  server : RpcServer σ
  link : ι → Link
  returned : List (Returned ι) := []

/-- A handler that is given less than `2 ^ 32` bytes returns less than `2 ^ 32` bytes. -/
def TerseHandler (handler : Bytes → σ → Except Unit Bytes × σ) : Prop :=
  ∀ payload world result, payload.length < 2 ^ 32 → (handler payload world).1 = .ok result → result.length < 2 ^ 32

/-- A client makes a call; the loop of `handle_connection` takes the next frame; a client reads the response, or
its connection fails while it waits; the registry is changed. -/
inductive RemoteEvent (ι σ : Type)
  | invoke (i : ι) (args : Arguments) (response : Ty)
  | serve (i : ι) (cut : Bool) (heap : Mem)
  | receive (i : ι) (cut : Bool) (heap : Mem)
  | fail (i : ι) (errno : Nat) (heap : Mem)
  | register (call : RegistryCall σ) (terse : call.Handler TerseHandler)

namespace RemoteRun

variable [DecidableEq ι]

def update (s : RemoteRun ι σ) (i : ι) (l : Link) : RemoteRun ι σ := { s with link := Function.update s.link i l }

/-- The sizes are those that the fields of the header and the server's configuration admit. -/
def Admits (s : RemoteRun ι σ) (r : Request) : Prop :=
  r.message.metaSize < 2 ^ 32 ∧ r.payload.length < 2 ^ 32 ∧ r.bytes.length ≤ s.server.config.maxRequestSize

instance (s : RemoteRun ι σ) (r : Request) : Decidable (s.Admits r) := inferInstanceAs (Decidable (_ ∧ _ ∧ _))

def invoke (s : RemoteRun ι σ) (i : ι) (args : Arguments) (response : Ty) : Option (RemoteRun ι σ) :=
  let l := s.link i
  if l.waiting.isNone ∧ l.failed = false ∧ s.Admits (l.client.requestOf args) then
    match l.client.sendRequest args with
    | .error _ => none
    | .ok (n, client) =>
        if n ≤ 0 then none
        else
          let sent := client.written.drop l.client.written.length
          some (s.update i
            { l with client, waiting := some (args, response), inbox := l.inbox ++ sent.map Write.wire })
  else none

def serve (s : RemoteRun ι σ) (i : ι) (cut : Bool) (heap : Mem) : Option (RemoteRun ι σ) :=
  let l := s.link i
  match l.serving, l.inbox with
  | true, bytes :: inbox =>
      let conn := arriving l.conn (handOver cut bytes)
      let flow := Session.serve s.registry heap { server := s.server, conn, buffer := l.buffer, handled := l.handled }
      let serving := match flow with
        | .next _ => true
        | .stop _ => false
      let e := flow.state
      some ({ s with server := e.server }.update i
        { l with
          inbox, serving
          outbox := l.outbox ++ (e.conn.writes.drop l.conn.writes.length).map Write.wire
          conn := e.conn
          buffer := e.buffer
          handled := e.handled })
  | _, _ => none

def resume (s : RemoteRun ι σ) (i : ι) (arrivals : List Arrival) (heap : Mem) (l : Link) : Option (RemoteRun ι σ) :=
  match l.waiting with
  | none => none
  | some (args, response) =>
      match (l.client.arriving arrivals).readResponse response heap with
      | .error _ => none
      | .ok call =>
          let s : RemoteRun ι σ := { s with returned := s.returned ++ [⟨i, args, response, call.result⟩] }
          some (s.update i { l with client := call.client, waiting := none })

def step (s : RemoteRun ι σ) : RemoteEvent ι σ → Option (RemoteRun ι σ)
  | .invoke i args response => s.invoke i args response
  | .serve i cut heap => s.serve i cut heap
  | .receive i cut heap =>
      match (s.link i).failed, (s.link i).outbox with
      | false, bytes :: outbox => s.resume i (handOver cut bytes) heap { s.link i with outbox }
      | _, _ => none
  | .fail i errno heap =>
      if (s.link i).failed then none else s.resume i [.fail errno] heap { s.link i with failed := true }
  | .register call _ => some { s with registry := s.registry.apply call }

end RemoteRun

/-! What the calls come to: operations on the registry and the world that take effect at once. -/

/-- What a caller is given when the method has this outcome. -/
def Outcome.seen (o : Outcome) (response : Ty) : RpcResult response.Val :=
  match o with
  | returned result =>
      match decode response result with
      | .failure _ => .makeError .serializationError (text "Failed to deserialize result")
      | .success _ value => .ok value
  | notFound => .makeError .serviceNotFound (text "Service or method not found")
  | threw => .makeError .unknown (text "Internal server error")

def execute (o : ServiceRegistry σ × σ) (call : Arguments × Ty) : Outcome × ServiceRegistry σ × σ :=
  let r := outcome o.1 o.2 call.1.service call.1.method (Serializer.serialize call.1.request call.1.value)
  (r.1, o.1, r.2)

namespace RemoteEvent

def label : RemoteEvent ι σ → Atomic.Event ι (ServiceRegistry σ × σ) (Arguments × Ty)
  | invoke i args response => .invoke i (args, response)
  | serve i _ _ => .take i
  | receive i _ _ => .finish i
  | fail i _ _ => .lose i
  | register call _ => .change fun o => (o.1.apply call, o.2)

def calls [DecidableEq ι] (i : ι) (evs : List (RemoteEvent ι σ)) : List (Arguments × Ty) :=
  evs.filterMap fun
    | invoke j args response => if j = i then some (args, response) else none
    | _ => none

theorem invocations_label [DecidableEq ι] (i : ι) (evs : List (RemoteEvent ι σ)) :
    Atomic.Event.invocations i (evs.map label) = calls i evs := by
  rw [Atomic.Event.invocations, calls, List.filterMap_map]
  congr 1
  funext e
  cases e <;> rfl

end RemoteEvent

/-- What the caller of an operation is told: its outcome, or that the connection has failed. -/
def told (x : ι × (Arguments × Ty) × Option Outcome) : Returned ι where
  caller := x.1
  args := x.2.1.1
  response := x.2.1.2
  result :=
    match x.2.2 with
    | some o => o.seen x.2.1.2
    | none => .makeError .connectionError (text "Failed to receive response")

def Ready (c : RpcClient) : Prop := ∃ conn, Up c.tcpClient conn ∧ conn.sends = []

namespace Ready

theorem inUse_of_up {c : RpcClient} {conn : Connection} (h : Up c.tcpClient conn) : c.inUse = some conn := by
  cases h with
  | direct hp hconn _ _ => simp [RpcClient.inUse, hp, hconn]
  | pooled hp ha _ _ => simp [RpcClient.inUse, hp, ha]

theorem written_of_up {c : RpcClient} {conn : Connection} (h : Up c.tcpClient conn) : c.written = conn.writes := by
  rw [RpcClient.written, inUse_of_up h]
  rfl

/-- A call writes its frame whole. -/
theorem sendRequest {c : RpcClient} (h : Ready c) (a : Arguments) :
    ∃ n c', c.sendRequest a = .ok (n, c') ∧ 0 < n ∧ Ready c' ∧
      c'.written = c.written ++ [⟨(c.requestOf a).bytes, (c.requestOf a).bytes.length⟩] := by
  obtain ⟨conn, hup, hsends⟩ := h
  have hne : (c.requestOf a).bytes ≠ [] := serialize_ne_nil _ _
  have hpos : 0 < (c.requestOf a).bytes.length := List.length_pos_iff.mpr hne
  have hw := Connection.asyncWrite_whole hup.connected hsends hne
  obtain ⟨t, ht, hup'⟩ := hup.send hw (by omega) hup.connected
  refine ⟨(c.requestOf a).bytes.length, { c with requestId := c.requestId + 1, tcpClient := t }, ?_, by omega,
    ⟨_, hup', hsends⟩, ?_⟩
  · rw [RpcClient.sendRequest, ht]
    rfl
  · rw [written_of_up hup, written_of_up hup']

theorem up_arriving {t : TcpClient} {conn : Connection} (h : Up t conn) (arrivals : List Arrival) :
    Up (tcpArriving t arrivals) (arriving conn arrivals) := by
  cases h with
  | direct hp hconn ht hc =>
      refine .direct ?_ ?_ ?_ hc
      · simp [tcpArriving, hp]
      · simp [tcpArriving, hp, hconn]
      · simp [tcpArriving, hp, ht]
  | pooled hp ha hroom hc =>
      rename_i pool rest
      refine @Up.pooled _ _ (poolArriving pool arrivals) rest ?_ ?_ hroom hc
      · simp [tcpArriving, hp]
      · rw [acquire_arriving, ha]
        rfl

end Ready

theorem wholeParts_handOver (cut : Bool) (f : Frame) (hb : f.body ≠ []) : WholeParts (handOver cut f.bytes) f.parts := by
  have hparts : f.parts = [f.header.toBytes, f.body] := by simp [Frame.parts, hb]
  have hsize := f.header.length_toBytes
  rw [hparts]
  cases cut with
  | false =>
      have h := WholeParts.cons (List.cons_ne_nil f.header.toBytes [f.body]) .nil
      simpa [handOver, Frame.bytes] using h
  | true =>
      have h := WholeParts.cons (List.cons_ne_nil f.header.toBytes [])
        (WholeParts.cons (List.cons_ne_nil f.body []) .nil)
      have htake : f.bytes.take ProtocolHeader.size = f.header.toBytes := List.take_left' hsize
      have hdrop : f.bytes.drop ProtocolHeader.size = f.body := List.drop_left' hsize
      rw [handOver, if_pos rfl, htake, hdrop]
      simpa using h

theorem asyncRead_fail {c : Connection} {errno : Nat} {rest : List Arrival} (hc : c.connected)
    (h : c.arrivals = .fail errno :: rest) (size : Nat) :
    c.asyncRead size = (-(errno : Int), [], (arriving c rest).close) := by
  have hneg : -(errno : Int) ≤ 0 := by omega
  simp only [Connection.asyncRead, hc, Bool.not_true, Bool.false_eq_true, if_false, h, recv, hneg, if_true]
  rfl

namespace Ready

theorem receive {c : RpcClient} (h : Ready c) (r : Reply) (cut : Bool) (response : Ty) (heap : Mem) :
    ∃ c', (c.arriving (handOver cut r.frame.bytes)).readResponse response heap =
      .ok { result := r.result response, decoded := some r.frame.bytes, client := c' } ∧ Ready c' := by
  obtain ⟨conn, hup, hsends⟩ := h
  have hbody : r.frame.body ≠ [] := by
    apply List.ne_nil_of_length_pos
    show 0 < (r.msg.wireMeta 0 ++ r.msg.payload).length
    have hmeta : 0 < r.msg.metaSize := metaSize_pos r.msg
    rw [List.length_append, length_wireMeta]
    omega
  have hwhole := wholeParts_handOver cut r.frame hbody
  rw [← List.append_nil r.frame.parts] at hwhole
  obtain ⟨rest, hreads, -⟩ := hwhole.reads (by rw [List.append_nil]; exact r.frame.nil_notMem_parts)
  obtain ⟨t, hr, hup'⟩ := RpcClient.readResponse_frame response heap
    (c := c.arriving (handOver cut r.frame.bytes)) (up_arriving hup _) r.frame hreads
  refine ⟨{ c.arriving (handOver cut r.frame.bytes) with tcpClient := t }, ?_, _, hup', hsends⟩
  rw [hr, RpcClient.finish, r.parseResponse_frame, r.frame.take_fill]

/-- A call whose connection fails while it waits. -/
theorem fail {c : RpcClient} (h : Ready c) (errno : Nat) (response : Ty) (heap : Mem) :
    ∃ c', (c.arriving [.fail errno]).readResponse response heap =
      .ok { result := .makeError .connectionError (text "Failed to receive response"), client := c' } := by
  obtain ⟨conn, hup, -⟩ := h
  have hup' := up_arriving hup [.fail errno]
  have hread := asyncRead_fail (c := arriving conn [.fail errno]) hup'.connected rfl ProtocolHeader.size
  have hrecv : ∃ t', (tcpArriving c.tcpClient [.fail errno]).recv ProtocolHeader.size =
      .ok (-(errno : Int), [], t') := by
    cases hup' with
    | direct hp hconn ht hc => simp [TcpClient.recv, hp, hconn, ht, hread]
    | pooled hp ha hroom hc => simp [TcpClient.recv, hp, ha, hread]
  obtain ⟨t', ht'⟩ := hrecv
  have hneg : -(errno : Int) ≤ 0 := by omega
  refine ⟨{ c.arriving [.fail errno] with tcpClient := t' }, ?_⟩
  simp only [RpcClient.readResponse, RpcClient.arriving, ht', bind, Except.bind, hneg, if_true, pure, Except.pure]

end Ready

def Outcome.Terse (o : Outcome) : Prop := ∀ result, o = .returned result → result.length < 2 ^ 32

def Outcome.toReply (o : Outcome) (id : UInt64) (h : o.Terse) : Reply where
  msg := o.reply id
  created := by
    cases o with
    | returned result => exact .response id result .ok
    | notFound => exact .error id .serviceNotFound (text "Service or method not found")
    | threw => exact .error id .unknown (text "Internal server error")
  response := o.reply_type id
  fits := o.reply_fits id h

theorem Outcome.result_toReply (o : Outcome) (id : UInt64) (h : o.Terse) (response : Ty) :
    (o.toReply id h).result response = o.seen response := by
  cases o with
  | returned result => rfl
  | notFound => rfl
  | threw => rfl

theorem terse_outcome {r : ServiceRegistry σ} (h : r.Handlers TerseHandler) (world : σ) (service method : Bytes)
    {payload : Bytes} (hp : payload.length < 2 ^ 32) : (outcome r world service method payload).1.Terse := by
  intro result ho
  cases hfind : r.findMethod service method with
  | none => simp [outcome, hfind] at ho
  | some handler =>
      rcases hcall : handler payload world with ⟨res, world'⟩
      cases res with
      | error e => simp [outcome, hfind, hcall] at ho
      | ok bytes =>
          simp only [outcome, hfind, hcall, Outcome.returned.injEq] at ho
          subst ho
          exact h service method handler hfind payload world bytes hp (by rw [hcall])

namespace RemoteRun

variable [DecidableEq ι]

structure Asks (max : Nat) (r : Request) (args : Arguments) : Prop where
  service : r.service = args.service
  method : r.method = args.method
  payload : r.payload = Serializer.serialize args.request args.value
  fits : r.message.Fits
  admitted : r.bytes.length ≤ max

def Carries (max : Nat) (call : Arguments × Ty) (bytes : Bytes) : Prop := ∃ r, Asks max r call.1 ∧ bytes = r.bytes

def Inbox (max : Nat) : Atomic.Phase (Arguments × Ty) Outcome → List Bytes → Prop
  | .pending call, inbox => ∃ bytes, Carries max call bytes ∧ inbox = [bytes]
  | _, inbox => inbox = []

def Outbox : Atomic.Phase (Arguments × Ty) Outcome → List Bytes → Prop
  | .done _ o, outbox => o.Terse ∧ ∃ id, outbox = [(o.reply id).serialize 0]
  | _, outbox => outbox = []

structure Linked (max : Nat) (executed : List (Arguments × Ty)) (phase : Atomic.Phase (Arguments × Ty) Outcome)
    (lost : Bool) (l : Link) : Prop where
  handled : List.Forall₂ (Carries max) executed l.handled
  serving : l.serving = true
  connected : l.conn.connected
  sends : l.conn.sends = []
  inbox : Inbox max phase l.inbox
  failed : l.failed = lost
  waiting : l.waiting = if lost then none else phase.called
  ready : lost = false → Ready l.client ∧ Outbox phase l.outbox

theorem wire_whole (bytes : Bytes) : Write.wire ⟨bytes, bytes.length⟩ = bytes := List.take_length

/-- One frame of the client is handled, and answered. -/
theorem serve_asked {s : RemoteRun ι σ} {i : ι} {r : Request} {inbox : List Bytes} (hserving : (s.link i).serving = true)
    (hc : (s.link i).conn.connected) (hs : (s.link i).conn.sends = []) (hin : (s.link i).inbox = r.bytes :: inbox)
    (hf : r.message.Fits) (hmax : r.bytes.length ≤ s.server.config.maxRequestSize) (cut : Bool) (heap : Mem) :
    ∃ conn buffer, conn.connected = true ∧ conn.sends = [] ∧
      s.serve i cut heap = some
        ({ s with
            server := s.server.settle (outcome s.registry s.server.world r.service r.method r.payload).1
              (outcome s.registry s.server.world r.service r.method r.payload).2 }.update i
          { s.link i with
            inbox
            outbox := (s.link i).outbox ++
              [((outcome s.registry s.server.world r.service r.method r.payload).1.reply r.id).serialize 0]
            conn
            buffer
            handled := (s.link i).handled ++ [r.bytes] }) := by
  have hbytes : (r.frame hf).bytes = r.bytes := Frame.bytes_ofMessage _ _ _ _
  have hwhole := wholeParts_handOver cut (r.frame hf) r.body_ne_nil
  rw [hbytes, r.parts_frame hf, ← List.append_nil r.parts] at hwhole
  let session : Session σ :=
    { server := s.server
      conn := arriving (s.link i).conn (handOver cut r.bytes)
      buffer := (s.link i).buffer
      handled := (s.link i).handled }
  obtain ⟨rest, buffer, -, hserve⟩ := Session.serve_request s.registry heap (s := session) r hf hc hs hmax
    (by simp) hwhole
  refine ⟨(Session.answered s.registry r session rest buffer).conn, buffer, hc, hs, ?_⟩
  simp only [serve, hserving, hin]
  rw [show Session.serve s.registry heap _ = _ from hserve]
  simp only [Flow.state, Session.answered, Session.answer, session, arriving, List.drop_left, List.map_cons,
    List.map_nil, wire_whole]

structure Simulates (server : RpcServer σ) (s : RemoteRun ι σ)
    (c : Atomic.Callers ι (ServiceRegistry σ × σ) (Arguments × Ty) Outcome) : Prop where
  object : c.object = (s.registry, s.server.world)
  returned : s.returned = c.returned.map told
  config : s.server.config = server.config
  totalRequests : s.server.totalRequests = server.totalRequests + .ofNat c.effects.length
  totalErrors : s.server.totalErrors = server.totalErrors + .ofNat (c.effects.countP fun e => e.2.2 = .threw)
  terse : s.registry.Handlers TerseHandler
  linked : ∀ i, Linked server.config.maxRequestSize ((c.effectsOf i).map Prod.fst) (c.phase i) (c.lost i) (s.link i)

variable {server : RpcServer σ} {s s' : RemoteRun ι σ}
  {c : Atomic.Callers ι (ServiceRegistry σ × σ) (Arguments × Ty) Outcome}

/-- Only the link at `i` and the standing of its caller have changed. -/
theorem linked_update {max : Nat} {executed executed' : ι → List (Arguments × Ty)}
    {phase : ι → Atomic.Phase (Arguments × Ty) Outcome} {lost : ι → Bool} {link : ι → Link}
    (h : ∀ j, Linked max (executed j) (phase j) (lost j) (link j)) {i : ι}
    (hother : ∀ j, j ≠ i → executed' j = executed j) {p : Atomic.Phase (Arguments × Ty) Outcome} {b : Bool} {l : Link}
    (hl : Linked max (executed' i) p b l) (j : ι) :
    Linked max (executed' j) (Function.update phase i p j) (Function.update lost i b j) (Function.update link i l j) := by
  by_cases hj : j = i
  · subst hj
    simpa using hl
  · simpa [hj, hother j hj] using h j

theorem Simulates.invoke (h : Simulates server s c) {i : ι} {args : Arguments} {response : Ty}
    (hs : s.invoke i args response = some s') :
    ∃ c', c.step execute (.invoke i (args, response)) = some c' ∧ Simulates server s' c' := by
  have hl := h.linked i
  simp only [RemoteRun.invoke] at hs
  split at hs
  · next hguard =>
      obtain ⟨hwait, hfail, hmeta, hpayload, hmax⟩ := hguard
      rw [hl.failed] at hfail
      have hphase : c.phase i = .idle := by
        have hw := hl.waiting
        rw [hfail] at hw
        cases hp : c.phase i with
        | idle => rfl
        | pending call => simp [hp, Atomic.Phase.called, hw] at hwait
        | done call o => simp [hp, Atomic.Phase.called, hw] at hwait
      obtain ⟨hready, hout⟩ := hl.ready hfail
      have hin := hl.inbox
      rw [hphase] at hin hout
      obtain ⟨n, client, hsend, hpos, hready', hwritten⟩ := hready.sendRequest args
      rw [hsend] at hs
      simp only [Int.not_le.mpr hpos, if_false, Option.some.injEq] at hs
      subst hs
      refine ⟨{ c with phase := Function.update c.phase i (.pending (args, response)) }, ?_,
        { h with linked := ?_ }⟩
      · simp [Atomic.Callers.step, hphase, hfail]
      · intro j
        have hnew : Linked server.config.maxRequestSize ((c.effectsOf i).map Prod.fst) (.pending (args, response)) (c.lost i)
            { s.link i with
              client
              waiting := some (args, response)
              inbox := (s.link i).inbox ++
                (client.written.drop (s.link i).client.written.length).map Write.wire } := by
          refine { hl with inbox := ⟨_, ⟨(s.link i).client.requestOf args, ?_, rfl⟩, ?_⟩, waiting := ?_, ready := ?_ }
          · exact ⟨rfl, rfl, rfl, ⟨hmeta, hpayload⟩, h.config ▸ hmax⟩
          · rw [hwritten, List.drop_left, show (s.link i).inbox = [] from hin]
            simp [wire_whole]
          · simp [hfail, Atomic.Phase.called]
          · exact fun _ => ⟨hready', hout⟩
        have hall := linked_update h.linked (fun _ _ => rfl) hnew j
        rwa [Function.update_eq_self] at hall
  · cases hs

theorem Simulates.serve (h : Simulates server s c) {i : ι} {cut : Bool} {heap : Mem}
    (hs : s.serve i cut heap = some s') :
    ∃ c', c.step execute (.take i) = some c' ∧ Simulates server s' c' := by
  have hl := h.linked i
  have hin := hl.inbox
  cases hp : c.phase i with
  | idle =>
      rw [hp] at hin
      simp [RemoteRun.serve, show (s.link i).inbox = [] from hin] at hs
  | done call o =>
      rw [hp] at hin
      simp [RemoteRun.serve, show (s.link i).inbox = [] from hin] at hs
  | pending call =>
      rw [hp] at hin
      obtain ⟨_, ⟨r, hr, rfl⟩, hinbox⟩ := hin
      obtain ⟨conn, buffer, hc, hsends, hserve⟩ := serve_asked hl.serving hl.connected hl.sends hinbox hr.fits
        (h.config ▸ hr.admitted) cut heap
      rw [hserve, Option.some.injEq] at hs
      have hexec : execute c.object call =
          ((outcome s.registry s.server.world r.service r.method r.payload).1, s.registry,
            (outcome s.registry s.server.world r.service r.method r.payload).2) := by
        rw [h.object, hr.service, hr.method, hr.payload]
        rfl
      have hterse : (outcome s.registry s.server.world r.service r.method r.payload).1.Terse :=
        terse_outcome h.terse _ _ _ hr.fits.payload
      generalize outcome s.registry s.server.world r.service r.method r.payload = o at hs hexec hterse
      subst hs
      refine ⟨_, by simp only [Atomic.Callers.step, hp, hexec]; rfl, ?_⟩
      refine ⟨rfl, h.returned, h.config, ?_, ?_, h.terse, fun j => ?_⟩
      · show s.server.totalRequests + 1 = _
        rw [h.totalRequests, List.length_append, UInt64.ofNat_add, UInt64.add_assoc]
        rfl
      · show s.server.totalErrors + (if o.1 = .threw then 1 else 0) = _
        rw [h.totalErrors, List.countP_append, UInt64.ofNat_add, UInt64.add_assoc]
        congr 2
        by_cases ho : o.1 = .threw <;> simp [ho]
      · have hself : (Atomic.Callers.effectsOf { c with effects := c.effects ++ [(i, call, o.1)] } i).map Prod.fst =
            (c.effectsOf i).map Prod.fst ++ [call] := by
          simp [Atomic.Callers.effectsOf]
        have hother (j : ι) (hj : j ≠ i) :
            (Atomic.Callers.effectsOf { c with effects := c.effects ++ [(i, call, o.1)] } j).map Prod.fst =
              (c.effectsOf j).map Prod.fst := by
          simp [Atomic.Callers.effectsOf, hj.symm]
        have hnew : Linked server.config.maxRequestSize ((c.effectsOf i).map Prod.fst ++ [call]) (.done call o.1)
            (c.lost i)
            { s.link i with
              inbox := []
              outbox := (s.link i).outbox ++ [(o.1.reply r.id).serialize 0]
              conn
              buffer
              handled := (s.link i).handled ++ [r.bytes] } := by
          have hwait := hl.waiting
          rw [hp] at hwait
          refine { hl with handled := ?_, connected := hc, sends := hsends, inbox := rfl, waiting := hwait, ready := ?_ }
          · exact List.rel_append hl.handled (.cons ⟨r, hr, rfl⟩ .nil)
          · intro hlost
            obtain ⟨hready, hout⟩ := hl.ready hlost
            rw [hp] at hout
            refine ⟨hready, hterse, r.id, ?_⟩
            rw [show (s.link i).outbox = [] from hout, List.nil_append]
        rw [← hself] at hnew
        have hall := linked_update h.linked hother hnew j
        rwa [Function.update_eq_self] at hall

/-- The response to a call that has been handled is read, and the call returns. -/
theorem Simulates.receive_done (h : Simulates server s c) {i : ι} {call : Arguments × Ty} {o : Outcome}
    (hp : c.phase i = .done call o) (hlost : c.lost i = false) (cut : Bool) (heap : Mem) :
    ∃ client, Ready client ∧
      s.step (.receive i cut heap) = some
        ({ s with returned := s.returned ++ [told (i, call, some o)] }.update i
          { s.link i with client, waiting := none, outbox := [] }) := by
  have hl := h.linked i
  obtain ⟨hready, hout⟩ := hl.ready hlost
  have hwait := hl.waiting
  rw [hlost, hp] at hwait
  rw [hp] at hout
  obtain ⟨hterse, id, hbox⟩ := hout
  have hframe : (o.toReply id hterse).frame.bytes = (o.reply id).serialize 0 := Frame.bytes_ofMessage _ _ _ _
  obtain ⟨client, hread, hready'⟩ := hready.receive (o.toReply id hterse) cut call.2 heap
  rw [hframe, o.result_toReply] at hread
  refine ⟨client, hready', ?_⟩
  simp only [RemoteRun.step, hl.failed, hlost, hbox, resume, hwait, Atomic.Phase.called, Bool.false_eq_true, if_false,
    hread]
  rfl

theorem Simulates.receive (h : Simulates server s c) {i : ι} {cut : Bool} {heap : Mem}
    (hs : s.step (.receive i cut heap) = some s') :
    ∃ c', c.step execute (.finish i) = some c' ∧ Simulates server s' c' := by
  have hl := h.linked i
  have hin := hl.inbox
  cases hlost : c.lost i with
  | true => simp [RemoteRun.step, hl.failed, hlost] at hs
  | false =>
      obtain ⟨hready, hout⟩ := hl.ready hlost
      cases hp : c.phase i with
      | idle =>
          rw [hp] at hout
          simp [RemoteRun.step, hl.failed, hlost, show (s.link i).outbox = [] from hout] at hs
      | pending call =>
          rw [hp] at hout
          simp [RemoteRun.step, hl.failed, hlost, show (s.link i).outbox = [] from hout] at hs
      | done call o =>
          rw [hp] at hin
          obtain ⟨client, hready', hstep⟩ := h.receive_done hp hlost cut heap
          rw [hstep, Option.some.injEq] at hs
          subst hs
          refine ⟨_, by simp only [Atomic.Callers.step, hp, hlost]; rfl, ?_⟩
          refine ⟨h.object, ?_, h.config, h.totalRequests, h.totalErrors, h.terse, fun j => ?_⟩
          · rw [List.map_append, ← h.returned]
            rfl
          · have hnew : Linked server.config.maxRequestSize ((c.effectsOf i).map Prod.fst) .idle (c.lost i)
                { s.link i with client, waiting := none, outbox := [] } := by
              refine { hl with inbox := hin, waiting := ?_, ready := fun _ => ⟨hready', rfl⟩ }
              simp [Atomic.Phase.called]
            have hall := linked_update h.linked (fun _ _ => rfl) hnew j
            rwa [Function.update_eq_self] at hall

theorem Simulates.fail (h : Simulates server s c) {i : ι} {errno : Nat} {heap : Mem}
    (hs : s.step (.fail i errno heap) = some s') :
    ∃ c', c.step execute (.lose i) = some c' ∧ Simulates server s' c' := by
  have hl := h.linked i
  simp only [RemoteRun.step] at hs
  split at hs
  · cases hs
  · next hfail =>
      rw [hl.failed, Bool.not_eq_true] at hfail
      obtain ⟨hready, hout⟩ := hl.ready hfail
      have hin := hl.inbox
      have hwait := hl.waiting
      rw [hfail] at hwait
      have hnew (client : RpcClient) : Linked server.config.maxRequestSize ((c.effectsOf i).map Prod.fst) (c.phase i) true
          { s.link i with client, waiting := none, failed := true } :=
        { hl with failed := rfl, waiting := rfl, ready := nofun }
      cases hp : c.phase i with
      | idle =>
          rw [hp] at hwait
          simp [resume, hwait, Atomic.Phase.called] at hs
      | pending call =>
          rw [hp] at hwait
          obtain ⟨client, hread⟩ := hready.fail errno call.2 heap
          simp only [resume, hwait, Atomic.Phase.called, Bool.false_eq_true, if_false, hread, Option.some.injEq] at hs
          subst hs
          refine ⟨_, by simp only [Atomic.Callers.step, hp, hfail]; rfl, ?_⟩
          refine ⟨h.object, ?_, h.config, h.totalRequests, h.totalErrors, h.terse, fun j => ?_⟩
          · rw [List.map_append, ← h.returned]
            rfl
          · have hall := linked_update h.linked (fun _ _ => rfl) (hnew client) j
            rwa [Function.update_eq_self] at hall
      | done call o =>
          rw [hp] at hwait
          obtain ⟨client, hread⟩ := hready.fail errno call.2 heap
          simp only [resume, hwait, Atomic.Phase.called, Bool.false_eq_true, if_false, hread, Option.some.injEq] at hs
          subst hs
          refine ⟨_, by simp only [Atomic.Callers.step, hp, hfail]; rfl, ?_⟩
          refine ⟨h.object, ?_, h.config, h.totalRequests, h.totalErrors, h.terse, fun j => ?_⟩
          · rw [List.map_append, ← h.returned]
            rfl
          · have hall := linked_update h.linked (fun _ _ => rfl) (hnew client) j
            rwa [Function.update_eq_self] at hall

theorem Simulates.step {e : RemoteEvent ι σ} (h : Simulates server s c) (hs : s.step e = some s') :
    ∃ c', c.step execute e.label = some c' ∧ Simulates server s' c' := by
  cases e with
  | invoke i args response => exact h.invoke hs
  | serve i cut heap => exact h.serve hs
  | receive i cut heap => exact h.receive hs
  | fail i errno heap => exact h.fail hs
  | register call terse =>
      cases hs
      refine ⟨_, rfl, ?_, h.returned, h.config, h.totalRequests, h.totalErrors, h.terse.apply terse, h.linked⟩
      rw [h.object]

structure Starts (s : RemoteRun ι σ) : Prop where
  returned : s.returned = []
  terse : s.registry.Handlers TerseHandler
  linked : ∀ i, Linked s.server.config.maxRequestSize [] .idle false (s.link i)

theorem Starts.simulates (h : s.Starts) : Simulates s.server s { object := (s.registry, s.server.world) } := by
  refine ⟨rfl, ?_, rfl, ?_, ?_, h.terse, h.linked⟩
  · rw [h.returned]
    rfl
  · simp
  · simp

theorem Starts.run_simulated (h : s.Starts) {evs : List (RemoteEvent ι σ)} (hrun : run step s evs = some s') :
    ∃ c, run (Atomic.Callers.step execute) { object := (s.registry, s.server.world) } (evs.map RemoteEvent.label) =
      some c ∧ Simulates s.server s' c := by
  have hstep (u : RemoteRun ι σ) (c : Atomic.Callers ι (ServiceRegistry σ × σ) (Arguments × Ty) Outcome)
      (e : RemoteEvent ι σ) (u' : RemoteRun ι σ) (hR : Simulates s.server u c) (hu : u.step e = some u') :
      ∃ ds c', ds = [e.label] ∧ run (Atomic.Callers.step execute) c ds = some c' ∧ Simulates s.server u' c' := by
    obtain ⟨c', hc', hsim⟩ := hR.step hu
    exact ⟨_, c', rfl, run_cons.mpr ⟨c', hc', run_nil.mpr rfl⟩, hsim⟩
  obtain ⟨dss, c, hall, hc, hsim⟩ := Atomic.run_refines hstep h.simulates hrun
  have hlabels : dss.flatten = evs.map RemoteEvent.label := by
    clear hc hrun
    induction hall with
    | nil => rfl
    | cons hd _ ih => rw [hd, List.flatten_cons, ih, List.map_cons, List.singleton_append]
  rw [hlabels] at hc
  exact ⟨c, hc, hsim⟩

/-- The calls of any number of clients act on the registry and the world of the server as operations that take
effect at once and one at a time, each between its call and its return, whatever the order of the steps and
whichever connections fail; and every caller is told the outcome of its own operation. -/
theorem remote_calls_atomic (h : s.Starts) {evs : List (RemoteEvent ι σ)} (hrun : run step s evs = some s') :
    ∃ c, run (Atomic.Callers.step execute) { object := (s.registry, s.server.world) } (evs.map RemoteEvent.label) =
        some c ∧
      (s'.registry, s'.server.world) = c.object ∧ s'.returned = c.returned.map told ∧
      s'.server.totalRequests = s.server.totalRequests + .ofNat c.effects.length ∧
      s'.server.totalErrors = s.server.totalErrors + .ofNat (c.effects.countP fun e => e.2.2 = .threw) := by
  obtain ⟨c, hc, hsim⟩ := h.run_simulated hrun
  exact ⟨c, hc, hsim.object.symm, hsim.returned, hsim.totalRequests, hsim.totalErrors⟩

theorem terseHandler_echo : TerseHandler (fun payload calls => (.ok payload, calls + 1) : Bytes → Nat → _) := by
  intro payload calls result hp h
  cases h
  exact hp

def sampleRun : RemoteRun Bool Nat where
  registry := ServiceRegistry.apply ∅ (.registerMethod [65] [66] (fun payload calls => (.ok payload, calls + 1)) [])
  server := { world := 0 }
  link _ := { client := sampleClient [], conn := sampleConnection [] }

theorem starts_sampleRun : sampleRun.Starts where
  returned := rfl
  terse := ServiceRegistry.handlers_empty.apply (by exact terseHandler_echo)
  linked _ :=
    { handled := .nil
      serving := rfl
      connected := rfl
      sends := rfl
      inbox := rfl
      failed := rfl
      waiting := rfl
      ready := fun _ => ⟨⟨_, .pooled rfl rfl (by decide) rfl, rfl⟩, rfl⟩ }

def sampleCall : Arguments :=
  { request := .bool, value := true, service := [65], method := [66], timestamp := 0, padding := 0 }

def sampleFailure : List (RemoteEvent Bool Nat) :=
  [.invoke true sampleCall .bool, .invoke false sampleCall .bool, .fail true 104 fun _ => 0]

def sampleSteps : List (RemoteEvent Bool Nat) :=
  sampleFailure ++
    [.serve false true fun _ => 0, .serve true false fun _ => 0, .receive false true fun _ => 0]

theorem remote_calls_atomic_two_clients :
    ∃ s', run step sampleRun sampleSteps = some s' ∧
      ∃ c, run (Atomic.Callers.step execute) { object := (sampleRun.registry, 0) } (sampleSteps.map RemoteEvent.label) =
          some c ∧
        (s'.registry, s'.server.world) = c.object ∧ s'.returned = c.returned.map told ∧
        s'.server.totalRequests = 0 + .ofNat c.effects.length ∧
        s'.server.totalErrors = 0 + .ofNat (c.effects.countP fun e => e.2.2 = .threw) := by
  obtain ⟨s', hs'⟩ := Option.isSome_iff_exists.mp
    (by decide +kernel : (run step sampleRun sampleSteps).isSome = true)
  exact ⟨s', hs', remote_calls_atomic starts_sampleRun hs'⟩

/-- Of the calls of a client all but the last have been handled once and in order, and have returned with the
outcome of that. The last one may wait to be handled, have been handled, or have failed in either state. -/
theorem remote_calls_once (h : s.Starts) {evs : List (RemoteEvent ι σ)} (hrun : run step s evs = some s') (i : ι) :
    ∃ (answered : List ((Arguments × Ty) × Outcome)) (last : Option ((Arguments × Ty) × Option Outcome)),
      RemoteEvent.calls i evs = answered.map Prod.fst ++ last.toList.map Prod.fst ∧
      List.Forall₂ (Carries s.server.config.maxRequestSize)
        (answered.map Prod.fst ++ (last.filter fun e => e.2.isSome).toList.map Prod.fst) (s'.link i).handled ∧
      (s'.returned.filter fun r => r.caller = i) =
        answered.map (fun e => told (i, e.1, some e.2)) ++
          if (s'.link i).failed then last.toList.map (fun e => told (i, e.1, none)) else [] := by
  obtain ⟨c, hc, hsim⟩ := h.run_simulated hrun
  obtain ⟨hinv, heff, hret⟩ := Atomic.Callers.once_run hc i
  have hl := hsim.linked i
  have hhandled := hl.handled
  rw [RemoteEvent.invocations_label, heff, List.map_append, List.append_assoc] at hinv
  rw [heff, List.map_append] at hhandled
  have hreturned : (s'.returned.filter fun r => r.caller = i) =
      (c.returnedTo i).map (fun e => told (i, e.1, some e.2)) ++ (c.lossOf i).map fun op => told (i, op, none) := by
    rw [hsim.returned, List.filter_map]
    have hcaller : (fun r : Returned ι => decide (r.caller = i)) ∘ told = fun e => decide (e.1 = i) := rfl
    rw [hcaller, hret, List.map_append, List.map_map, List.map_map]
    rfl
  rw [hreturned, hl.failed, Atomic.Callers.lossOf]
  cases hp : c.phase i with
  | idle =>
      rw [hp] at hinv hhandled
      exact ⟨c.returnedTo i, none, hinv, hhandled, by simp [Atomic.Phase.called]⟩
  | pending call =>
      rw [hp] at hinv hhandled
      exact ⟨c.returnedTo i, some (call, none), hinv, hhandled, by cases c.lost i <;> rfl⟩
  | done call o =>
      rw [hp] at hinv hhandled
      exact ⟨c.returnedTo i, some (call, some o), hinv, hhandled, by cases c.lost i <;> rfl⟩

theorem remote_calls_once_failed :
    ∃ s', run step sampleRun sampleSteps = some s' ∧
      ∃ (answered : List ((Arguments × Ty) × Outcome)) (last : Option ((Arguments × Ty) × Option Outcome)),
        RemoteEvent.calls true sampleSteps = answered.map Prod.fst ++ last.toList.map Prod.fst ∧
        List.Forall₂ (Carries sampleRun.server.config.maxRequestSize)
          (answered.map Prod.fst ++ (last.filter fun e => e.2.isSome).toList.map Prod.fst) (s'.link true).handled ∧
        (s'.returned.filter fun r => r.caller = true) =
          answered.map (fun e => told (true, e.1, some e.2)) ++
            if (s'.link true).failed then last.toList.map (fun e => told (true, e.1, none)) else [] := by
  obtain ⟨s', hs'⟩ := Option.isSome_iff_exists.mp
    (by decide +kernel : (run step sampleRun sampleSteps).isSome = true)
  exact ⟨s', hs', remote_calls_once starts_sampleRun hs' true⟩

/-- A call that waits on a connection that is up needs no other client's step to return: its request is handled,
unless it has been, and its response is read, however the network hands them over. -/
theorem remote_call_returns (h : s.Starts) {evs : List (RemoteEvent ι σ)} (hrun : run step s evs = some s') {i : ι}
    (hfailed : (s'.link i).failed = false) {args : Arguments} {response : Ty}
    (hwaiting : (s'.link i).waiting = some (args, response)) (cut cut' : Bool) (heap heap' : Mem) :
    ∃ evs' result t, evs' ∈ [[.receive i cut heap], [.serve i cut' heap', .receive i cut heap]] ∧
      run step s' evs' = some t ∧ t.returned = s'.returned ++ [⟨i, args, response, result⟩] ∧
      (t.link i).waiting = none ∧ ∀ j, j ≠ i → t.link j = s'.link j := by
  obtain ⟨c, hc, hsim⟩ := h.run_simulated hrun
  have hl := hsim.linked i
  have hlost : c.lost i = false := by rw [← hl.failed, hfailed]
  have hcalled := hl.waiting
  rw [hlost, hwaiting] at hcalled
  cases hp : c.phase i with
  | idle =>
      rw [hp] at hcalled
      cases hcalled
  | done call o =>
      rw [hp] at hcalled
      cases hcalled
      obtain ⟨client, -, hstep⟩ := hsim.receive_done hp hlost cut heap
      refine ⟨_, _, _, List.mem_cons_self, run_cons.mpr ⟨_, hstep, run_nil.mpr rfl⟩, rfl, ?_, ?_⟩
      · simp [RemoteRun.update]
      · intro j hj
        simp [RemoteRun.update, hj]
  | pending call =>
      rw [hp] at hcalled
      cases hcalled
      have hin := hl.inbox
      rw [hp] at hin
      obtain ⟨_, ⟨r, hr, rfl⟩, hinbox⟩ := hin
      obtain ⟨conn, buffer, -, -, hserve⟩ := serve_asked hl.serving hl.connected hl.sends hinbox hr.fits
        (hsim.config ▸ hr.admitted) cut' heap'
      obtain ⟨c', hc', hsim'⟩ := hsim.serve hserve
      have hdone : c'.phase i = .done (args, response) (execute c.object (args, response)).1 ∧ c'.lost i = false := by
        simp only [Atomic.Callers.step, hp, Option.some.injEq] at hc'
        subst hc'
        simpa using hlost
      obtain ⟨client, -, hstep⟩ := hsim'.receive_done hdone.1 hdone.2 cut heap
      refine ⟨_, _, _, List.mem_cons_of_mem _ List.mem_cons_self,
        run_cons.mpr ⟨_, hserve, run_cons.mpr ⟨_, hstep, run_nil.mpr rfl⟩⟩, rfl, ?_, ?_⟩
      · simp [RemoteRun.update]
      · intro j hj
        simp [RemoteRun.update, hj]

theorem remote_call_returns_beside_failed :
    ∃ s' evs' result t, run step sampleRun sampleFailure = some s' ∧
      evs' ∈ [[.receive false true fun _ => 0], [.serve false false fun _ => 0, .receive false true fun _ => 0]] ∧
      run step s' evs' = some t ∧ t.returned = s'.returned ++ [⟨false, sampleCall, .bool, result⟩] ∧
      (t.link false).waiting = none ∧ ∀ j, j ≠ false → t.link j = s'.link j := by
  obtain ⟨s', hs', hfailed, hwaiting⟩ : ∃ s', run step sampleRun sampleFailure = some s' ∧
      (s'.link false).failed = false ∧ (s'.link false).waiting = some (sampleCall, .bool) := by
    refine ⟨_, Option.some_get (by decide +kernel : (run step sampleRun sampleFailure).isSome = true) |>.symm, ?_, ?_⟩
    · decide +kernel
    · rfl
  obtain ⟨evs', result, t, hmem, hrun, hrest⟩ := remote_call_returns starts_sampleRun hs' hfailed hwaiting true false
    (fun _ => 0) (fun _ => 0)
  exact ⟨s', evs', result, t, hs', hmem, hrun, hrest⟩

end RemoteRun

end CoroRpc.Rpc

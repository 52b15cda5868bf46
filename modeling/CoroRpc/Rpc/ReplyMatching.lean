import CoroRpc.Lib.Trace
import CoroRpc.Rpc.Chunking

namespace CoroRpc.Rpc

open Memory Net Protocol RpcMessage Serializer Trace

structure Arguments where
  request : Ty
  value : request.Val
  service : Bytes
  method : Bytes
  timestamp : UInt64
  padding : UInt32

/-- `heap` is the memory behind the response buffer of the call. -/
inductive Operation
  | call (args : Arguments) (response : Ty) (heap : Mem)
  | asyncCall (args : Arguments)

def Operation.isCall : Operation → Bool
  | .call _ _ _ => true
  | .asyncCall _ => false

structure Reply where
  msg : RpcMessage
  created : Created msg
  response : msg.type = .response
  fits : msg.Fits

inductive Seen
  | called (id : UInt64) (response : Ty) (decoded : Option Bytes) (result : RpcResult response.Val)
  | posted (id : UInt64) (sent : Bool)

namespace Reply

def frame (r : Reply) : Frame := .ofMessage r.msg 0 r.fits r.created.valid

/-- The reply carries a value of the type `response`. -/
def Readable (r : Reply) (response : Ty) : Prop :=
  r.msg.errorCode = .ok ∧ ∃ n value, decode response r.msg.payload = .success n value

theorem deserialize_frame (r : Reply) (rest : Bytes) (heap : Mem) :
    let d := deserialize (ofList (r.frame.bytes ++ rest) heap) r.frame.bytes.length .fresh
    d.ok = true ∧ d.msg.requestId = r.msg.requestId ∧ d.msg.errorCode = r.msg.errorCode ∧
      d.msg.payload = r.msg.payload ∧ d.msg.errorMessage = r.msg.errorMessage := by
  have hbytes : r.frame.bytes = r.msg.serialize 0 := Frame.bytes_ofMessage _ _ _ _
  rw [hbytes]
  obtain ⟨hok, -, hmsg⟩ :=
    deserialize_serialize fresh r.fits r.created.valid (holds_ofList (r.msg.serialize 0) rest heap) le_rfl
  have hcontent := hmsg r.response
  refine ⟨hok, ?_, ?_, ?_, ?_⟩
  · rw [hcontent]
  · rw [hcontent]
  · rw [hcontent]
    by_cases hp : r.msg.payload = [] <;> simp [hp, fresh]
  · rw [hcontent]
    by_cases he : r.msg.errorMessage = [] <;> simp [he, fresh]

theorem requestId_eq_of_bytes {r r' : Reply} (h : r.frame.bytes = r'.frame.bytes) :
    r.msg.requestId = r'.msg.requestId := by
  have hr := (r.deserialize_frame [] fun _ => 0).2.1
  have hr' := (r'.deserialize_frame [] fun _ => 0).2.1
  rw [← h] at hr'
  exact hr.symm.trans hr'

def result (r : Reply) (response : Ty) : RpcResult response.Val :=
  if r.msg.errorCode ≠ .ok then .makeError r.msg.errorCode r.msg.errorMessage
  else
    match decode response r.msg.payload with
    | .failure _ => .makeError .serializationError (text "Failed to deserialize result")
    | .success _ value => .ok value

theorem parseResponse_frame (r : Reply) (response : Ty) (heap : Mem) :
    RpcClient.parseResponse response heap (r.frame.fill (List.replicate 4096 0)) r.frame.bytes.length =
      r.result response := by
  obtain ⟨stale, hfill⟩ := r.frame.fill_eq (List.replicate 4096 0)
  obtain ⟨hok, -, hcode, hpayload, hmessage⟩ := r.deserialize_frame stale heap
  rw [hfill]
  by_cases hc : r.msg.errorCode = .ok
  · cases hdec : decode response r.msg.payload with
    | failure n => simp [RpcClient.parseResponse, result, hok, hcode, hpayload, hc, hdec]
    | success n value => simp [RpcClient.parseResponse, result, hok, hcode, hpayload, hc, hdec]
  · simp [RpcClient.parseResponse, result, hok, hcode, hmessage, hc]

/-- The call returns a value if and only if the reply carries one. -/
theorem result_cases (r : Reply) (response : Ty) :
    (∃ n value, r.Readable response ∧ decode response r.msg.payload = .success n value ∧
      r.result response = .ok value) ∨
    ¬r.Readable response ∧ ∃ code message, r.result response = .makeError code message := by
  by_cases hcode : r.msg.errorCode = .ok
  · cases hdec : decode response r.msg.payload with
    | failure n =>
        refine .inr ⟨by simp [Readable, hdec], .serializationError, text "Failed to deserialize result", ?_⟩
        simp [result, hcode, hdec]
    | success n value => exact .inl ⟨n, value, ⟨hcode, n, value, hdec⟩, rfl, by simp [result, hcode, hdec]⟩
  · exact .inr ⟨fun h => hcode h.1, r.msg.errorCode, r.msg.errorMessage, by simp [result, hcode]⟩

end Reply

/-- A call that returns a value returns that of the reply with the id it generated. -/
def Seen.Matched (replies : List Reply) : Seen → Prop
  | .called id response decoded (.ok value) =>
      ∃ r ∈ replies, r.msg.requestId = id ∧ decoded = some r.frame.bytes ∧
        ∃ n, decode response r.msg.payload = .success n value
  | _ => True

structure ClientRun where
  client : RpcClient
  calls : Nat := 0
  asyncs : Nat := 0
  seen : List Seen := []

namespace ClientRun

variable (replies : List Reply)

/-- The server answers each request in its turn, with the id of the request. -/
def Answered (s : ClientRun) : Prop :=
  (replies[s.calls + s.asyncs]?).map (·.msg.requestId) = some s.client.requestId

instance (s : ClientRun) : Decidable (s.Answered replies) := inferInstanceAs (Decidable (_ = _))

def step (s : ClientRun) (op : Operation) : Option ClientRun :=
  if s.Answered replies then
    match op with
    | .call a response heap =>
        (s.client.call response heap a.request a.timestamp a.padding a.service a.method a.value).toOption.map fun r =>
          { s with
            client := r.client
            calls := s.calls + 1
            seen := s.seen ++ [.called s.client.requestId response r.decoded r.result] }
    | .asyncCall a =>
        (s.client.asyncCall a.request a.timestamp a.padding a.service a.method a.value).toOption.map fun r =>
          { s with
            client := r.2
            asyncs := s.asyncs + 1
            seen := s.seen ++ [.posted s.client.requestId r.1] }
  else none

def Matched (s : ClientRun) : Prop := ∀ x ∈ s.seen, x.Matched replies

/-- A call comes when no reply to an `async_call` stands before its own, unless the reply that it
will read carries no value of its type; the ids are counted modulo `2 ^ 64`. -/
def InTurn (s : ClientRun) : Operation → Prop
  | .call _ response _ => ∀ r, replies[s.calls]? = some r → r.Readable response → 2 ^ 64 ∣ s.asyncs
  | .asyncCall _ => True

end ClientRun

/-- The client uses a connection that takes whatever it is given and on which reads of these parts get each
of them whole. -/
def Joined (c : RpcClient) (parts : List Bytes) : Prop :=
  ∃ conn rest, Up c.tcpClient conn ∧ conn.sends = [] ∧ Reads conn.arrivals parts rest

theorem serialize_ne_nil (m : RpcMessage) (padding : UInt32) : m.serialize padding ≠ [] := by
  apply List.ne_nil_of_length_pos
  rw [length_serialize]
  have hsize : ProtocolHeader.size = 16 := rfl
  omega

theorem Joined.send {c : RpcClient} {parts : List Bytes} (h : Joined c parts) (m : RpcMessage) (padding : UInt32) :
    ∃ n t, c.tcpClient.send (m.serialize padding) = .ok (n, t) ∧ 0 < n ∧
      Joined { c with requestId := c.requestId + 1, tcpClient := t } parts := by
  obtain ⟨conn, rest, hup, hsends, hreads⟩ := h
  have hne := serialize_ne_nil m padding
  have hpos : 0 < (m.serialize padding).length := List.length_pos_iff.mpr hne
  have hw := Connection.asyncWrite_whole hup.connected hsends hne
  obtain ⟨t, ht, hup'⟩ := hup.send hw (by omega) hup.connected
  exact ⟨_, t, ht, by omega, _, rest, hup', hsends, hreads⟩

theorem Joined.asyncCall {c : RpcClient} {parts : List Bytes} (h : Joined c parts) (a : Arguments) :
    ∃ c', c.asyncCall a.request a.timestamp a.padding a.service a.method a.value = .ok (true, c') ∧
      c'.requestId = c.requestId + 1 ∧ Joined c' parts := by
  obtain ⟨n, t, ht, hn, hjoined⟩ := h.send (createRequest c.requestId a.service a.method
    (Serializer.serialize a.request a.value) c.config.timeoutMs.toUInt32 a.timestamp) a.padding
  refine ⟨{ c with requestId := c.requestId + 1, tcpClient := t }, ?_, rfl, hjoined⟩
  simp only [RpcClient.asyncCall, ht, bind, Except.bind, pure, Except.pure, hn, decide_true]

/-- A call takes the next reply, whatever its id. -/
theorem Joined.call {c : RpcClient} {r : Reply} {later : List Bytes} (h : Joined c (r.frame.parts ++ later))
    (a : Arguments) (response : Ty) (heap : Mem) :
    ∃ c', c.call response heap a.request a.timestamp a.padding a.service a.method a.value =
        .ok { result := r.result response, decoded := some r.frame.bytes, client := c' } ∧
      c'.requestId = c.requestId + 1 ∧ Joined c' later := by
  obtain ⟨n, t, ht, hn, conn, rest, hup, hsends, hreads⟩ := h.send (createRequest c.requestId a.service a.method
    (Serializer.serialize a.request a.value) c.config.timeoutMs.toUInt32 a.timestamp) a.padding
  obtain ⟨next, hframe, hlater⟩ := reads_append _ hreads
  obtain ⟨t', hr, hup'⟩ := RpcClient.readResponse_frame response heap hup r.frame hframe
  refine ⟨{ c with requestId := c.requestId + 1, tcpClient := t' }, ?_, rfl, _, rest, hup', hsends, hlater⟩
  simp only [RpcClient.call, ht, bind, Except.bind, Int.not_le.mpr hn, if_false, hr, RpcClient.finish,
    r.parseResponse_frame, r.frame.take_fill]

theorem add_ofNat_eq_iff (start : UInt64) (a b : Nat) :
    start + UInt64.ofNat a = start + UInt64.ofNat (a + b) ↔ 2 ^ 64 ∣ b := by
  rw [← UInt64.toNat_inj, UInt64.toNat_add, UInt64.toNat_add, UInt64.toNat_ofNat', UInt64.toNat_ofNat']
  omega

theorem add_ofNat_succ (start : UInt64) (a : Nat) : start + UInt64.ofNat (a + 1) = start + UInt64.ofNat a + 1 := by
  rw [UInt64.ofNat_add, UInt64.add_assoc]
  rfl

namespace ClientRun

variable {replies : List Reply} {start : UInt64} {ahead : Nat}

def partsFrom (replies : List Reply) (n ahead : Nat) : List Bytes :=
  (((replies.drop n).take ahead).map Reply.frame).flatMap Frame.parts

structure Serving (replies : List Reply) (start : UInt64) (ahead : Nat) (s : ClientRun) : Prop where
  joined : Joined s.client (partsFrom replies s.calls ahead)
  requestId : s.client.requestId = start + UInt64.ofNat (s.calls + s.asyncs)
  replied : ∀ k < s.calls + s.asyncs, ∀ r, replies[k]? = some r → r.msg.requestId = start + UInt64.ofNat k

theorem Serving.answered {s : ClientRun} (h : s.Serving replies start ahead) (ha : s.Answered replies) :
    s.calls + s.asyncs < replies.length ∧
      ∀ k < s.calls + s.asyncs + 1, ∀ r, replies[k]? = some r → r.msg.requestId = start + UInt64.ofNat k := by
  obtain ⟨r, hr, hid⟩ := Option.map_eq_some_iff.mp ha
  refine ⟨(List.getElem?_eq_some_iff.mp hr).1, fun k hk r' hr' => ?_⟩
  rcases Nat.lt_succ_iff_lt_or_eq.mp hk with hlt | rfl
  · exact h.replied k hlt r' hr'
  · rw [hr] at hr'
    cases hr'
    exact hid.trans h.requestId

/-- What a call does: it takes the reply whose number is that of the calls before it. -/
theorem Serving.call {s t : ClientRun} {a : Arguments} {response : Ty} {heap : Mem}
    (h : s.Serving replies start (ahead + 1)) (hs : s.step replies (.call a response heap) = some t) :
    ∃ r, replies[s.calls]? = some r ∧ r.msg.requestId = start + UInt64.ofNat s.calls ∧ t.Serving replies start ahead ∧
      t.seen = s.seen ++ [.called s.client.requestId response (some r.frame.bytes) (r.result response)] := by
  by_cases ha : s.Answered replies
  · obtain ⟨hlt, hids⟩ := h.answered ha
    have hcalls : s.calls < replies.length := by omega
    have hr : replies[s.calls]? = some replies[s.calls] := List.getElem?_eq_getElem hcalls
    have hparts : partsFrom replies s.calls (ahead + 1) =
        replies[s.calls].frame.parts ++ partsFrom replies (s.calls + 1) ahead := by
      rw [partsFrom, List.drop_eq_getElem_cons hcalls]
      rfl
    have hjoined := h.joined
    rw [hparts] at hjoined
    obtain ⟨c', hcall, hid, hjoined'⟩ := hjoined.call a response heap
    simp only [step, ha, if_true, hcall, Except.toOption, Option.map_some, Option.some.injEq] at hs
    subst hs
    refine ⟨replies[s.calls], hr, hids s.calls (by omega) _ hr, ⟨hjoined', ?_, ?_⟩, rfl⟩
    · show c'.requestId = start + UInt64.ofNat (s.calls + 1 + s.asyncs)
      rw [hid, h.requestId, Nat.add_right_comm, add_ofNat_succ]
    · rw [Nat.add_right_comm]
      exact hids
  · simp [step, ha] at hs

theorem Serving.asyncCall {s t : ClientRun} {a : Arguments} (h : s.Serving replies start ahead)
    (hs : s.step replies (.asyncCall a) = some t) :
    t.Serving replies start ahead ∧ t.calls = s.calls ∧ t.asyncs = s.asyncs + 1 ∧
      t.seen = s.seen ++ [.posted s.client.requestId true] := by
  by_cases ha : s.Answered replies
  · obtain ⟨-, hids⟩ := h.answered ha
    obtain ⟨c', hcall, hid, hjoined⟩ := h.joined.asyncCall a
    simp only [step, ha, if_true, hcall, Except.toOption, Option.map_some, Option.some.injEq] at hs
    subst hs
    refine ⟨⟨hjoined, ?_, hids⟩, rfl, rfl, rfl⟩
    show c'.requestId = start + UInt64.ofNat (s.calls + s.asyncs + 1)
    rw [hid, h.requestId, add_ofNat_succ]
  · simp [step, ha] at hs

theorem Serving.step {s t : ClientRun} {op : Operation} {ops : List Operation}
    (h : s.Serving replies start ((op :: ops).countP Operation.isCall)) (hs : s.step replies op = some t) :
    t.Serving replies start (ops.countP Operation.isCall) := by
  cases op with
  | call a response heap =>
      rw [List.countP_cons_of_pos rfl] at h
      obtain ⟨r, -, -, hserving, -⟩ := h.call hs
      exact hserving
  | asyncCall a =>
      rw [List.countP_cons_of_neg Bool.false_ne_true] at h
      exact (h.asyncCall hs).1

theorem matched_snoc_iff {s t : ClientRun} {x : Seen} (hP : s.Matched replies) (ht : t.seen = s.seen ++ [x]) :
    t.Matched replies ↔ x.Matched replies := by
  simp only [Matched, ht, List.mem_append, List.mem_singleton]
  constructor
  · intro h
    exact h x (.inr rfl)
  · rintro h y (hy | rfl)
    · exact hP y hy
    · exact h

/-- A call that reads the reply `r` is matched if and only if `r` has its id or carries no value. -/
theorem matched_called_iff {r : Reply} (hr : r ∈ replies) (id : UInt64) (response : Ty) :
    (Seen.called id response (some r.frame.bytes) (r.result response)).Matched replies ↔
      (r.Readable response → r.msg.requestId = id) := by
  rcases r.result_cases response with ⟨n, value, hread, hdec, hres⟩ | ⟨hread, code, message, hres⟩
  · rw [hres]
    simp only [Seen.Matched, hread, forall_const]
    constructor
    · rintro ⟨r', -, hid, hbytes, -⟩
      exact (Reply.requestId_eq_of_bytes (Option.some.inj hbytes)).trans hid
    · intro hid
      exact ⟨r, hr, hid, rfl, n, hdec⟩
  · rw [hres]
    exact iff_of_true trivial fun h => absurd h hread

theorem matched_step_iff {s t : ClientRun} {op : Operation} {ops : List Operation}
    (h : s.Serving replies start ((op :: ops).countP Operation.isCall)) (hP : s.Matched replies)
    (hs : s.step replies op = some t) : t.Matched replies ↔ s.InTurn replies op := by
  cases op with
  | call a response heap =>
      rw [List.countP_cons_of_pos rfl] at h
      obtain ⟨r, hr, hid, -, hseen⟩ := h.call hs
      rw [matched_snoc_iff hP hseen, matched_called_iff (List.mem_of_getElem? hr), hid, h.requestId,
        add_ofNat_eq_iff]
      simp [InTurn, hr]
  | asyncCall a =>
      rw [List.countP_cons_of_neg Bool.false_ne_true] at h
      obtain ⟨-, -, -, hseen⟩ := h.asyncCall hs
      exact iff_of_true ((matched_snoc_iff hP hseen).mpr trivial) trivial

theorem asyncs_step {s t : ClientRun} {op : Operation} (hop : op.isCall = true) (hs : s.step replies op = some t) :
    t.asyncs = s.asyncs := by
  cases op with
  | asyncCall a => cases hop
  | call a response heap =>
      by_cases ha : s.Answered replies
      · simp only [step, ha, if_true] at hs
        obtain ⟨r, -, rfl⟩ := Option.map_eq_some_iff.mp hs
        rfl
      · simp [step, ha] at hs

theorem asyncs_run {s t : ClientRun} {ops : List Operation} (hops : ∀ op ∈ ops, op.isCall = true)
    (h : run (step replies) s ops = some t) : t.asyncs = s.asyncs := by
  induction ops generalizing s with
  | nil =>
      rw [run_nil] at h
      rw [h]
  | cons op ops ih =>
      obtain ⟨u, hu, ht⟩ := run_cons.mp h
      rw [ih (fun o ho => hops o (List.mem_cons_of_mem op ho)) ht, asyncs_step (hops op List.mem_cons_self) hu]

/-- A client that only makes calls makes them in turn. -/
theorem inTurn_of_calls {c : RpcClient} {ops : List Operation} (hops : ∀ op ∈ ops, op.isCall = true) :
    EachStep (step replies) (InTurn replies) { client := c } ops := by
  intro fs op t hfs ht
  have hsub : ∀ o ∈ fs, o.isCall = true := fun o ho => hops o (hfs.subset (List.mem_append_left [op] ho))
  cases op with
  | asyncCall a => exact trivial
  | call a response heap =>
      intro r _ _
      rw [asyncs_run hsub ht]
      exact Nat.dvd_zero _

theorem serving_start {c : RpcClient} {conn : Connection} (hup : Up c.tcpClient conn) (hsends : conn.sends = [])
    {rest : List Arrival}
    (huncut : Reads conn.arrivals (((replies.take ahead).map Reply.frame).flatMap Frame.parts) rest) :
    Serving replies c.requestId ahead { client := c } := by
  refine ⟨⟨conn, rest, hup, hsends, huncut⟩, (UInt64.add_zero _).symm, fun k hk => ?_⟩
  exact absurd hk (Nat.not_lt_zero k)

end ClientRun

/-- Over one connection on which no read of the calls is short, every call that returns a value returns that
of the reply with its own id if and only if no `async_call` was made before it. -/
theorem reply_matched_iff (replies : List Reply) (c : RpcClient) (conn : Connection) (hup : Up c.tcpClient conn)
    (hsends : conn.sends = []) (ops : List Operation) (rest : List Arrival)
    (huncut : Reads conn.arrivals
      (((replies.take (ops.countP Operation.isCall)).map Reply.frame).flatMap Frame.parts) rest)
    (s : ClientRun) (h : run (ClientRun.step replies) { client := c } ops = some s) :
    Throughout (ClientRun.step replies) (ClientRun.Matched replies) { client := c } ops ↔
      EachStep (ClientRun.step replies) (ClientRun.InTurn replies) { client := c } ops := by
  refine throughout_iff_within
    (I := fun ops => ClientRun.Serving replies c.requestId (ops.countP Operation.isCall))
    (fun _ _ _ _ hI _ hs _ => hI.step hs) (fun _ _ _ _ hI hP hs => ClientRun.matched_step_iff hI hP hs)
    (ClientRun.serving_start hup hsends huncut) ?_ h
  intro x hx
  cases hx

def sampleReply (id : UInt64) (value : Bool) : Reply where
  msg := createResponse id (Serializer.serialize .bool value) .ok
  created := .response id _ .ok
  response := rfl
  fits := ⟨(by decide : 16 < 2 ^ 32), (by decide : 1 < 2 ^ 32)⟩

def sampleReplies : List Reply := [sampleReply 0 true, sampleReply 1 false]

def sampleArguments : Arguments :=
  { request := .bool, value := true, service := [], method := [], timestamp := 0, padding := 0 }

def directClient : RpcClient :=
  { tcpClient :=
      { config := { enableConnectionPool := false }
        connection := some (sampleConnection (whole ((sampleReplies.map Reply.frame).flatMap Frame.bytes)))
        connected := true } }

/-- Replies that arrive together are read uncut. -/
theorem reads_replies (replies : List Reply) (n : Nat) :
    ∃ rest, Reads (whole ((replies.map Reply.frame).flatMap Frame.bytes))
      (((replies.take n).map Reply.frame).flatMap Frame.parts) rest := by
  have hwhole := wholeParts_frames (replies.map Reply.frame)
  have hsplit : (replies.map Reply.frame).flatMap Frame.parts =
      ((replies.take n).map Reply.frame).flatMap Frame.parts ++
        ((replies.drop n).map Reply.frame).flatMap Frame.parts := by
    rw [← List.flatMap_append, ← List.map_append, List.take_append_drop]
  rw [hsplit] at hwhole
  obtain ⟨rest, hreads, -⟩ := hwhole.reads (hsplit ▸ nil_notMem_flatMap_parts _)
  exact ⟨rest, hreads⟩

theorem reply_matched_two_calls :
    let ops : List Operation := [.call sampleArguments .bool fun _ => 0, .call sampleArguments .bool fun _ => 0]
    ∃ s, run (ClientRun.step sampleReplies) { client := directClient } ops = some s ∧ s.Matched sampleReplies := by
  intro ops
  obtain ⟨s, hs⟩ := Option.isSome_iff_exists.mp
    (by decide +kernel : (run (ClientRun.step sampleReplies) { client := directClient } ops).isSome = true)
  obtain ⟨rest, hreads⟩ := reads_replies sampleReplies (ops.countP Operation.isCall)
  have hiff := reply_matched_iff sampleReplies directClient _ (.direct rfl rfl rfl rfl) rfl ops rest hreads s hs
  exact ⟨s, hs, hiff.mpr (ClientRun.inTurn_of_calls (by simp [ops, Operation.isCall])) ops s List.prefix_rfl hs⟩

/-- An `async_call` and a call: the call, whose id is 1, returns the value of the reply to the other. -/
theorem reply_shifted :
    ∃ s, run (ClientRun.step sampleReplies) { client := directClient }
        [.asyncCall sampleArguments, .call sampleArguments .bool fun _ => 0] = some s ∧
      s.seen = [.posted 0 true, .called 1 .bool (some (sampleReply 0 true).frame.bytes) (.ok true)] ∧
      ¬s.Matched sampleReplies := by
  obtain ⟨s, hs⟩ := Option.isSome_iff_exists.mp
    (by decide +kernel : (run (ClientRun.step sampleReplies) { client := directClient }
      [.asyncCall sampleArguments, .call sampleArguments .bool fun _ => 0]).isSome = true)
  obtain ⟨rest, hreads⟩ := reads_replies sampleReplies 1
  have hstart := ClientRun.serving_start (c := directClient) (.direct rfl rfl rfl rfl) rfl hreads
  obtain ⟨t, ht, hrest⟩ := run_cons.mp hs
  obtain ⟨u, hu, hnil⟩ := run_cons.mp hrest
  cases run_nil.mp hnil
  obtain ⟨hserving, hcalls, hasyncs, hseen⟩ := hstart.asyncCall ht
  obtain ⟨r, hr, -, -, hseen'⟩ := hserving.call hu
  have hid : t.client.requestId = 1 := by
    rw [hserving.requestId, hcalls, hasyncs]
    rfl
  rw [hcalls] at hr
  cases hr
  rw [hseen, hid] at hseen'
  refine ⟨s, hs, hseen', fun hmatched => ?_⟩
  have hcalled : Seen.Matched sampleReplies _ := hmatched _ (hseen' ▸ List.mem_append_right _ List.mem_cons_self)
  have hread : (sampleReply 0 true).Readable .bool := ⟨rfl, _, _, rfl⟩
  exact absurd ((ClientRun.matched_called_iff List.mem_cons_self 1 .bool).mp hcalled hread) (by decide)

end CoroRpc.Rpc

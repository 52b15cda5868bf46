import CoroRpc.Rpc.Framing

namespace CoroRpc.Rpc

open Loop Memory Net Protocol RpcMessage

variable {σ : Type}

structure Request where
  id : UInt64
  service : Bytes
  method : Bytes
  payload : Bytes
  timeoutMs : UInt32
  timestamp : UInt64
  padding : UInt32

namespace Request

def message (r : Request) : RpcMessage :=
  createRequest r.id r.service r.method r.payload r.timeoutMs r.timestamp

def bytes (r : Request) : Bytes := r.message.serialize r.padding

def frame (r : Request) (hf : r.message.Fits) : Frame := .ofMessage r.message r.padding hf rfl

def parts (r : Request) : List Bytes :=
  [r.message.wireHeader.toBytes, r.message.wireMeta r.padding ++ r.message.payload]

theorem flatten_parts (r : Request) : r.parts.flatten = r.bytes := by
  simp [parts, bytes, serialize]

theorem body_ne_nil (r : Request) : r.message.wireMeta r.padding ++ r.message.payload ≠ [] := by
  apply List.ne_nil_of_length_pos
  rw [List.length_append, length_wireMeta]
  have hsize : r.message.metaSize = 32 + r.service.length + r.method.length := rfl
  omega

theorem parts_frame (r : Request) (hf : r.message.Fits) : (r.frame hf).parts = r.parts := by
  unfold Frame.parts parts
  rw [if_neg (show (r.frame hf).body ≠ [] from r.body_ne_nil)]
  rfl

theorem nil_notMem_parts (r : Request) : [] ∉ r.parts := by
  simpa [parts] using ⟨Frame.toBytes_ne_nil _, fun h hp => r.body_ne_nil (by rw [h, hp]; rfl)⟩

theorem deserialize_bytes (r : Request) (hf : r.message.Fits) {mem : Mem} (hm : Holds mem 0 r.bytes) :
    (deserialize mem r.bytes.length fresh).ok = true ∧
      (deserialize mem r.bytes.length fresh).msg =
        { fresh with
          header := r.message.wireHeader, requestId := r.id, timestamp := r.timestamp,
          timeoutMs := r.timeoutMs, service := r.service, method := r.method, payload := r.payload } := by
  obtain ⟨hok, hmsg, -⟩ := deserialize_serialize fresh hf rfl hm (Nat.le_refl _)
  refine ⟨hok, (hmsg rfl).trans ?_⟩
  by_cases hp : r.payload = [] <;> simp [message, createRequest, hp, fresh]

end Request

theorem nil_notMem_flatMap_request (requests : List Request) : [] ∉ requests.flatMap Request.parts := by
  intro h
  obtain ⟨r, _, hr⟩ := List.mem_flatMap.mp h
  exact r.nil_notMem_parts hr

theorem flatten_flatMap_request (requests : List Request) :
    (requests.flatMap Request.parts).flatten = requests.flatMap Request.bytes := by
  induction requests with
  | nil => rfl
  | cons r requests ih =>
      rw [List.flatMap_cons, List.flatten_append, ih, r.flatten_parts, List.flatMap_cons]

inductive Outcome
  | returned (result : Bytes)
  | notFound
  | threw
  deriving DecidableEq

def outcome (registry : ServiceRegistry σ) (world : σ) (service method payload : Bytes) : Outcome × σ :=
  match registry.findMethod service method with
  | none => (.notFound, world)
  | some handler =>
      match handler payload world with
      | (.ok result, world) => (.returned result, world)
      | (.error _, world) => (.threw, world)

/-- The requests one after another, each with its outcome in the world the ones before it left. -/
def outcomes (registry : ServiceRegistry σ) : σ → List Request → List (Request × Outcome)
  | _, [] => []
  | world, r :: rs =>
      let o := outcome registry world r.service r.method r.payload
      (r, o.1) :: outcomes registry o.2 rs

def Outcome.code : Outcome → ErrorCode
  | returned _ => .ok
  | notFound => .serviceNotFound
  | threw => .unknown

def Answers (r : Request) (o : Outcome) (bytes : Bytes) : Prop :=
  ∀ mem, Holds mem 0 bytes →
    let d := deserialize mem bytes.length fresh
    d.ok = true ∧ d.msg.type = .response ∧ d.msg.requestId = r.id ∧ d.msg.errorCode = o.code ∧
      ∀ result, o = .returned result → d.msg.payload = result

structure Corresponds (registry : ServiceRegistry σ) (s : RpcServer σ) (before : List Write)
    (requests : List Request) (e : Session σ) : Prop where
  writes : ∃ new, e.conn.writes = before ++ new ∧
    List.Forall₂ (fun ro w => w.Complete ∧ Answers ro.1 ro.2 w.buffer)
      (outcomes registry s.world requests) new
  totalRequests : e.server.totalRequests = s.totalRequests + .ofNat requests.length
  totalErrors : e.server.totalErrors =
    s.totalErrors + .ofNat ((outcomes registry s.world requests).countP fun ro => ro.2 = .threw)

def Outcome.reply (id : UInt64) : Outcome → RpcMessage
  | returned result => createResponse id result .ok
  | notFound => RpcServer.notFound id
  | threw => RpcServer.internalError id

theorem Outcome.reply_type (id : UInt64) (o : Outcome) : (o.reply id).type = .response := by
  cases o <;> rfl

theorem Outcome.reply_fits (id : UInt64) (o : Outcome)
    (ho : ∀ result, o = .returned result → result.length < 2 ^ 32) : (o.reply id).Fits := by
  cases o with
  | returned result => exact ⟨show 16 + 0 < 2 ^ 32 by decide, ho result rfl⟩
  | notFound =>
      exact ⟨show 16 + (text "Service or method not found").length < 2 ^ 32 by decide,
        show 0 < 2 ^ 32 by decide⟩
  | threw =>
      exact ⟨show 16 + (text "Internal server error").length < 2 ^ 32 by decide, show 0 < 2 ^ 32 by decide⟩

theorem Outcome.reply_answers (r : Request) (o : Outcome)
    (ho : ∀ result, o = .returned result → result.length < 2 ^ 32) :
    Answers r o ((o.reply r.id).serialize 0) := by
  intro mem hm
  have hv : (o.reply r.id).header.valid := by
    cases o <;> rfl
  obtain ⟨hok, -, hmsg⟩ := deserialize_serialize fresh (o.reply_fits r.id ho) hv hm (Nat.le_refl _)
  have hmsg := hmsg (o.reply_type r.id)
  refine ⟨hok, ?_⟩
  rw [hmsg]
  cases o with
  | returned result =>
      refine ⟨rfl, rfl, rfl, ?_⟩
      rintro _ ⟨⟩
      by_cases hr : result = [] <;> simp [reply, createResponse, hr, fresh]
  | notFound => exact ⟨rfl, rfl, rfl, by simp⟩
  | threw => exact ⟨rfl, rfl, rfl, by simp⟩

namespace RpcServer

def settle (s : RpcServer σ) (o : Outcome) (world : σ) : RpcServer σ :=
  { s with
    totalRequests := s.totalRequests + 1
    totalErrors := s.totalErrors + if o = .threw then 1 else 0
    world }

theorem dispatch_eq (registry : ServiceRegistry σ) (s : RpcServer σ) (msg : RpcMessage) :
    dispatch registry s.countRequest msg =
      let o := outcome registry s.world msg.service msg.method msg.payload
      (o.1.reply msg.requestId, s.settle o.1 o.2) := by
  cases hfind : registry.findMethod msg.service msg.method with
  | none => simp [dispatch, outcome, hfind, Outcome.reply, settle, countRequest]
  | some handler =>
      rcases hcall : handler msg.payload s.world with ⟨result | result, world⟩
      · simp [dispatch, outcome, hfind, hcall, Outcome.reply, settle, countRequest, countError]
      · simp [dispatch, outcome, hfind, hcall, Outcome.reply, settle, countRequest]

theorem handleMessage_request (registry : ServiceRegistry σ) (s : RpcServer σ) (r : Request)
    (hf : r.message.Fits) {mem : Mem} (hm : Holds mem 0 r.bytes) :
    s.handleMessage registry mem r.bytes.length =
      let o := outcome registry s.world r.service r.method r.payload
      ((o.1.reply r.id).serialize 0, s.settle o.1 o.2) := by
  obtain ⟨hok, hmsg⟩ := r.deserialize_bytes hf hm
  have ht : (deserialize mem r.bytes.length fresh).msg.type = .request := by
    rw [hmsg]
    rfl
  rw [handleMessage]
  simp only [hok, Bool.not_true, Bool.false_eq_true, if_false]
  rw [if_pos ht, dispatch_eq, hmsg]

end RpcServer

theorem Outcome.reply_ne_nil (id : UInt64) (o : Outcome) : (o.reply id).serialize 0 ≠ [] := by
  apply List.ne_nil_of_length_pos
  rw [length_serialize]
  simp only [ProtocolHeader.size]
  omega

namespace Session

variable (registry : ServiceRegistry σ) (heap : Mem)

def answer (r : Request) (s : Session σ) : Bytes :=
  ((outcome registry s.server.world r.service r.method r.payload).1.reply r.id).serialize 0

def answered (r : Request) (s : Session σ) (rest : List Arrival) (buffer : Bytes) : Session σ :=
  let o := outcome registry s.server.world r.service r.method r.payload
  { server := s.server.settle o.1 o.2
    conn :=
      { s.conn with
        arrivals := rest
        writes := s.conn.writes ++ [⟨answer registry r s, (answer registry r s).length⟩] }
    buffer := buffer
    handled := s.handled ++ [r.bytes] }

theorem serve_request {s : Session σ} (r : Request) (hf : r.message.Fits) (hc : s.conn.connected)
    (hs : s.conn.sends = []) (hmax : r.bytes.length ≤ s.server.config.maxRequestSize)
    {later : List Bytes} (hl : [] ∉ later) (h : WholeParts s.conn.arrivals (r.parts ++ later)) :
    ∃ rest buffer, WholeParts rest later ∧
      serve registry heap s = .next (answered registry r s rest buffer) := by
  have hb : (r.frame hf).bytes = r.bytes := Frame.bytes_ofMessage _ _ _ _
  rw [← r.parts_frame hf] at h
  obtain ⟨rest, hreads, hrest⟩ := h.reads (List.not_mem_append (r.frame hf).nil_notMem_parts hl)
  have hserve := serve_frame registry heap hc (r.frame hf) (hb ▸ hmax) hreads
  obtain ⟨stale, hfill⟩ := (r.frame hf).fill_eq s.buffer
  rw [hb] at hfill hserve
  have hmem : Holds (ofList (r.bytes ++ stale) heap) 0 r.bytes := holds_ofList _ _ _
  have hne : answer registry r s ≠ [] := Outcome.reply_ne_nil _ _
  refine ⟨rest, r.bytes ++ stale, hrest, ?_⟩
  rw [hserve, hfill]
  simp only [process, advance, s.server.handleMessage_request registry r hf hmem, List.take_left]
  apply respond_whole
  · exact hc
  · exact hs
  · exact hne

theorem iterate_requests (requests : List Request) (s : Session σ) (hc : s.conn.connected)
    (hs : s.conn.sends = []) (ha : WholeParts s.conn.arrivals (requests.flatMap Request.parts))
    (hmax : ∀ r ∈ requests, r.bytes.length ≤ s.server.config.maxRequestSize)
    (hfits : ∀ r ∈ requests, r.message.Fits)
    (hres : ∀ ro ∈ outcomes registry s.server.world requests, ∀ result, ro.2 = .returned result →
      result.length < 2 ^ 32) :
    ∃ e, iterate (serve registry heap) (requests.length + 1) (.next s) = .stop e ∧
      Corresponds registry s.server s.conn.writes requests e := by
  induction requests generalizing s with
  | nil =>
      refine ⟨_, serve_eof registry heap hc ha.eq_nil, ⟨[], ?_, .nil⟩, ?_, ?_⟩
      · simp
      · simp
      · simp [outcomes]
  | cons r requests ih =>
      have hf := hfits r List.mem_cons_self
      have hl := nil_notMem_flatMap_request requests
      obtain ⟨rest, buffer, hrest, hserve⟩ := serve_request registry heap r hf hc hs
        (hmax r List.mem_cons_self) hl ha
      obtain ⟨e, he, hcorr⟩ := ih (answered registry r s rest buffer) hc hs hrest
        (fun r hr => hmax r (List.mem_cons_of_mem _ hr)) (fun r hr => hfits r (List.mem_cons_of_mem _ hr))
        (fun ro hro => hres ro (List.mem_cons_of_mem _ hro))
      obtain ⟨new, hnew, hall⟩ := hcorr.writes
      refine ⟨e, ?_, ⟨⟨answer registry r s, (answer registry r s).length⟩ :: new, ?_, .cons ⟨rfl, ?_⟩ hall⟩,
        ?_, ?_⟩
      · exact (iterate_next hserve _).trans he
      · rw [hnew, answered, List.append_assoc, List.singleton_append]
      · exact Outcome.reply_answers r _ (hres _ List.mem_cons_self)
      · rw [hcorr.totalRequests, answered, RpcServer.settle, List.length_cons, UInt64.add_assoc, Nat.add_comm,
          UInt64.ofNat_add]
        rfl
      · rw [hcorr.totalErrors, answered, RpcServer.settle, UInt64.add_assoc]
        simp only [outcomes, List.countP_cons, decide_eq_true_eq]
        congr 1
        rw [UInt64.add_comm, UInt64.ofNat_add]
        congr 1
        split <;> rfl

end Session

/-- The `i`-th frame written answers the `i`-th request, the lengths of the requests fitting
their fields. -/
theorem handleConnection_corresponds (registry : ServiceRegistry σ) (heap : Mem) (server : RpcServer σ)
    (conn : Connection) (requests : List Request) (hc : conn.connected) (hs : conn.sends = [])
    (ha : conn.arrivals = whole (requests.flatMap Request.bytes))
    (hmax : ∀ r ∈ requests, r.bytes.length ≤ server.config.maxRequestSize)
    (hres : ∀ ro ∈ outcomes registry server.world requests, ∀ result, ro.2 = .returned result →
      result.length < 2 ^ 32)
    (hmeta : ∀ r ∈ requests, r.message.metaSize < 2 ^ 32)
    (hpayload : ∀ r ∈ requests, r.payload.length < 2 ^ 32) :
    Corresponds registry server conn.writes requests (handleConnection registry heap server conn) := by
  have hparts : [] ∉ requests.flatMap Request.parts := nil_notMem_flatMap_request requests
  obtain ⟨e, he, hcorr⟩ := Session.iterate_requests registry heap requests { server, conn } hc hs
    (by rw [ha, ← flatten_flatMap_request]; exact .whole hparts) hmax
    (fun r hr => ⟨hmeta r hr, hpayload r hr⟩) hres
  rw [handleConnection_eq he]
  exact hcorr

def sampleRegistry : ServiceRegistry Nat :=
  ServiceRegistry.registerMethod
    (ServiceRegistry.registerMethod ∅ [65] [66] (some fun payload calls => (.ok payload, calls + 1)) [])
    [65] [67] (some fun _ calls => (.error (), calls)) []

def sampleRequests : List Request :=
  [⟨1, [65], [66], [9], 30000, 5, 0⟩, ⟨2, [65], [67], [], 30000, 6, 0⟩, ⟨3, [66], [66], [], 30000, 7, 0⟩]

theorem handleConnection_corresponds_sample :
    Corresponds sampleRegistry { world := 0 } [] sampleRequests
      (handleConnection sampleRegistry (fun _ => 0) { world := 0 }
        { fd := 3, state := .connected, arrivals := whole (sampleRequests.flatMap Request.bytes) }) := by
  refine handleConnection_corresponds sampleRegistry (fun _ => 0) { world := 0 }
    { fd := 3, state := .connected, arrivals := whole (sampleRequests.flatMap Request.bytes) }
    sampleRequests rfl rfl rfl (by decide) ?_ (by decide) (by decide)
  have houtcomes : (outcomes sampleRegistry 0 sampleRequests).map Prod.snd =
      [.returned [9], .threw, .notFound] := by decide
  intro ro hro result hr
  have hmem := List.mem_map_of_mem (f := Prod.snd) hro
  rw [houtcomes, hr] at hmem
  simp only [List.mem_cons, Outcome.returned.injEq, reduceCtorEq, List.not_mem_nil, or_false] at hmem
  rw [hmem]
  decide

def zeroRequest (n : Nat) : Request := ⟨1, [65], [66], List.replicate n 0, 30000, 0, 0⟩

theorem zeroRequest_bytes {n : Nat} (hn : UInt32.ofNat n = 0) :
    (zeroRequest n).bytes = (zeroRequest 0).bytes ++ List.replicate n 0 := by
  have hheader : (zeroRequest n).message.wireHeader = (zeroRequest 0).message.wireHeader := by
    simp [wireHeader, zeroRequest, Request.message, createRequest, hn, metaSize, type]
  have hmeta : (zeroRequest n).message.wireMeta 0 = (zeroRequest 0).message.wireMeta 0 := rfl
  have hpayload : (zeroRequest n).message.payload = List.replicate n 0 := rfl
  have hnone : (zeroRequest 0).message.payload = [] := rfl
  unfold Request.bytes serialize
  rw [hheader, hpayload, hnone, List.append_nil]
  exact congrArg (fun m => _ ++ m ++ _) hmeta

theorem toBytes_zero : ProtocolHeader.zero.toBytes = List.replicate 16 0 := by decide

/-- Sixteen zeros are no header: the server takes the payload for the next frame. -/
theorem iterate_zeroRequest {n : Nat} (hn : UInt32.ofNat (n + 16) = 0) (hpos : 0 < n) (heap : Mem)
    (server : RpcServer Unit) (hmax : 50 ≤ server.config.maxRequestSize) (conn : Connection)
    (hc : conn.connected) (hs : conn.sends = []) (ha : conn.arrivals = whole (zeroRequest (n + 16)).bytes) :
    (handleConnection ∅ heap server conn).server.totalErrors = server.totalErrors + 1 := by
  have hparts : (zeroRequest (n + 16)).bytes =
      ((zeroRequest 0).parts ++ [ProtocolHeader.zero.toBytes, List.replicate n 0]).flatten := by
    rw [zeroRequest_bytes hn, Nat.add_comm, List.replicate_add, toBytes_zero]
    simp [Request.flatten_parts]
  have hl : [] ∉ [ProtocolHeader.zero.toBytes, List.replicate n 0] := by
    simp [toBytes_zero, Nat.ne_of_gt hpos]
  have hnil : [] ∉ (zeroRequest 0).parts ++ [ProtocolHeader.zero.toBytes, List.replicate n 0] := by
    rw [List.mem_append, not_or]
    exact ⟨Request.nil_notMem_parts _, hl⟩
  obtain ⟨rest, buffer, hrest, hfirst⟩ := Session.serve_request (s := { server, conn }) ∅ heap (zeroRequest 0)
    ⟨by decide, by decide⟩ hc hs (Nat.le_trans (by decide) hmax) hl
    (by simp only [ha, hparts]; exact .whole hnil)
  have hparts : WholeParts rest ([ProtocolHeader.zero.toBytes] ++ [List.replicate n 0]) := hrest
  obtain ⟨rest', hreads, -⟩ := hparts.reads hl
  have hsecond := Session.serve_header ∅ heap
    (s := Session.answered ∅ (zeroRequest 0) { server, conn } rest buffer) hc .zero hreads
  rw [Session.receive_invalid ∅ heap rfl] at hsecond
  rw [handleConnection_eq ((iterate_next hfirst 1).trans (iterate_last hsecond 0))]
  show server.totalErrors + 0 + 1 = server.totalErrors + 1
  rw [UInt64.add_zero]

/-- A payload of `2 ^ 32` bytes has length 0 in its header. -/
theorem zeroRequest_not_corresponds :
    let requests := [zeroRequest (2 ^ 32)]
    let server : RpcServer Unit := { config := { maxRequestSize := 2 ^ 33 }, world := () }
    let conn : Connection :=
      { fd := 3, state := .connected, arrivals := whole (requests.flatMap Request.bytes) }
    (∀ r ∈ requests, r.bytes.length ≤ server.config.maxRequestSize) ∧
      (∀ ro ∈ outcomes ∅ server.world requests, ∀ result, ro.2 = .returned result → result.length < 2 ^ 32) ∧
      ¬Corresponds ∅ server conn.writes requests (handleConnection ∅ (fun _ => 0) server conn) := by
  intro requests server conn
  refine ⟨?_, ?_, ?_⟩
  · intro r hr
    rw [List.mem_singleton.mp hr, Request.bytes, length_serialize]
    have hpayload : (zeroRequest (2 ^ 32)).message.payload.length = 2 ^ 32 := List.length_replicate
    have hmeta : (zeroRequest (2 ^ 32)).message.metaSize = 34 := rfl
    have hsize : ProtocolHeader.size = 16 := rfl
    rw [hpayload, hmeta, hsize]
    decide
  · intro ro hro result hr
    rw [List.mem_singleton.mp hro] at hr
    exact absurd hr nofun
  · intro hcorr
    have herrors := iterate_zeroRequest (n := 2 ^ 32 - 16) (by decide) (by decide) (fun _ => 0) server
      (by decide) conn rfl rfl (by simp [conn, requests])
    rw [hcorr.totalErrors] at herrors
    exact absurd herrors (by decide)

end CoroRpc.Rpc

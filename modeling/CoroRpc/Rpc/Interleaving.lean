import CoroRpc.Lib.Atomic
import CoroRpc.Rpc.Admission
import CoroRpc.Rpc.Chunking
import CoroRpc.Rpc.Correspondence
import CoroRpc.Rpc.RegistryHistory

namespace CoroRpc.Rpc

open Loop Memory Net Protocol Trace

variable {ι σ : Type}

/-- Where the coroutine of `handle_connection` is suspended, or about to call a handler. -/
inductive Suspension
  | header
  | body (header : ProtocolHeader)
  | handler (totalSize : Nat)
  | response (bytes : Bytes)
  | returned

namespace Session

variable (registry : ServiceRegistry σ) (heap : Mem)

def resume : Suspension → Session σ → Suspension × Session σ
  | .header, s =>
      if !s.conn.connected then (.returned, s)
      else
        let r := s.conn.asyncRead ProtocolHeader.size
        let s := { s with conn := r.2.2, buffer := store s.buffer 0 r.2.1 }
        if r.1 ≤ 0 then (.returned, s)
        else
          let header := ProtocolHeader.load (ofList s.buffer heap) 0
          if !header.valid then (.returned, s.countError)
          else if s.server.config.maxRequestSize < header.totalSize then (.returned, s.countError)
          else (.body header, { s with buffer := grow s.buffer header.totalSize })
  | .body header, s =>
      let remaining := header.totalSize - ProtocolHeader.size
      if 0 < remaining then
        let r := s.conn.asyncRead remaining
        let s := { s with conn := r.2.2, buffer := store s.buffer ProtocolHeader.size r.2.1 }
        if r.1 ≤ 0 then (.returned, s) else (.handler header.totalSize, s)
      else (.handler header.totalSize, s)
  | .handler totalSize, s =>
      let r := s.server.handleMessage registry (ofList s.buffer heap) totalSize
      let s := { s with server := r.2, handled := s.handled ++ [s.buffer.take totalSize] }
      if r.1 = [] then (.header, s) else (.response r.1, s)
  | .response bytes, s =>
      let w := s.conn.asyncWrite bytes
      let s := { s with conn := w.2 }
      if w.1 ≤ 0 then (.returned, s) else (.header, s)
  | .returned, s => (.returned, s)

def standing : Flow (Session σ) → Suspension × Session σ
  | .next s => (.header, s)
  | .stop s => (.returned, s)

def on (server : RpcServer σ) (s : Session σ) : Session σ := { s with server }

def afterHeader (header : ProtocolHeader) (s : Session σ) : Flow (Session σ) :=
  (s.readBody (header.totalSize - ProtocolHeader.size)).andThen (process registry heap header.totalSize)

variable {registry heap} {s t u : Session σ} {header : ProtocolHeader} {bytes : Bytes} {n : Nat}

theorem resume_header (registry : ServiceRegistry σ) (heap : Mem) (s : Session σ) :
    (∃ t, serve registry heap s = .stop t ∧ resume registry heap .header s = (.returned, t)) ∨
      ∃ header t, serve registry heap s = afterHeader registry heap header t ∧
        resume registry heap .header s = (.body header, t) := by
  by_cases hc : s.conn.connected
  · by_cases hn : (s.conn.asyncRead ProtocolHeader.size).1 ≤ 0
    · simp only [serve, resume, hc, hn, Bool.not_true, Bool.false_eq_true, if_false, if_true]
      exact .inl ⟨_, rfl, rfl⟩
    · simp only [serve, resume, hc, hn, Bool.not_true, Bool.false_eq_true, if_false, receive]
      split
      · exact .inl ⟨_, rfl, rfl⟩
      · split
        · exact .inl ⟨_, rfl, rfl⟩
        · exact .inr ⟨_, _, rfl, rfl⟩
  · exact .inl ⟨s, by simp [serve, hc], by simp [resume, hc]⟩

theorem serve_of_header (h : resume registry heap .header s = (.body header, t)) :
    serve registry heap s = afterHeader registry heap header t := by
  obtain ⟨u, -, hresume⟩ | ⟨header', u, hserve, hresume⟩ := resume_header registry heap s
  · cases h.symm.trans hresume
  · cases h.symm.trans hresume
    exact hserve

theorem resume_body (registry : ServiceRegistry σ) (heap : Mem) (header : ProtocolHeader)
    (s : Session σ) :
    (∃ t, afterHeader registry heap header s = .stop t ∧ resume registry heap (.body header) s = (.returned, t)) ∨
      ∃ t, afterHeader registry heap header s = process registry heap header.totalSize t ∧
        resume registry heap (.body header) s = (.handler header.totalSize, t) := by
  simp only [afterHeader, readBody, resume]
  split
  · split
    · exact .inl ⟨_, rfl, rfl⟩
    · exact .inr ⟨_, rfl, rfl⟩
  · exact .inr ⟨_, rfl, rfl⟩

/-- A round ends with the call of the handler but for its response. -/
theorem resume_handler (registry : ServiceRegistry σ) (heap : Mem) (s : Session σ) :
    resume registry heap (.handler n) s = standing (process registry heap n s) ∨
      ∃ bytes t, resume registry heap (.handler n) s = (.response bytes, t) ∧
        resume registry heap (.response bytes) t = standing (process registry heap n s) := by
  simp only [resume, process, respond]
  split
  · exact .inl rfl
  · refine .inr ⟨_, _, rfl, ?_⟩
    split <;> rfl

theorem resume_response (s : Session σ) (bytes : Bytes) :
    (resume registry heap (.response bytes) s).1 = .header ∨ (resume registry heap (.response bytes) s).1 = .returned := by
  simp only [resume]
  split
  · exact .inr rfl
  · exact .inl rfl

theorem standing_or (f : Flow (Session σ)) : (standing f).1 = .header ∨ (standing f).1 = .returned := by
  cases f with
  | next s => exact .inl rfl
  | stop s => exact .inr rfl

theorem resume_header_on (h : resume registry heap .header s = (.body header, t)) {server : RpcServer σ}
    (hconfig : server.config = s.server.config) :
    SameService s t ∧ resume registry heap .header (s.on server) = (.body header, t.on server) := by
  simp only [resume, on, hconfig] at h ⊢
  split at h
  · cases h
  · next hc =>
      split at h
      · cases h
      · next hn =>
          split at h
          · cases h
          · next hv =>
              split at h
              · cases h
              · next hmax =>
                  cases h
                  simp only [hc, hn, hv, hmax, if_false]
                  exact ⟨⟨rfl, rfl⟩, rfl⟩

theorem resume_body_on (h : resume registry heap (.body header) s = (.handler n, t)) (server : RpcServer σ) :
    SameService s t ∧ resume registry heap (.body header) (s.on server) = (.handler n, t.on server) := by
  simp only [resume, on] at h ⊢
  split at h
  · next hpos =>
      split at h
      · cases h
      · next hn =>
          cases h
          simp only [hpos, hn, if_true, if_false, and_true]
          exact ⟨rfl, rfl⟩
  · next hpos =>
      cases h
      simp only [hpos, if_false, and_true]
      exact ⟨rfl, rfl⟩

theorem resume_response_on (registry : ServiceRegistry σ) (heap : Mem) (s : Session σ) (bytes : Bytes)
    (server : RpcServer σ) :
    SameService s (resume registry heap (.response bytes) s).2 ∧
      resume registry heap (.response bytes) (s.on server) =
        ((resume registry heap (.response bytes) s).1, (resume registry heap (.response bytes) s).2.on server) := by
  simp only [resume, on]
  by_cases hn : (s.conn.asyncWrite bytes).1 ≤ 0
  · simp only [hn, if_true, and_true]
    exact ⟨rfl, rfl⟩
  · simp only [hn, if_false, and_true]
    exact ⟨rfl, rfl⟩

/-- A coroutine within a round, and where it stands in a run of whole rounds: before the round until its handler
is called, and after the round from then on. -/
inductive Ahead (registry : ServiceRegistry σ) (heap : Mem) :
    Suspension × Session σ → Suspension × Session σ → Prop
  | same {r : Suspension × Session σ} (h : r.1 = .header ∨ r.1 = .returned) : Ahead registry heap r r
  | body {s t : Session σ} {header : ProtocolHeader} (h : resume registry heap .header s = (.body header, t)) :
      Ahead registry heap (.header, s) (.body header, t)
  | handler {s t u : Session σ} {header : ProtocolHeader} {n : Nat}
      (hheader : resume registry heap .header s = (.body header, t))
      (hbody : resume registry heap (.body header) t = (.handler n, u)) :
      Ahead registry heap (.header, s) (.handler n, u)
  | response (t : Session σ) (bytes : Bytes) :
      Ahead registry heap (resume registry heap (.response bytes) t) (.response bytes, t)

namespace Ahead

variable {r r' : Suspension × Session σ}

theorem sameService (h : Ahead registry heap r r') : SameService r.2 r'.2 := by
  cases h with
  | same => exact ⟨rfl, rfl⟩
  | body h => exact (resume_header_on h rfl).1
  | @handler s t u header n hheader hbody =>
      have hs := (resume_header_on hheader rfl).1
      have ht := (resume_body_on hbody s.server).1
      exact ⟨ht.server.trans hs.server, ht.handled.trans hs.handled⟩
  | response t bytes =>
      have ht := (resume_response_on registry heap t bytes t.server).1
      exact ⟨ht.server.symm, ht.handled.symm⟩

theorem on (h : Ahead registry heap r r') {server : RpcServer σ} (hconfig : server.config = r.2.server.config) :
    Ahead registry heap (r.1, r.2.on server) (r'.1, r'.2.on server) := by
  cases h with
  | same h => exact .same h
  | body h => exact .body (resume_header_on h hconfig).2
  | handler hheader hbody => exact .handler (resume_header_on hheader hconfig).2 (resume_body_on hbody server).2
  | response t bytes =>
      rw [← (resume_response_on registry heap t bytes server).2]
      exact .response _ _

/-- A step of a coroutine goes along its round, or takes the round with it: where the loop is left, and where the
handler is called. -/
theorem step (h : Ahead registry heap r r') (hret : r'.1 ≠ .returned) :
    Ahead registry heap r (resume registry heap r'.1 r'.2) ∨
      r.1 = .header ∧ Ahead registry heap (standing (serve registry heap r.2)) (resume registry heap r'.1 r'.2) := by
  cases h with
  | same h =>
      obtain ⟨p, s⟩ := r
      obtain rfl | rfl := h
      · obtain ⟨t, hserve, hresume⟩ | ⟨header, t, -, hresume⟩ := resume_header registry heap s
        · right
          rw [hserve, hresume]
          exact ⟨rfl, .same (.inr rfl)⟩
        · left
          rw [hresume]
          exact .body hresume
      · exact absurd rfl hret
  | @body s t header hheader =>
      have hserve := serve_of_header hheader
      obtain ⟨u, hround, hresume⟩ | ⟨u, -, hresume⟩ := resume_body registry heap header t
      · right
        rw [hserve, hround, hresume]
        exact ⟨rfl, .same (.inr rfl)⟩
      · left
        rw [hresume]
        exact .handler hheader hresume
  | @handler s t u header n hheader hbody =>
      have hserve := serve_of_header hheader
      obtain ⟨v, -, hresume⟩ | ⟨v, hround, hresume⟩ := resume_body registry heap header t
      · cases hbody.symm.trans hresume
      · cases hbody.symm.trans hresume
        right
        rw [hserve, hround]
        obtain hstop | ⟨bytes, w, hcall, hrest⟩ := resume_handler registry heap
          (n := header.totalSize) u
        · rw [hstop]
          exact ⟨rfl, .same (standing_or _)⟩
        · rw [hcall, ← hrest]
          exact ⟨rfl, .response w bytes⟩
  | response t bytes => exact .inl (.same (resume_response t bytes))

theorem eq_of (h : Ahead registry heap r r') (hp : r'.1 = .header ∨ r'.1 = .returned) : r = r' := by
  cases h with
  | same => rfl
  | body => simp at hp
  | handler => simp at hp
  | response => simp at hp

end Ahead

end Session

/-- The result of the handler does not depend on the world, which other handlers change. -/
def WorldFree (handler : Bytes → σ → Except Unit Bytes × σ) : Prop :=
  ∀ payload world world', (handler payload world).1 = (handler payload world').1

namespace Session

variable {registry : ServiceRegistry σ} {heap : Mem} {s t : Session σ}

structure Alike (s t : Session σ) : Prop where
  config : s.server.config = t.server.config
  conn : s.conn = t.conn
  buffer : s.buffer = t.buffer
  handled : s.handled = t.handled

theorem handleMessage_worldFree (hfree : registry.Handlers WorldFree) (a b : RpcServer σ) (data : Mem) (size : Nat) :
    (a.handleMessage registry data size).1 = (b.handleMessage registry data size).1 := by
  simp only [RpcServer.handleMessage]
  split
  · rfl
  · split
    · simp only [RpcServer.dispatch]
      cases hfind : registry.findMethod _ _ with
      | none => rfl
      | some handler =>
          have hres := hfree _ _ handler hfind (deserialize data size .fresh).msg.payload a.world b.world
          simp only [RpcServer.countRequest]
          rcases ha : handler (deserialize data size .fresh).msg.payload a.world with ⟨res, world⟩
          rcases hb : handler (deserialize data size .fresh).msg.payload b.world with ⟨res', world'⟩
          rw [ha, hb] at hres
          subst hres
          cases res <;> rfl
    · split <;> rfl

theorem Alike.respond (h : Alike s t) (response : Bytes) :
    Flow.Rel Alike Alike (s.respond response) (t.respond response) := by
  simp only [Session.respond, h.conn]
  split
  · exact .next h
  · split
    · exact .stop ⟨h.config, rfl, h.buffer, h.handled⟩
    · exact .next ⟨h.config, rfl, h.buffer, h.handled⟩

theorem Alike.process (hfree : registry.Handlers WorldFree) (h : Alike s t) (n : Nat) :
    Flow.Rel Alike Alike (process registry heap n s) (process registry heap n t) := by
  have hmsg := handleMessage_worldFree hfree s.server t.server (ofList s.buffer heap) n
  have hconfig (u : RpcServer σ) := handleMessage_config registry u (ofList s.buffer heap) n
  simp only [Session.process, ← h.buffer, hmsg]
  apply Alike.respond
  refine ⟨?_, h.conn, rfl, congrArg (· ++ _) h.handled⟩
  rw [hconfig, hconfig, h.config]

theorem Alike.readBody (h : Alike s t) (remaining : Nat) :
    Flow.Rel Alike Alike (s.readBody remaining) (t.readBody remaining) := by
  simp only [Session.readBody, h.conn, h.buffer]
  split
  · split
    · exact .stop ⟨h.config, rfl, rfl, h.handled⟩
    · exact .next ⟨h.config, rfl, rfl, h.handled⟩
  · exact .next h

theorem Alike.receive (heap : Mem) (hfree : registry.Handlers WorldFree) (h : Alike s t) (header : ProtocolHeader) :
    Flow.Rel Alike Alike (receive registry heap header s) (receive registry heap header t) := by
  simp only [Session.receive, h.config]
  split
  · exact .stop ⟨h.config, h.conn, h.buffer, h.handled⟩
  · split
    · exact .stop ⟨h.config, h.conn, h.buffer, h.handled⟩
    · have hgrow : Alike { s with buffer := grow s.buffer header.totalSize }
          { t with buffer := grow t.buffer header.totalSize } := ⟨h.config, h.conn, by rw [h.buffer], h.handled⟩
      exact (hgrow.readBody _).andThen fun _ _ hread => hread.process hfree header.totalSize

theorem Alike.serve (hfree : registry.Handlers WorldFree) (h : Alike s t) :
    Flow.Rel Alike Alike (serve registry heap s) (serve registry heap t) := by
  have hread : Alike
      { s with
        conn := (s.conn.asyncRead ProtocolHeader.size).2.2
        buffer := store s.buffer 0 (s.conn.asyncRead ProtocolHeader.size).2.1 }
      { t with
        conn := (t.conn.asyncRead ProtocolHeader.size).2.2
        buffer := store t.buffer 0 (t.conn.asyncRead ProtocolHeader.size).2.1 } :=
    ⟨h.config, by rw [h.conn], by rw [h.conn, h.buffer], h.handled⟩
  have hreceive := hread.receive heap hfree
  simp only [Session.serve, h.conn, h.buffer] at hread hreceive ⊢
  split
  · exact .stop h
  · split
    · exact .stop hread
    · exact hreceive _

/-- A round hands on at most one more frame. -/
theorem serve_handled (registry : ServiceRegistry σ) (heap : Mem) (s : Session σ) :
    s.handled <+: (serve registry heap s).state.handled ∧
      (serve registry heap s).state.server.config = s.server.config := by
  cases hh : s.readHeader heap with
  | none =>
      obtain ⟨t, ht, hs, -⟩ := serve_of_readHeader_none registry heap hh
      rw [ht]
      exact ⟨hs.handled ▸ List.prefix_rfl, congrArg RpcServer.config hs.server⟩
  | some read =>
      obtain ⟨header, t⟩ := read
      obtain ⟨hserve, hs, -⟩ := readHeader_some registry heap hh
      rw [hserve, ← hs.handled, ← hs.server]
      by_cases hr : Refuses header t
      · rw [receive_refuses registry heap hr]
        exact ⟨List.prefix_rfl, rfl⟩
      · rw [Refuses, not_or, Bool.not_eq_false, Nat.not_lt] at hr
        rw [receive_accepts registry heap hr.1 hr.2]
        obtain ⟨hbody, -⟩ := readBody_state (s := { t with buffer := grow t.buffer header.totalSize })
          (grow_room t.buffer header)
        generalize readBody _ _ = f at hbody
        cases f with
        | stop u => exact ⟨hbody.handled ▸ List.prefix_rfl, congrArg RpcServer.config hbody.server⟩
        | next u =>
            have hrespond := (respond_state { u with
              server := (u.server.handleMessage registry (ofList u.buffer heap) header.totalSize).2
              handled := u.handled ++ [u.buffer.take header.totalSize] }
              (u.server.handleMessage registry (ofList u.buffer heap) header.totalSize).1).1
            have hhandled : u.handled = t.handled := hbody.handled
            have hserver : u.server = t.server := hbody.server
            simp only [Flow.andThen, process, hrespond.handled, hrespond.server]
            refine ⟨hhandled ▸ List.prefix_append _ _, ?_⟩
            rw [handleMessage_config, hserver]

theorem rounds_handled (registry : ServiceRegistry σ) (heap : Mem) (server : RpcServer σ)
    (conn : Connection) (n : Nat) :
    (iterate (serve registry heap) n (.next { server, conn })).state.handled <+:
      (handleConnection registry heap server conn).handled := by
  have hgrows (m : Nat) (f : Flow (Session σ)) : f.state.handled <+: (iterate (serve registry heap) m f).state.handled :=
    iterate_inv (fun s : Session σ => f.state.handled <+: s.handled) (fun s hs => hs.trans (serve_handled registry heap s).1) m f
      List.prefix_rfl
  have hstops := handleConnection_stops registry heap server conn
  obtain hle | hle := Nat.le_total n (conn.pending + 1)
  · obtain ⟨k, hk⟩ := Nat.exists_eq_add_of_le hle
    rw [hk, iterate_add] at hstops
    have hrest := hgrows k (iterate (serve registry heap) n (.next { server, conn }))
    rwa [hstops] at hrest
  · rw [iterate_mono hstops hle]
    exact List.prefix_rfl

end Session

structure Fiber where
  suspension : Suspension := .header
  conn : Connection
  buffer : Bytes := List.replicate 4096 0
  handled : List Bytes := []

structure ServerRun (ι σ : Type) where
  server : RpcServer σ
  fiber : ι → Fiber

namespace ServerRun

variable [DecidableEq ι]

def start (server : RpcServer σ) (conn : ι → Connection) : ServerRun ι σ where
  server
  fiber i := { conn := conn i }

def session (s : ServerRun ι σ) (i : ι) : Session σ :=
  { server := s.server, conn := (s.fiber i).conn, buffer := (s.fiber i).buffer, handled := (s.fiber i).handled }

def standing (s : ServerRun ι σ) (i : ι) : Suspension × Session σ := ((s.fiber i).suspension, s.session i)

def put (s : ServerRun ι σ) (i : ι) (r : Suspension × Session σ) : ServerRun ι σ where
  server := r.2.server
  fiber := Function.update s.fiber i
    { suspension := r.1, conn := r.2.conn, buffer := r.2.buffer, handled := r.2.handled }

variable (registry : ServiceRegistry σ) (heap : ι → Mem)

def step (s : ServerRun ι σ) (i : ι) : Option (ServerRun ι σ) :=
  match (s.fiber i).suspension with
  | .returned => none
  | p => some (s.put i (Session.resume registry (heap i) p (s.session i)))

def round (s : ServerRun ι σ) (i : ι) : Option (ServerRun ι σ) :=
  match (s.fiber i).suspension with
  | .header => some (s.put i (Session.standing (Session.serve registry (heap i) (s.session i))))
  | _ => none

variable {registry heap} {s s' c : ServerRun ι σ} {i j : ι}

theorem standing_put (s : ServerRun ι σ) (i : ι) (r : Suspension × Session σ) : (s.put i r).standing i = r := by
  simp [standing, session, put]

theorem standing_put_ne (s : ServerRun ι σ) (r : Suspension × Session σ) (h : j ≠ i) :
    (s.put i r).standing j = ((s.standing j).1, (s.standing j).2.on r.2.server) := by
  simp [standing, session, put, Session.on, h]

theorem step_some (h : step registry heap s i = some s') :
    (s.standing i).1 ≠ .returned ∧
      s' = s.put i (Session.resume registry (heap i) (s.standing i).1 (s.standing i).2) := by
  rw [step] at h
  split at h
  · cases h
  · next hret =>
      cases h
      exact ⟨hret, rfl⟩

theorem round_of_header (h : (s.standing i).1 = .header) :
    round registry heap s i = some (s.put i (Session.standing (Session.serve registry (heap i) (s.standing i).2))) := by
  rw [round, show (s.fiber i).suspension = .header from h]
  rfl

structure Rounds (registry : ServiceRegistry σ) (heap : ι → Mem) (config : RpcServerConfig)
    (s c : ServerRun ι σ) : Prop where
  server : s.server = c.server
  config : c.server.config = config
  ahead : ∀ i, Session.Ahead registry (heap i) (c.standing i) (s.standing i)

variable {config : RpcServerConfig}

theorem resume_config (p : Suspension) (s : Session σ) (heap : Mem) :
    (Session.resume registry heap p s).2.server.config = s.server.config := by
  cases p with
  | header =>
      simp only [Session.resume]
      split
      · rfl
      · split
        · rfl
        · split
          · rfl
          · split <;> rfl
  | body header =>
      simp only [Session.resume]
      split
      · split <;> rfl
      · rfl
  | handler n =>
      have hconfig := Session.handleMessage_config registry s.server (ofList s.buffer heap) n
      simp only [Session.resume]
      split
      · exact hconfig
      · exact hconfig
  | response bytes =>
      simp only [Session.resume]
      split <;> rfl
  | returned => rfl

theorem Rounds.put (h : Rounds registry heap config s c) {r r' : Suspension × Session σ}
    (hr : Session.Ahead registry (heap i) r r') (hconfig : r.2.server.config = config) :
    Rounds registry heap config (s.put i r') (c.put i r) := by
  refine ⟨hr.sameService.server, hconfig, fun j => ?_⟩
  by_cases hj : j = i
  · subst hj
    rw [standing_put, standing_put]
    exact hr
  · rw [standing_put_ne c r hj, standing_put_ne s r' hj, hr.sameService.server]
    exact (h.ahead j).on (hconfig.trans h.config.symm)

theorem put_standing (s : ServerRun ι σ) (i : ι) : s.put i (s.standing i) = s := by
  simp [put, standing, session]

theorem Rounds.step (h : Rounds registry heap config s c) (hs : step registry heap s i = some s') :
    Rounds registry heap config s' c ∨
      ∃ c', round registry heap c i = some c' ∧ Rounds registry heap config s' c' := by
  obtain ⟨hret, rfl⟩ := step_some hs
  have hconfig := h.config
  obtain hahead | ⟨hheader, hahead⟩ := (h.ahead i).step hret
  · left
    have hput := h.put hahead hconfig
    rwa [put_standing] at hput
  · right
    refine ⟨_, round_of_header hheader, h.put hahead ?_⟩
    rw [← hahead.sameService.server, resume_config, ← hconfig, ← h.server]
    rfl

omit [DecidableEq ι] in
theorem rounds_start (server : RpcServer σ) (conn : ι → Connection) :
    Rounds registry heap server.config (start server conn) (start server conn) :=
  ⟨rfl, rfl, fun _ => .same (.inl rfl)⟩

omit [DecidableEq ι] in
theorem fiber_eq (h : c.standing i = s.standing i) : c.fiber i = s.fiber i := by
  simp only [standing, session, Prod.mk.injEq, Session.mk.injEq] at h
  obtain ⟨hp, -, hconn, hbuffer, hhandled⟩ := h
  cases hc : c.fiber i
  cases hs : s.fiber i
  simp_all

theorem run_rounds (server : RpcServer σ) (conn : ι → Connection) {schedule : List ι}
    (h : run (step registry heap) (start server conn) schedule = some s') :
    ∃ order c, List.Sublist order schedule ∧ run (round registry heap) (start server conn) order = some c ∧
      Rounds registry heap server.config s' c := by
  have hstep (s c : ServerRun ι σ) (i : ι) (s' : ServerRun ι σ) (hR : Rounds registry heap server.config s c)
      (hs : step registry heap s i = some s') :
      Rounds registry heap server.config s' c ∨
        ∃ c', round registry heap c i = some c' ∧ Rounds registry heap server.config s' c' := hR.step hs
  exact Atomic.run_thinned hstep (rounds_start server conn) h

/-- However the coroutines of the connections interleave at their suspensions, the server comes to the state it
has when they run whole rounds of their loops in some order, and so do the frames handled for each connection;
a coroutine that has returned or waits for a header stands where that run leaves it. -/
theorem interleaving_is_rounds (server : RpcServer σ) (conn : ι → Connection) {schedule : List ι}
    (h : run (step registry heap) (start server conn) schedule = some s') :
    ∃ order c, List.Sublist order schedule ∧ run (round registry heap) (start server conn) order = some c ∧
      c.server = s'.server ∧ ∀ i, (c.fiber i).handled = (s'.fiber i).handled ∧
        ((s'.fiber i).suspension = .header ∨ (s'.fiber i).suspension = .returned → c.fiber i = s'.fiber i) := by
  obtain ⟨order, c, hsub, hc, hrounds⟩ := run_rounds server conn h
  refine ⟨order, c, hsub, hc, hrounds.server.symm, fun i => ⟨(hrounds.ahead i).sameService.handled.symm, ?_⟩⟩
  intro hp
  exact fiber_eq ((hrounds.ahead i).eq_of hp)

def sampleConnections (i : Bool) : Connection :=
  sampleConnection (if i then whole (sampleRequests.flatMap Request.bytes) else [.data (List.replicate 16 7)])

def sampleSchedule : List Bool := [true, false, true, true, true, true, true, true]

theorem interleaving_is_rounds_hostile :
    ∃ s', run (step sampleRegistry fun _ _ => 0) (start { world := 0 } sampleConnections) sampleSchedule = some s' ∧
      ∃ order c, List.Sublist order sampleSchedule ∧
        run (round sampleRegistry fun _ _ => 0) (start { world := 0 } sampleConnections) order = some c ∧
        c.server = s'.server ∧ ∀ i, (c.fiber i).handled = (s'.fiber i).handled ∧
          ((s'.fiber i).suspension = .header ∨ (s'.fiber i).suspension = .returned → c.fiber i = s'.fiber i) := by
  obtain ⟨s', hs'⟩ := Option.isSome_iff_exists.mp
    (by decide +kernel : (run (step sampleRegistry fun _ _ => 0) (start { world := 0 } sampleConnections)
      sampleSchedule).isSome = true)
  exact ⟨s', hs', interleaving_is_rounds { world := 0 } sampleConnections hs'⟩

def Alone (registry : ServiceRegistry σ) (heap : ι → Mem) (server : RpcServer σ) (conn : ι → Connection)
    (c : ServerRun ι σ) : Prop :=
  c.server.config = server.config ∧ ∀ i, ∃ n,
    let r := Session.standing (iterate (Session.serve registry (heap i)) n (.next { server, conn := conn i }))
    (c.standing i).1 = r.1 ∧ Session.Alike (c.standing i).2 r.2

theorem Alone.round (hfree : registry.Handlers WorldFree) {server : RpcServer σ} {conn : ι → Connection}
    (h : Alone registry heap server conn c) (hs : round registry heap c i = some s') :
    Alone registry heap server conn s' := by
  have hheader : (c.standing i).1 = .header := by
    rw [ServerRun.round] at hs
    split at hs
    · next hp => exact hp
    · cases hs
  rw [round_of_header hheader] at hs
  cases hs
  obtain ⟨hconfig, hall⟩ := h
  obtain ⟨n, hp, halike⟩ := hall i
  have hserve := (Session.serve_handled registry (heap i) (c.standing i).2).2
  rw [hheader] at hp
  generalize hf : iterate (Session.serve registry (heap i)) n (.next { server, conn := conn i }) = f at hp halike
  cases f with
  | stop t => cases hp
  | next t =>
      have hrel : Flow.Rel Session.Alike Session.Alike (Session.serve registry (heap i) (c.standing i).2)
          (Session.serve registry (heap i) t) := halike.serve hfree
      have hsucc : iterate (Session.serve registry (heap i)) (n + 1) (.next { server, conn := conn i }) =
          Session.serve registry (heap i) t := by
        rw [iterate_add, hf]
        rfl
      generalize Session.serve registry (heap i) (c.standing i).2 = g at hserve hrel
      have hput : (Session.standing g).2.server.config = server.config := by
        cases g <;> exact hserve.trans hconfig
      refine ⟨hput, fun j => ?_⟩
      by_cases hj : j = i
      · subst hj
        refine ⟨n + 1, ?_⟩
        rw [standing_put, hsucc]
        generalize Session.serve registry (heap j) t = g' at hrel
        cases hrel with
        | next hnext => exact ⟨rfl, hnext⟩
        | stop hstop => exact ⟨rfl, hstop⟩
      · obtain ⟨m, hp', halike'⟩ := hall j
        refine ⟨m, ?_⟩
        rw [standing_put_ne c _ hj]
        exact ⟨hp', hput.trans (hconfig.symm.trans halike'.config), halike'.conn, halike'.buffer, halike'.handled⟩

/-- Where no handler's result depends on the world, what a connection sees does not depend on the others: whatever
bytes they send and however the coroutines interleave, its frames are those that its own loop handles, and when its
coroutine has returned everything that was written to it is what that loop writes. -/
theorem connections_isolated (hfree : registry.Handlers WorldFree) (server : RpcServer σ) (conn : ι → Connection)
    {schedule : List ι} (h : run (step registry heap) (start server conn) schedule = some s') (i : ι) :
    let own := handleConnection registry (heap i) server (conn i)
    (s'.fiber i).handled <+: own.handled ∧
      ((s'.fiber i).suspension = .returned → (s'.fiber i).handled = own.handled ∧ (s'.fiber i).conn = own.conn) := by
  intro own
  obtain ⟨order, c, -, hc, hrounds⟩ := run_rounds server conn h
  have halone : Alone registry heap server conn c :=
    run_inv (fun _ _ _ hA hs => Alone.round hfree hA hs) ⟨rfl, fun i => ⟨0, rfl, rfl, rfl, rfl, rfl⟩⟩ hc
  obtain ⟨n, hp, halike⟩ := halone.2 i
  have hhandled : (s'.fiber i).handled = (c.standing i).2.handled := (hrounds.ahead i).sameService.handled
  rw [hhandled, halike.handled]
  have hstart := Session.rounds_handled registry (heap i) server (conn i) n
  generalize hf : iterate (Session.serve registry (heap i)) n (.next { server, conn := conn i }) = f at hp halike hstart
  cases f with
  | next t =>
      refine ⟨hstart, fun hret => ?_⟩
      rw [(hrounds.ahead i).eq_of (.inr hret)] at hp
      cases hret.symm.trans hp
  | stop t =>
      have hown : own = t := handleConnection_eq hf
      refine ⟨hstart, fun hret => ⟨by rw [hown]; rfl, ?_⟩⟩
      rw [hown, ← show (c.fiber i).conn = t.conn from halike.conn,
        fiber_eq ((hrounds.ahead i).eq_of (.inr hret))]

theorem worldFree_sampleRegistry : sampleRegistry.Handlers WorldFree := by
  have hecho : (ServiceRegistry.apply ∅
      (.registerMethod [65] [66] (fun payload calls => (.ok payload, calls + 1)) []) : ServiceRegistry Nat).Handlers
        WorldFree := ServiceRegistry.handlers_empty.apply (by exact fun _ _ _ => rfl)
  have hfail : RegistryCall.Handler WorldFree
      (.registerMethod [65] [67] (fun _ calls => (.error (), calls)) [] : RegistryCall Nat) := fun _ _ _ => rfl
  exact hecho.apply hfail

theorem connections_isolated_hostile :
    ∃ s', run (step sampleRegistry fun _ _ => 0) (start { world := 0 } sampleConnections) sampleSchedule = some s' ∧
      let own := handleConnection sampleRegistry (fun _ => 0) { world := 0 } (sampleConnections true)
      (s'.fiber true).handled <+: own.handled ∧
        ((s'.fiber true).suspension = .returned →
          (s'.fiber true).handled = own.handled ∧ (s'.fiber true).conn = own.conn) := by
  obtain ⟨s', hs'⟩ := Option.isSome_iff_exists.mp
    (by decide +kernel : (run (step sampleRegistry fun _ _ => 0) (start { world := 0 } sampleConnections)
      sampleSchedule).isSome = true)
  exact ⟨s', hs', connections_isolated worldFree_sampleRegistry { world := 0 } sampleConnections hs' true⟩

end ServerRun

end CoroRpc.Rpc

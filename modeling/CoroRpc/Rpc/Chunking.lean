import CoroRpc.Rpc.RpcClient
import CoroRpc.Rpc.ShortReads

namespace CoroRpc.Rpc

open Loop Memory Net Protocol Serializer

variable {σ : Type}

def arriving (conn : Connection) (arrivals : List Arrival) : Connection := { conn with arrivals }

theorem asyncWrite_arriving (conn : Connection) (arrivals : List Arrival) (buffer : Bytes) :
    (arriving conn arrivals).asyncWrite buffer =
      ((conn.asyncWrite buffer).1, arriving (conn.asyncWrite buffer).2 arrivals) := by
  unfold Connection.asyncWrite
  by_cases hc : conn.connected
  · have hc' : (arriving conn arrivals).connected := hc
    simp only [hc, hc', Bool.not_true, Bool.false_eq_true, if_false]
    by_cases hn : (send buffer.length conn.sends).1 ≤ 0
    · have hstate : conn.state = .connected := by simpa [Connection.connected] using hc
      simp [hn, arriving, Connection.handleError, Connection.close, hstate]
    · simp [hn, arriving]
  · have hc' : ¬(arriving conn arrivals).connected := hc
    simp [hc, hc']

namespace Session

def arriving (s : Session σ) (arrivals : List Arrival) : Session σ :=
  { s with conn := Rpc.arriving s.conn arrivals }

theorem respond_arriving (s : Session σ) (arrivals : List Arrival) (response : Bytes) :
    (s.arriving arrivals).respond response = (s.respond response).map (arriving · arrivals) := by
  unfold respond
  split
  · rfl
  · simp only [arriving, asyncWrite_arriving]
    split <;> rfl

variable (registry : ServiceRegistry σ) (heap : Mem)

theorem process_arriving (s : Session σ) (arrivals : List Arrival) (totalSize : Nat) :
    process registry heap totalSize (s.arriving arrivals) =
      (process registry heap totalSize s).map (arriving · arrivals) := by
  unfold process
  rw [← respond_arriving]
  rfl

/-- The parts of a frame that the server asks for. -/
def asked (limit : Nat) (f : Frame) : List Bytes :=
  if f.bytes.length ≤ limit then f.parts else [f.header.toBytes]

-- the round with this number gets whole what it asks for
def RoundWhole (frames : List Frame) (s : Session σ) (n : Nat) : Prop :=
  ∀ t f, iterate (serve registry heap) n (.next s) = .next t → t.conn.connected → frames[n]? = some f →
    ∃ rest, Reads t.conn.arrivals (asked t.server.config.maxRequestSize f) rest

-- where the first round that does not get it whole hands a frame over, what it lacks stood in the buffer
def FirstFills (frames : List Frame) (s : Session σ) : Prop :=
  ∀ n t f, (∀ m < n, RoundWhole registry heap frames s m) →
    iterate (serve registry heap) n (.next s) = .next t → t.conn.connected → frames[n]? = some f →
    f.bytes.length ≤ t.server.config.maxRequestSize →
    Fills (grow t.buffer f.bytes.length) 0 t.conn.arrivals f.parts

-- the same frames are still to come, however they are cut in `a`
structure InStep (frames : List Frame) (a b : List Arrival) : Prop where
  cut : Carries a (frames.flatMap Frame.bytes)
  uncut : WholeParts b (frames.flatMap Frame.parts)

def SameButArrivals (s t : Session σ) : Prop := ∃ arrivals, t = s.arriving arrivals

theorem RoundWhole.succ {frames : List Frame} {f : Frame} {s t : Session σ} {n : Nat}
    (h : RoundWhole registry heap (f :: frames) s (n + 1)) (hs : serve registry heap s = .next t) :
    RoundWhole registry heap frames t n := by
  intro u g hu hc hg
  exact h u g ((iterate_next hs n).trans hu) hc (List.getElem?_cons_succ.trans hg)

theorem serve_inStep {frames : List Frame} {s : Session σ} {a b : List Arrival} (h : InStep frames a b)
    (hwhole : RoundWhole registry heap frames (s.arriving a) 0) :
    (∃ (f : Frame) (later : List Frame) (u : Session σ) (a' b' : List Arrival),
      frames = f :: later ∧ InStep later a' b' ∧
      serve registry heap (s.arriving a) = .next (u.arriving a') ∧
      serve registry heap (s.arriving b) = .next (u.arriving b')) ∨
    ∃ (u : Session σ) (a' b' : List Arrival), serve registry heap (s.arriving a) = .stop (u.arriving a') ∧
      serve registry heap (s.arriving b) = .stop (u.arriving b') := by
  by_cases hc : s.conn.connected
  · cases frames with
    | nil =>
        have hstop := serve_eof registry heap (s := s.arriving []) hc rfl
        rw [h.cut.eq_nil, h.uncut.eq_nil]
        let u : Session σ := { s.arriving [] with conn := (s.arriving []).conn.close }
        exact .inr ⟨u, u.conn.arrivals, u.conn.arrivals, hstop, hstop⟩
    | cons f later =>
        obtain ⟨ra, hra⟩ := hwhole (s.arriving a) f rfl hc rfl
        have hb := h.uncut
        rw [List.flatMap_cons] at hb
        obtain ⟨rb, hrb, hlater⟩ :=
          hb.reads (List.not_mem_append f.nil_notMem_parts (nil_notMem_flatMap_parts later))
        rw [asked] at hra
        split at hra
        · next hmax =>
            have hcut := h.cut
            rw [List.flatMap_cons, ← f.flatten_parts] at hcut
            have hpa := process_arriving registry heap { s with buffer := f.fill s.buffer } ra f.bytes.length
            have hpb := process_arriving registry heap { s with buffer := f.fill s.buffer } rb f.bytes.length
            have hsa := (serve_frame registry heap (s := s.arriving a) hc f hmax hra).trans hpa
            have hsb := (serve_frame registry heap (s := s.arriving b) hc f hmax hrb).trans hpb
            rw [hsa, hsb]
            cases process registry heap f.bytes.length { s with buffer := f.fill s.buffer } with
            | next u =>
                have hlater' : InStep later ra rb := ⟨hcut.of_reads f.nil_notMem_parts hra, hlater⟩
                exact .inl ⟨f, later, u, ra, rb, rfl, hlater', rfl, rfl⟩
            | stop u => exact .inr ⟨u, ra, rb, rfl, rfl⟩
        · next hmax =>
            obtain ⟨rb', hheader, -⟩ := reads_append [f.header.toBytes] hrb
            have hlt := Nat.not_le.mp hmax
            let u := (s.advance [] (store s.buffer 0 f.header.toBytes)).countError
            exact .inr ⟨u, ra, rb', serve_oversized registry heap (s := s.arriving a) hc f hlt hra,
              serve_oversized registry heap (s := s.arriving b) hc f hlt hheader⟩
  · have hstop (arrivals : List Arrival) :
        serve registry heap (s.arriving arrivals) = .stop (s.arriving arrivals) := by
      have hc' : (s.arriving arrivals).conn.connected = false := Bool.eq_false_of_not_eq_true hc
      simp [serve, hc']
    exact .inr ⟨s, a, b, hstop a, hstop b⟩

inductive Lockstep : Session σ → Session σ → Prop
  | mk (s : Session σ) {a b : List Arrival} (frames : List Frame) (h : InStep frames a b)
      (hwhole : ∀ n, RoundWhole registry heap frames (s.arriving a) n) : Lockstep (s.arriving a) (s.arriving b)

theorem serve_lockstep (s t : Session σ) (h : Lockstep registry heap s t) :
    Flow.Rel (Lockstep registry heap) SameButArrivals (serve registry heap s) (serve registry heap t) := by
  obtain ⟨s, frames, hstep, hwhole⟩ := h
  rcases serve_inStep registry heap hstep (hwhole 0) with
    ⟨f, later, u, a, b, rfl, hlater, ha, hb⟩ | ⟨u, a, b, ha, hb⟩
  · rw [ha, hb]
    exact .next (.mk u later hlater fun n => (hwhole (n + 1)).succ registry heap ha)
  · rw [ha, hb]
    exact .stop ⟨b, rfl⟩

/-- As long as the rounds get whole what they ask for the two are in step. -/
theorem rounds_inStep (n : Nat) {frames : List Frame} {s t : Session σ} {a b : List Arrival} (h : InStep frames a b)
    (hwhole : ∀ m < n, RoundWhole registry heap frames (s.arriving a) m)
    (ht : iterate (serve registry heap) n (.next (s.arriving a)) = .next t) :
    ∃ (u : Session σ) (a' b' : List Arrival), t = u.arriving a' ∧
      iterate (serve registry heap) n (.next (s.arriving b)) = .next (u.arriving b') ∧
      InStep (frames.drop n) a' b' := by
  induction n generalizing frames s a b with
  | zero =>
      cases ht
      exact ⟨s, a, b, rfl, rfl, h⟩
  | succ n ih =>
      rcases serve_inStep registry heap h (hwhole 0 (Nat.succ_pos n)) with
        ⟨f, later, u, a', b', rfl, hlater, ha, hb⟩ | ⟨u, a', b', ha, -⟩
      · rw [iterate_next ha] at ht
        rw [iterate_next hb]
        exact ih hlater (fun m hm => (hwhole (m + 1) (Nat.succ_lt_succ hm)).succ registry heap ha) ht
      · rw [iterate_last ha] at ht
        cases ht

theorem process_handled (s : Session σ) (totalSize : Nat) :
    (process registry heap totalSize s).state.handled = s.handled ++ [s.buffer.take totalSize] :=
  (respond_state _ _).1.handled

theorem handled_serve {limit : Nat} {s : Session σ} (h : Bounded limit s) :
    s.handled <+: (serve registry heap s).state.handled := by
  cases hc : s.call heap with
  | none =>
      obtain ⟨t, ht, hhandled⟩ := serve_of_call_none registry heap hc
      rw [ht]
      exact hhandled ▸ List.prefix_rfl
  | some called =>
      obtain ⟨hserve, hs, -⟩ := call_admitted registry heap h hc
      rw [hserve, process_handled, hs.handled]
      exact List.prefix_append _ _

theorem handled_iterate {limit : Nat} {s : Session σ} (h : Bounded limit s) (n : Nat) :
    s.handled <+: (iterate (serve registry heap) n (.next s)).state.handled := by
  have hstep : ∀ t, Bounded limit t ∧ s.handled <+: t.handled →
      Bounded limit (serve registry heap t).state ∧ s.handled <+: (serve registry heap t).state.handled :=
    fun t ht => ⟨ht.1.serve registry heap, ht.2.trans (handled_serve registry heap ht.1)⟩
  exact (iterate_inv _ hstep n (.next s) ⟨h, List.prefix_rfl⟩).2

/-- What a loop that hands a frame over has handed over when it ends. -/
theorem handled_of_process {limit : Nat} {s t : Session σ} {totalSize : Nat} (h : Bounded limit s)
    (hs : serve registry heap s = process registry heap totalSize t) {n : Nat} {e : Session σ}
    (he : iterate (serve registry heap) n (.next s) = .stop e) :
    t.handled ++ [t.buffer.take totalSize] <+: e.handled := by
  cases n with
  | zero => cases he
  | succ n =>
      rw [iterate_succ] at he
      have hround := process_handled registry heap t totalSize
      have hbound := h.serve registry heap
      rw [← hs] at hround
      cases hu : serve registry heap s with
      | next u =>
          rw [hu] at hround hbound he
          have hprefix := handled_iterate registry heap (s := u) hbound n
          rw [he] at hprefix
          rw [← hround]
          exact hprefix
      | stop u =>
          rw [hu, iterate_stop] at he
          cases he
          rw [hu] at hround
          exact hround ▸ List.prefix_rfl

end Session

theorem wholeParts_frames (frames : List Frame) :
    WholeParts (whole (frames.flatMap Frame.bytes)) (frames.flatMap Frame.parts) := by
  rw [← flatten_flatMap_parts]
  exact .whole (nil_notMem_flatMap_parts frames)

section Server

variable (registry : ServiceRegistry σ) (heap : Mem) (server : RpcServer σ) (conn : Connection) {frames : List Frame}
  {arrivals : List Arrival}

theorem handleConnection_whole (h : Carries arrivals (frames.flatMap Frame.bytes))
    (hwhole : ∀ n, Session.RoundWhole registry heap frames { server, conn := arriving conn arrivals } n) :
    (handleConnection registry heap server (arriving conn arrivals)).handled =
      (handleConnection registry heap server (arriving conn (whole (frames.flatMap Frame.bytes)))).handled := by
  obtain ⟨_, he⟩ := stop_rel (Session.serve_lockstep registry heap)
    (.mk { server, conn } frames ⟨h, wholeParts_frames frames⟩ hwhole)
    (handleConnection_stops registry heap server _) (handleConnection_stops registry heap server _)
  rw [he]
  rfl

/-- What is left of a loop after some rounds. -/
theorem handleConnection_rest {n : Nat} {t : Session σ}
    (ht : iterate (Session.serve registry heap) n (.next { server, conn }) = .next t) :
    iterate (Session.serve registry heap) (conn.pending + 1) (.next t) =
      .stop (handleConnection registry heap server conn) := by
  have hstop := iterate_mono (handleConnection_stops registry heap server conn) (Nat.le_add_left _ n)
  rwa [iterate_add, ht] at hstop

theorem handleConnection_fills (h : Carries arrivals (frames.flatMap Frame.bytes))
    (hsame : (handleConnection registry heap server (arriving conn arrivals)).handled =
      (handleConnection registry heap server (arriving conn (whole (frames.flatMap Frame.bytes)))).handled) :
    Session.FirstFills registry heap frames { server, conn := arriving conn arrivals } := by
  intro n t f hwhole ht hc hf hmax
  have hbound : Session.Bounded server.config.maxRequestSize t := by
    have hstart : Session.Bounded server.config.maxRequestSize { server, conn := arriving conn arrivals } :=
      ⟨rfl, (List.length_replicate ..).ge, (List.length_replicate ..).le.trans (Nat.le_max_left _ _)⟩
    have hstep : ∀ s : Session σ, s.Bounded server.config.maxRequestSize →
        (Session.serve registry heap s).state.Bounded server.config.maxRequestSize :=
      fun _ h => h.serve registry heap
    have hinv := iterate_inv _ hstep n (.next _) hstart
    rwa [ht] at hinv
  obtain ⟨u, a, b, rfl, hb, hstep⟩ := Session.rounds_inStep registry heap n (s := { server, conn })
    ⟨h, wholeParts_frames frames⟩ hwhole ht
  obtain ⟨hlt, hget⟩ := List.getElem?_eq_some_iff.mp hf
  rw [List.drop_eq_getElem_cons hlt, hget] at hstep
  -- with whole reads the frame is handed over
  have huncut := hstep.uncut
  rw [List.flatMap_cons] at huncut
  obtain ⟨rb, hrb, -⟩ := huncut.reads (List.not_mem_append f.nil_notMem_parts (nil_notMem_flatMap_parts _))
  have hserve := Session.serve_frame registry heap (s := u.arriving b) hc f hmax hrb
  have hideal := Session.handled_of_process registry heap (s := u.arriving b)
    ⟨hbound.config, hbound.lower, hbound.upper⟩ hserve (handleConnection_rest registry heap server _ hb)
  have hframe : u.handled ++ [f.bytes] <+:
      (handleConnection registry heap server (arriving conn arrivals)).handled := by
    rw [hsame, ← f.take_fill u.buffer]
    exact hideal
  have hrest := handleConnection_rest registry heap server _ ht
  cases hcall : (u.arriving a).call heap with
  | none =>
      obtain ⟨v, hv, hhandled⟩ := Session.serve_of_call_none registry heap hcall
      rw [iterate_last hv] at hrest
      cases hrest
      rw [hhandled] at hframe
      exact absurd hframe.length_le (by simp [Session.arriving])
  | some called =>
      obtain ⟨header, w⟩ := called
      obtain ⟨hserve', hs, -⟩ := Session.call_admitted registry heap hbound hcall
      have hactual := Session.handled_of_process registry heap hbound hserve' hrest
      rw [hs.handled, Session.call_assembled hcall] at hactual
      have heq := List.prefix_of_prefix_length_le hactual hframe (by simp [Session.arriving])
      have hassembled := List.singleton_inj.mp ((List.prefix_append_right_inj _).mp heq |>.eq_of_length rfl)
      have hroom : ProtocolHeader.size ≤ u.buffer.length := le_trans (by decide) hbound.lower
      exact fills_of_assembled hroom hstep.cut hassembled

end Server


section Transport

open ConnectionPool

def poolArriving (p : ConnectionPool) (arrivals : List Arrival) : ConnectionPool :=
  if p.idle.any Connection.connected then { p with idle := go p.idle }
  else { p with sockets := p.sockets.modifyHead fun s => { s with arrivals } }
where
  go : List Connection → List Connection
    | [] => []
    | conn :: idle => if conn.connected then arriving conn arrivals :: idle else conn :: go idle

theorem takeIdle_arriving (arrivals : List Arrival) (idle : List Connection) (total : UInt64) :
    takeIdle (poolArriving.go arrivals idle) total =
      ((takeIdle idle total).1.map (arriving · arrivals), (takeIdle idle total).2) := by
  induction idle generalizing total with
  | nil => rfl
  | cons conn idle ih =>
      by_cases hc : conn.connected
      · have hc' : (arriving conn arrivals).connected := hc
        simp [poolArriving.go, takeIdle, hc, hc']
      · simp only [poolArriving.go, takeIdle, hc, if_false, Bool.false_eq_true]
        exact ih (total - 1)

theorem acquire_arriving (p : ConnectionPool) (arrivals : List Arrival) :
    (poolArriving p arrivals).acquire = p.acquire.map fun r => (r.1.map (arriving · arrivals), r.2) := by
  have hsome := isSome_takeIdle p.idle p.totalConnections
  have htake := takeIdle_arriving arrivals p.idle p.totalConnections
  obtain ⟨taken, rest, hidle⟩ : ∃ taken rest, takeIdle p.idle p.totalConnections = (taken, rest) := ⟨_, _, rfl⟩
  rw [hidle] at hsome htake
  cases taken with
  | some conn =>
      simp only [acquire, poolArriving, ← hsome, Option.isSome_some, if_true, htake, hidle, Option.map_some]
      rfl
  | none =>
      simp only [acquire, poolArriving, ← hsome, Option.isSome_none, Bool.false_eq_true, if_false, hidle,
        createConnection]
      by_cases hroom : rest.2.toNat < p.config.maxConnections
      · cases p.sockets with
        | nil => simp [hroom, Except.map]
        | cons s sockets => by_cases hfd : s.fd < 0 <;> simp [hroom, hfd, Except.map, arriving]
      · simp [hroom, Except.map]

def tcpArriving (t : TcpClient) (arrivals : List Arrival) : TcpClient :=
  match t.pool with
  | some pool => { t with pool := some (poolArriving pool arrivals) }
  | none => { t with connection := t.connection.map (arriving · arrivals) }

/-- The client uses `conn`, which is up, and goes on to use it. -/
inductive Up (t : TcpClient) (conn : Connection) : Prop
  | direct (hp : t.pool = none) (hconn : t.connection = some conn) (ht : t.connected = true)
      (hc : conn.connected = true)
  | pooled {pool rest : ConnectionPool} (hp : t.pool = some pool) (ha : pool.acquire = .ok (some conn, rest))
      (hroom : rest.idle.length < rest.config.maxIdle) (hc : conn.connected = true)

theorem Up.recv {t : TcpClient} {conn : Connection} (hup : Up t conn) (size : Nat) :
    ∃ t', t.recv size = .ok ((conn.asyncRead size).1, (conn.asyncRead size).2.1, t') ∧
      (0 < (conn.asyncRead size).1 → Up t' (conn.asyncRead size).2.2) := by
  cases hup with
  | direct hp hconn ht hc =>
      let r := conn.asyncRead size
      refine ⟨TcpClient.reconnectAfter { t with connection := some r.2.2 } r.1, ?_, ?_⟩
      · simp [TcpClient.recv, hp, hconn, ht, r]
      · intro hn
        rw [TcpClient.reconnectAfter, if_neg fun h => Int.not_le.mpr hn h.1]
        exact .direct hp rfl ht (Connection.asyncRead_connected hn)
  | pooled hp ha hroom hc =>
      rename_i pool rest
      refine ⟨{ t with pool := some (rest.release (conn.asyncRead size).2.2) }, ?_, fun hn => ?_⟩
      · simp [TcpClient.recv, hp, ha]
      · have hc' := Connection.asyncRead_connected hn
        exact .pooled rfl (acquire_release hc' hroom) hroom hc'

theorem Up.send {t : TcpClient} {conn conn' : Connection} (hup : Up t conn) {data : Bytes} {n : Int}
    (hw : conn.asyncWrite data = (n, conn')) (hn : 0 < n) (hc' : conn'.connected = true) :
    ∃ t', t.send data = .ok (n, t') ∧ Up t' conn' := by
  cases hup with
  | direct hp hconn ht hc =>
      refine ⟨{ t with connection := some conn' }, ?_, .direct hp rfl ht hc'⟩
      simp only [TcpClient.send, hp, hconn, ht, Bool.not_true, Bool.false_eq_true, if_false, hw,
        TcpClient.reconnectAfter]
      rw [if_neg (fun h => Int.not_le.mpr hn h.1)]
  | pooled hp ha hroom hc =>
      rename_i pool rest
      refine ⟨{ t with pool := some (rest.release conn') }, ?_, .pooled rfl (acquire_release hc' hroom) hroom hc'⟩
      simp only [TcpClient.send, hp, ha, hw]

theorem Up.connected {t : TcpClient} {conn : Connection} (hup : Up t conn) : conn.connected = true := by
  cases hup with
  | direct _ _ _ hc => exact hc
  | pooled _ _ _ hc => exact hc

theorem Up.recv_whole {t : TcpClient} {conn : Connection} (hup : Up t conn) {part : Bytes} (hp : part ≠ [])
    {rest : List Arrival} (h : Net.recv part.length conn.arrivals = ((part.length : Int), part, rest)) :
    ∃ t', t.recv part.length = .ok ((part.length : Int), part, t') ∧ Up t' (arriving conn rest) := by
  have hpos : (0 : Int) < part.length := Int.natCast_pos.mpr (List.length_pos_iff.mpr hp)
  have hr := Connection.asyncRead_recv hup.connected h hpos
  obtain ⟨t', ht', hup'⟩ := hup.recv part.length
  rw [hr] at ht' hup'
  exact ⟨t', ht', hup' hpos⟩

/-- How a send goes, whatever arrives later: it does not return, it fails, it goes out on a connection that is
read next, or on one that the pool does not take back. -/
inductive Sent (send : List Arrival → Except Stuck (Int × TcpClient)) : Prop
  | stuck (e : Stuck) (h : ∀ arrivals, send arrivals = .error e)
  | failed (n : Int) (hn : n ≤ 0) (h : ∀ arrivals, ∃ t, send arrivals = .ok (n, t))
  | up (n : Int) (hn : 0 < n)
      (h : ∀ arrivals, ∃ t conn, send arrivals = .ok (n, t) ∧ Up t conn ∧ conn.arrivals = arrivals)
  | dropped (n : Int) (t : TcpClient) (h : ∀ arrivals, send arrivals = .ok (n, t))

theorem send_direct (t : TcpClient) (hp : t.pool = none) (data : Bytes) :
    Sent fun arrivals => (tcpArriving t arrivals).send data := by
  cases hconn : t.connection with
  | none => exact .failed (-1) (by decide) fun arrivals => by simp [TcpClient.send, tcpArriving, hp, hconn]
  | some conn =>
      by_cases ht : t.connected
      · by_cases hn : (conn.asyncWrite data).1 ≤ 0
        · refine .failed _ hn fun arrivals => ?_
          simp [TcpClient.send, tcpArriving, hp, hconn, ht, asyncWrite_arriving]
        · have hpos := Int.not_le.mp hn
          refine .up _ hpos fun arrivals => ?_
          refine ⟨{ t with connection := some (arriving (conn.asyncWrite data).2 arrivals) }, _, ?_,
            .direct hp rfl ht (Connection.asyncWrite_connected hpos), rfl⟩
          simp [TcpClient.send, tcpArriving, hp, hconn, ht, asyncWrite_arriving, TcpClient.reconnectAfter, hn]
      · refine .failed (-1) (by decide) fun arrivals => ?_
        simp [TcpClient.send, tcpArriving, hp, hconn, ht]

theorem send_pooled (t : TcpClient) {pool : ConnectionPool} (hp : t.pool = some pool) (data : Bytes) :
    Sent fun arrivals => (tcpArriving t arrivals).send data := by
  cases hacquire : pool.acquire with
  | error e =>
      refine .stuck e fun arrivals => ?_
      simp only [TcpClient.send, tcpArriving, hp, acquire_arriving, hacquire, Except.map]
  | ok r =>
      obtain ⟨_ | conn, rest⟩ := r
      · refine .stuck .nullPointer fun arrivals => ?_
        simp only [TcpClient.send, tcpArriving, hp, acquire_arriving, hacquire, Except.map, Option.map_none]
      · have hsend (arrivals : List Arrival) : (tcpArriving t arrivals).send data =
            .ok ((conn.asyncWrite data).1,
              { t with pool := some (rest.release (arriving (conn.asyncWrite data).2 arrivals)) }) := by
          simp only [TcpClient.send, tcpArriving, hp, acquire_arriving, hacquire, Except.map, Option.map_some,
            asyncWrite_arriving]
        simp only [hsend]
        by_cases hn : (conn.asyncWrite data).1 ≤ 0
        · exact .failed (conn.asyncWrite data).1 hn fun _ => ⟨_, rfl⟩
        · have hpos := Int.not_le.mp hn
          have hc := Connection.asyncWrite_connected hpos
          by_cases hroom : rest.idle.length < rest.config.maxIdle
          · refine .up _ hpos fun arrivals => ?_
            have hc' : (arriving (conn.asyncWrite data).2 arrivals).connected := hc
            exact ⟨_, _, rfl, .pooled rfl (acquire_release hc' hroom) hroom hc', rfl⟩
          · let t' := { t with pool := some (rest.release (conn.asyncWrite data).2) }
            exact .dropped (conn.asyncWrite data).1 t' fun arrivals => by simp [t', release, hroom]

theorem send_arriving (t : TcpClient) (data : Bytes) : Sent fun arrivals => (tcpArriving t arrivals).send data := by
  cases hp : t.pool with
  | none => exact send_direct t hp data
  | some pool => exact send_pooled t hp data

end Transport

def Call.seen {α : Type} (call : Call α) : Option Bytes × RpcResult α := (call.decoded, call.result)

namespace RpcClient

def arriving (c : RpcClient) (arrivals : List Arrival) : RpcClient :=
  { c with tcpClient := tcpArriving c.tcpClient arrivals }

variable (response : Ty) (heap : Mem)

theorem readRemaining_part {c : RpcClient} {conn : Connection} (hup : Up c.tcpClient conn) (f : Frame)
    (buffer : Bytes) {rest : List Arrival} (h : Reads conn.arrivals (if f.body = [] then [] else [f.body]) rest) :
    ∃ t, c.readRemaining response heap buffer f.header.totalSize =
        .ok
          (finish response heap { c with tcpClient := t } (store buffer ProtocolHeader.size f.body) f.bytes.length) ∧
      Up t (Rpc.arriving conn rest) := by
  rw [readRemaining]
  rw [f.totalSize_sub, f.totalSize_eq]
  by_cases hb : f.body = []
  · rw [if_pos hb] at h
    cases h
    refine ⟨c.tcpClient, ?_, hup⟩
    simp [hb, store, pure, Except.pure]
  · rw [if_neg hb] at h
    cases h with
    | cons hrecv hlater =>
        cases hlater
        obtain ⟨t, hr, hup'⟩ := hup.recv_whole hb hrecv
        have hpos : 0 < f.body.length := List.length_pos_iff.mpr hb
        refine ⟨t, ?_, hup'⟩
        simp only [hpos, if_true, hr, bind, Except.bind, pure, Except.pure]
        rw [if_neg (by omega)]

theorem readResponse_frame {c : RpcClient} {conn : Connection} (hup : Up c.tcpClient conn) (f : Frame)
    {rest : List Arrival} (h : Reads conn.arrivals f.parts rest) :
    ∃ t, c.readResponse response heap =
        .ok (finish response heap { c with tcpClient := t } (f.fill (List.replicate 4096 0)) f.bytes.length) ∧
      Up t (Rpc.arriving conn rest) := by
  cases h with
  | cons hrecv hlater =>
      obtain ⟨t, hr, hup'⟩ := hup.recv_whole (Frame.toBytes_ne_nil f.header) hrecv
      rw [ProtocolHeader.length_toBytes] at hr
      have hload : ProtocolHeader.load (ofList (store (List.replicate 4096 0) 0 f.header.toBytes) heap) 0 =
          f.header := by
        rw [store_zero]
        exact ProtocolHeader.load_eq (holds_ofList _ _ _)
      have hn : ¬((ProtocolHeader.size : Int) ≤ 0) := by decide
      rw [readResponse]
      simp only [hr, bind, Except.bind, hn, if_false, hload, f.valid, Bool.not_true, Bool.false_eq_true]
      exact readRemaining_part response heap (c := { c with tcpClient := t }) hup' f _ hlater

def yielded : List Frame → Option Bytes × RpcResult response.Val
  | [] => (none, .makeError .connectionError (text "Failed to receive response"))
  | f :: _ =>
      (some f.bytes, parseResponse response heap (f.fill (List.replicate 4096 0)) f.bytes.length)

theorem readResponse_eof {c : RpcClient} {conn : Connection} (hup : Up c.tcpClient conn) (h : conn.arrivals = []) :
    (c.readResponse response heap).map Call.seen = .ok (yielded response heap []) := by
  obtain ⟨t, hr, -⟩ := hup.recv ProtocolHeader.size
  rw [Connection.asyncRead_eof hup.connected h] at hr
  simp [readResponse, hr, bind, Except.bind, pure, Except.pure, Except.map, Call.seen, yielded]

theorem readResponse_yielded {c : RpcClient} {conn : Connection} (hup : Up c.tcpClient conn) {f : Frame}
    (frames : List Frame) {rest : List Arrival} (h : Reads conn.arrivals f.parts rest) :
    (c.readResponse response heap).map Call.seen = .ok (yielded response heap (f :: frames)) := by
  obtain ⟨t, hr, -⟩ := readResponse_frame response heap hup f h
  simp only [hr, Except.map, Call.seen, finish, yielded, f.take_fill]

/-- A call that decodes a frame decodes what its two reads assemble. -/
theorem decoded_assembled {c : RpcClient} {conn : Connection} (hup : Up c.tcpClient conn)
    {call : Call response.Val} (h : c.readResponse response heap = .ok call) {frame : Bytes}
    (hframe : call.decoded = some frame) :
    frame = assembled heap (List.replicate 4096 0) conn.arrivals := by
  obtain ⟨t, hr, hup'⟩ := hup.recv ProtocolHeader.size
  simp only [readResponse, hr, bind, Except.bind, pure, Except.pure] at h
  split at h
  · cases h
    cases hframe
  · next hn =>
      have hpos := Int.not_le.mp hn
      have hread := (Connection.asyncRead_pos hpos).2
      have hup := hup' hpos
      rw [hread] at h hup
      split at h
      · cases h
        cases hframe
      · simp only [readRemaining, bind, Except.bind, pure, Except.pure] at h
        split at h
        · obtain ⟨t', hr', -⟩ := hup.recv _
          rw [hr'] at h
          dsimp only at h
          split at h
          · cases h
            cases hframe
          · next hn' =>
              have hread' := (Connection.asyncRead_pos (Int.not_le.mp hn')).2
              rw [hread'] at h
              cases h
              exact (Option.some.inj hframe).symm
        · next hzero =>
            cases h
            rw [← Option.some.inj hframe, assembled, store_recv_zero hzero]

section Exchange

variable {c : RpcClient} {data : Bytes}

-- once the request is out, what arrives is read
def Asks (c : RpcClient) (data : Bytes) : Prop :=
  ∀ arrivals, ∃ n t conn, (tcpArriving c.tcpClient arrivals).send data = .ok (n, t) ∧ 0 < n ∧ Up t conn ∧
    conn.arrivals = arrivals

def exchange (c : RpcClient) (data : Bytes) (arrivals : List Arrival) : Except Stuck (Call response.Val) :=
  match (tcpArriving c.tcpClient arrivals).send data with
  | .error e => .error e
  | .ok w =>
      let after : RpcClient := { c with requestId := c.requestId + 1, tcpClient := w.2 }
      if w.1 ≤ 0 then
        .ok { result := .makeError .connectionError (text "Failed to send request"), client := after }
      else after.readResponse response heap

theorem Asks.exchange (h : c.Asks data) (arrivals : List Arrival) :
    ∃ (after : RpcClient) (conn : Connection), Up after.tcpClient conn ∧ conn.arrivals = arrivals ∧
      c.exchange response heap data arrivals = after.readResponse response heap := by
  obtain ⟨n, t, conn, hsend, hn, hup, harr⟩ := h arrivals
  refine ⟨{ c with requestId := c.requestId + 1, tcpClient := t }, conn, hup, harr, ?_⟩
  simp only [RpcClient.exchange, hsend, Int.not_le.mpr hn, if_false]

variable {frames : List Frame} {arrivals : List Arrival}

theorem exchange_whole (h : Carries arrivals (frames.flatMap Frame.bytes))
    (hwhole : c.Asks data → ∀ f ∈ frames.head?, ∃ rest, Reads arrivals f.parts rest) :
    (c.exchange response heap data arrivals).map Call.seen =
      (c.exchange response heap data (whole (frames.flatMap Frame.bytes))).map Call.seen := by
  cases send_arriving c.tcpClient data with
  | stuck e hsend => simp only [exchange, hsend]
  | failed n hn hsend =>
      obtain ⟨ta, hta⟩ := hsend arrivals
      obtain ⟨tb, htb⟩ := hsend (whole (frames.flatMap Frame.bytes))
      simp only [exchange, hta, htb, hn, if_true, Except.map, Call.seen]
  | dropped n t hsend => simp only [exchange, hsend]
  | up n hn hsend =>
      have hasks : c.Asks data := by
        intro arrivals
        obtain ⟨t, conn, ht, hup, harr⟩ := hsend arrivals
        exact ⟨n, t, conn, ht, hn, hup, harr⟩
      obtain ⟨ca, conna, hupa, rfl, heqa⟩ := hasks.exchange response heap arrivals
      obtain ⟨cb, connb, hupb, harrb, heqb⟩ := hasks.exchange response heap (whole (frames.flatMap Frame.bytes))
      have huncut := wholeParts_frames frames
      rw [← harrb] at huncut
      rw [heqa, heqb]
      cases frames with
      | nil => rw [readResponse_eof response heap hupa h.eq_nil, readResponse_eof response heap hupb huncut.eq_nil]
      | cons f frames =>
          obtain ⟨rest, hrest⟩ := hwhole hasks f rfl
          rw [List.flatMap_cons] at huncut
          obtain ⟨rest', hrest', -⟩ :=
            huncut.reads (List.not_mem_append f.nil_notMem_parts (nil_notMem_flatMap_parts frames))
          rw [readResponse_yielded response heap hupa frames hrest,
            readResponse_yielded response heap hupb frames hrest']

theorem exchange_fills (h : Carries arrivals (frames.flatMap Frame.bytes)) (hasks : c.Asks data)
    (hsame : (c.exchange response heap data arrivals).map Call.seen =
      (c.exchange response heap data (whole (frames.flatMap Frame.bytes))).map Call.seen) :
    ∀ f ∈ frames.head?, Fills (grow (List.replicate 4096 0) f.bytes.length) 0 arrivals f.parts := by
  intro f hf
  cases frames with
  | nil => cases hf
  | cons g frames =>
      cases hf
      obtain ⟨ca, conna, hupa, rfl, heqa⟩ := hasks.exchange response heap arrivals
      obtain ⟨cb, connb, hupb, harrb, heqb⟩ :=
        hasks.exchange response heap (whole ((f :: frames).flatMap Frame.bytes))
      have huncut := wholeParts_frames (f :: frames)
      rw [← harrb, List.flatMap_cons] at huncut
      obtain ⟨rest, hrest, -⟩ :=
        huncut.reads (List.not_mem_append f.nil_notMem_parts (nil_notMem_flatMap_parts frames))
      rw [heqa, heqb, readResponse_yielded response heap hupb frames hrest] at hsame
      cases hcall : ca.readResponse response heap with
      | error e =>
          rw [hcall] at hsame
          cases hsame
      | ok call =>
          rw [hcall] at hsame
          have hdecoded : call.decoded = some f.bytes := congrArg Prod.fst (Except.ok.inj hsame)
          have hroom : ProtocolHeader.size ≤ (List.replicate 4096 (0 : UInt8)).length := by
            rw [List.length_replicate]
            decide
          exact fills_of_assembled hroom h (decoded_assembled response heap hupa hcall hdecoded).symm

end Exchange

section Call

variable (request : Ty) (timestamp : UInt64) (padding : UInt32) (c : RpcClient) (service method : Bytes)
  (value : request.Val)

def requestData : Bytes :=
  (RpcMessage.createRequest c.requestId service method (Serializer.serialize request value)
    c.config.timeoutMs.toUInt32 timestamp).serialize padding

theorem call_exchange (arrivals : List Arrival) :
    (c.arriving arrivals).call response heap request timestamp padding service method value =
      c.exchange response heap (c.requestData request timestamp padding service method value) arrivals := by
  let data := c.requestData request timestamp padding service method value
  show ((tcpArriving c.tcpClient arrivals).send data >>= _) = c.exchange response heap data arrivals
  rw [exchange]
  cases (tcpArriving c.tcpClient arrivals).send data with
  | error e => rfl
  | ok w => rfl

end Call

end RpcClient

/-- Both frame readers see what they would see if every read got all it asks for when those that they make do so: the
rounds of the server get whole the header of their frame, and its body unless it is over the limit, and the client that
of the first frame. And they see it only if, where the first read comes short of it, what it lacks of a frame that is
to be handed over stands in the buffer already. -/
theorem frames_independent_of_chunking (frames : List Frame) (arrivals : List Arrival)
    (hstream : Carries arrivals (frames.flatMap Frame.bytes)) :
    (∀ (σ : Type) (registry : ServiceRegistry σ) (heap : Mem) (server : RpcServer σ) (conn : Connection),
      let start : Session σ := { server, conn := arriving conn arrivals }
      let same := (handleConnection registry heap server (arriving conn arrivals)).handled =
        (handleConnection registry heap server (arriving conn (whole (frames.flatMap Frame.bytes)))).handled
      ((∀ n, Session.RoundWhole registry heap frames start n) → same) ∧
        (same → Session.FirstFills registry heap frames start)) ∧
    ∀ (request response : Ty) (heap : Mem) (timestamp : UInt64) (padding : UInt32) (client : RpcClient)
      (service method : Bytes) (value : request.Val),
      let callOver arrivals :=
        (client.arriving arrivals).call response heap request timestamp padding service method value
      let asks := client.Asks (client.requestData request timestamp padding service method value)
      let same := (callOver arrivals).map Call.seen = (callOver (whole (frames.flatMap Frame.bytes))).map Call.seen
      ((asks → ∀ f ∈ frames.head?, ∃ rest, Reads arrivals f.parts rest) → same) ∧
        (same → asks →
          ∀ f ∈ frames.head?, Fills (grow (List.replicate 4096 0) f.bytes.length) 0 arrivals f.parts) := by
  constructor
  · intro σ registry heap server conn
    exact ⟨handleConnection_whole registry heap server conn hstream,
      handleConnection_fills registry heap server conn hstream⟩
  · intro request response heap timestamp padding client service method value
    dsimp only
    rw [client.call_exchange, client.call_exchange]
    exact ⟨RpcClient.exchange_whole response heap hstream,
      fun hsame hasks => RpcClient.exchange_fills response heap hstream hasks hsame⟩

def sampleFrame : Frame :=
  .ofMessage (RpcMessage.createResponse 0 [] .ok) 0 ⟨by decide, by decide⟩ rfl

def sampleConnection (arrivals : List Arrival) : Connection := { fd := 3, state := .connected, arrivals }

def sampleClient (arrivals : List Arrival) : RpcClient :=
  { tcpClient := { pool := some { idle := [sampleConnection arrivals], totalConnections := 1 } } }

theorem reads_sampleFrame {first : List Bytes} (h : first = [sampleFrame.bytes] ∨ first = sampleFrame.parts)
    (later : List Arrival) : Reads (first.map .data ++ later) sampleFrame.parts later := by
  have hparts : sampleFrame.parts = [sampleFrame.header.toBytes, sampleFrame.body] := rfl
  rw [hparts]
  have hbody : Reads (.data sampleFrame.body :: later) [sampleFrame.body] later := .cons rfl (.nil later)
  obtain rfl | rfl := h
  · exact .cons rfl hbody
  · exact .cons rfl hbody

/-- The server gets a frame in two parts, and a client gets two of which the second is cut. -/
theorem frames_independent_of_chunking_sample :
    let callOver arrivals := ((sampleClient []).arriving arrivals).call .bool (fun _ => 0) .bool 0 0 [] [] true
    let cut := [sampleFrame.bytes, sampleFrame.bytes.take 1, sampleFrame.bytes.drop 1]
    (handleConnection (∅ : ServiceRegistry Unit) (fun _ => 0) { world := () }
      (sampleConnection (sampleFrame.parts.map .data))).handled =
      (handleConnection (∅ : ServiceRegistry Unit) (fun _ => 0) { world := () }
        (sampleConnection (whole ([sampleFrame].flatMap Frame.bytes)))).handled ∧
    (callOver (cut.map .data)).map Call.seen =
      (callOver (whole ([sampleFrame, sampleFrame].flatMap Frame.bytes))).map Call.seen := by
  intro callOver cut
  constructor
  · refine ((frames_independent_of_chunking [sampleFrame] _ ⟨sampleFrame.parts, rfl, by decide, by decide⟩).1 Unit ∅
      (fun _ => 0) { world := () } (sampleConnection [])).1 fun n t f ht _ hf => ?_
    cases n with
    | zero =>
        cases ht
        cases hf
        exact ⟨[], reads_sampleFrame (.inr rfl) []⟩
    | succ n => cases hf
  · refine ((frames_independent_of_chunking [sampleFrame, sampleFrame] _ ⟨cut, rfl, by decide, by decide⟩).2 .bool
      .bool (fun _ => 0) 0 0 (sampleClient []) [] [] true).1 fun _ f hf => ?_
    cases hf
    exact ⟨_, reads_sampleFrame (.inl rfl) ((cut.drop 1).map .data)⟩

/-- The first byte of a frame arrives alone: the server does not see the frame, and neither does a client. -/
theorem sampleFrame_cut :
    let segments := [sampleFrame.bytes.take 1, sampleFrame.bytes.drop 1]
    segments.flatten = sampleFrame.bytes ∧ [] ∉ segments ∧
      (handleConnection (∅ : ServiceRegistry Unit) (fun _ => 0) { world := () }
        (sampleConnection (segments.map .data))).handled ≠
      (handleConnection (∅ : ServiceRegistry Unit) (fun _ => 0) { world := () }
        (sampleConnection (whole sampleFrame.bytes))).handled ∧
      ((sampleClient (segments.map .data)).call .bool (fun _ => 0) .bool 0 0 [] [] true).map Call.decoded ≠
      ((sampleClient (whole sampleFrame.bytes)).call .bool (fun _ => 0) .bool 0 0 [] [] true).map Call.decoded := by
  refine ⟨by decide, by decide, by decide +kernel, by decide +kernel⟩

end CoroRpc.Rpc

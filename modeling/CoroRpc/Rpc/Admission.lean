import CoroRpc.Rpc.RpcServer

namespace CoroRpc.Rpc

open Loop Memory Net Protocol

variable {σ : Type}

theorem load_eq_of_slice {a b : Mem} (h : slice a 0 ProtocolHeader.size = slice b 0 ProtocolHeader.size) :
    ProtocolHeader.load a 0 = ProtocolHeader.load b 0 := by
  have hbyte : ∀ i < ProtocolHeader.size, a i = b i := by
    intro i hi
    have hget := congrArg (fun bs : Bytes => bs[i]?) h
    simpa [slice, hi] using hget
  have hslice (off len : Nat) (hle : off + len ≤ ProtocolHeader.size) : slice a off len = slice b off len := by
    apply List.map_congr_left
    intro i hi
    rw [List.mem_range] at hi
    exact hbyte (off + i) (by omega)
  rw [ProtocolHeader.load, ProtocolHeader.load]
  congr 1
  · rw [loadWord, loadWord, hslice 0 2 (by decide)]
  · exact hbyte 2 (by decide)
  · exact hbyte 3 (by decide)
  · rw [loadWord, loadWord, hslice 4 4 (by decide)]
  · rw [loadWord, loadWord, hslice 8 4 (by decide)]
  · rw [loadWord, loadWord, hslice 12 4 (by decide)]

theorem length_asyncRead (conn : Connection) (size : Nat) : (conn.asyncRead size).2.1.length ≤ size := by
  rw [Connection.asyncRead]
  split
  · exact Nat.zero_le size
  · dsimp only
    cases conn.arrivals with
    | nil => exact Nat.zero_le size
    | cons a rest =>
        cases a with
        | fail errno => exact Nat.zero_le size
        | data bs =>
            simp only [recv, List.length_take]
            omega

namespace Session

def readHeader (heap : Mem) (s : Session σ) : Option (ProtocolHeader × Session σ) :=
  let r := s.conn.asyncRead ProtocolHeader.size
  let t := { s with conn := r.2.2, buffer := store s.buffer 0 r.2.1 }
  if s.conn.connected ∧ 0 < r.1 then some (.load (ofList t.buffer heap) 0, t) else none

def Refuses (header : ProtocolHeader) (s : Session σ) : Prop :=
  header.valid = false ∨ s.server.config.maxRequestSize < header.totalSize

def call (heap : Mem) (s : Session σ) : Option (ProtocolHeader × Session σ) :=
  match s.readHeader heap with
  | none => none
  | some (header, t) =>
      if header.valid ∧ header.totalSize ≤ t.server.config.maxRequestSize then
        match
          readBody { t with buffer := grow t.buffer header.totalSize } (header.totalSize - ProtocolHeader.size)
        with
        | .next u => some (header, u)
        | .stop _ => none
      else none

structure SameService (s t : Session σ) : Prop where
  server : t.server = s.server
  handled : t.handled = s.handled

structure Bounded (limit : Nat) (s : Session σ) : Prop where
  config : s.server.config.maxRequestSize = limit
  lower : 4096 ≤ s.buffer.length
  upper : s.buffer.length ≤ max 4096 limit

variable (registry : ServiceRegistry σ) (heap : Mem) {s t u : Session σ} {header : ProtocolHeader} {limit : Nat}

theorem length_store_header (h : 4096 ≤ s.buffer.length) :
    (store s.buffer 0 (s.conn.asyncRead ProtocolHeader.size).2.1).length = s.buffer.length := by
  have hread := length_asyncRead s.conn ProtocolHeader.size
  have hsize : ProtocolHeader.size = 16 := rfl
  exact length_store (by omega)

theorem Bounded.same (h : Bounded limit s) (hs : SameService s t) (hb : t.buffer.length = s.buffer.length) :
    Bounded limit t := by
  constructor
  · rw [hs.server]
    exact h.config
  · rw [hb]
    exact h.lower
  · rw [hb]
    exact h.upper

theorem serve_of_readHeader_none (h : s.readHeader heap = none) :
    ∃ t, serve registry heap s = .stop t ∧ SameService s t ∧
      (4096 ≤ s.buffer.length → t.buffer.length = s.buffer.length) := by
  rw [readHeader] at h
  by_cases hc : s.conn.connected
  · have hn : (s.conn.asyncRead ProtocolHeader.size).1 ≤ 0 := by
      by_contra hpos
      simp [hc, Int.not_le.mp hpos] at h
    refine ⟨{ s with
      conn := (s.conn.asyncRead ProtocolHeader.size).2.2
      buffer := store s.buffer 0 (s.conn.asyncRead ProtocolHeader.size).2.1 }, ?_, ⟨rfl, rfl⟩, length_store_header⟩
    simp [serve, hc, hn]
  · exact ⟨s, by simp [serve, hc], ⟨rfl, rfl⟩, fun _ => rfl⟩

theorem readHeader_some (h : s.readHeader heap = some (header, t)) :
    serve registry heap s = receive registry heap header t ∧ SameService s t ∧
      header = .load (ofList t.buffer heap) 0 ∧ (4096 ≤ s.buffer.length → t.buffer.length = s.buffer.length) := by
  rw [readHeader] at h
  dsimp only at h
  split at h
  · rename_i hread
    cases h
    refine ⟨?_, ⟨rfl, rfl⟩, rfl, length_store_header⟩
    simp [serve, hread.1, Int.not_le.mpr hread.2]
  · cases h

theorem receive_refuses (h : Refuses header s) : receive registry heap header s = .stop s.countError := by
  rw [receive]
  rcases h with hv | hmax
  · simp [hv]
  · by_cases hv : header.valid
    · simp [hv, hmax]
    · simp [hv]

theorem receive_accepts (hv : header.valid = true) (hmax : header.totalSize ≤ s.server.config.maxRequestSize) :
    receive registry heap header s =
      (readBody { s with buffer := grow s.buffer header.totalSize } (header.totalSize - ProtocolHeader.size)).andThen
        (process registry heap header.totalSize) := by
  simp [receive, hv, Nat.not_lt.mpr hmax]

theorem readBody_state {remaining : Nat} (h : ProtocolHeader.size + remaining ≤ s.buffer.length) :
    SameService s (s.readBody remaining).state ∧ (s.readBody remaining).state.buffer.length = s.buffer.length ∧
      (s.readBody remaining).state.buffer.take ProtocolHeader.size = s.buffer.take ProtocolHeader.size := by
  have hread := length_asyncRead s.conn remaining
  have hlen : (store s.buffer ProtocolHeader.size (s.conn.asyncRead remaining).2.1).length = s.buffer.length :=
    length_store (by omega)
  have htake : (store s.buffer ProtocolHeader.size (s.conn.asyncRead remaining).2.1).take ProtocolHeader.size =
      s.buffer.take ProtocolHeader.size := take_store (by omega) _
  rw [readBody]
  split
  · dsimp only
    split
    · exact ⟨⟨rfl, rfl⟩, hlen, htake⟩
    · exact ⟨⟨rfl, rfl⟩, hlen, htake⟩
  · exact ⟨⟨rfl, rfl⟩, rfl, rfl⟩

theorem handleMessage_config (server : RpcServer σ) (data : Mem) (size : Nat) :
    (server.handleMessage registry data size).2.config = server.config := by
  rw [RpcServer.handleMessage]
  dsimp only
  split
  · rfl
  · split
    · rw [RpcServer.dispatch]
      split
      · rfl
      · split <;> rfl
    · split <;> rfl

theorem respond_state (s : Session σ) (response : Bytes) :
    SameService s (s.respond response).state ∧ (s.respond response).state.buffer = s.buffer := by
  rw [respond]
  split
  · exact ⟨⟨rfl, rfl⟩, rfl⟩
  · dsimp only
    split
    · exact ⟨⟨rfl, rfl⟩, rfl⟩
    · exact ⟨⟨rfl, rfl⟩, rfl⟩

theorem Bounded.process (h : Bounded limit s) (totalSize : Nat) :
    Bounded limit (process registry heap totalSize s).state := by
  obtain ⟨hs, hb⟩ := respond_state { s with
    server := (s.server.handleMessage registry (ofList s.buffer heap) totalSize).2
    handled := s.handled ++ [s.buffer.take totalSize] }
    (s.server.handleMessage registry (ofList s.buffer heap) totalSize).1
  have hserver : Bounded limit { s with
      server := (s.server.handleMessage registry (ofList s.buffer heap) totalSize).2
      handled := s.handled ++ [s.buffer.take totalSize] } :=
    ⟨(congrArg RpcServerConfig.maxRequestSize (handleMessage_config registry _ _ _)).trans h.config, h.lower, h.upper⟩
  exact hserver.same hs (congrArg List.length hb)

theorem Bounded.grow (h : Bounded limit s) (hmax : header.totalSize ≤ limit) :
    Bounded limit { s with buffer := Memory.grow s.buffer header.totalSize } := by
  refine ⟨h.config, ?_, ?_⟩
  · rw [length_grow]
    exact le_max_of_le_left h.lower
  · rw [length_grow]
    exact max_le h.upper (le_max_of_le_right hmax)

theorem size_le_totalSize (header : ProtocolHeader) : ProtocolHeader.size ≤ header.totalSize := by
  rw [header.totalSize_eq]
  omega

theorem grow_room (buffer : Bytes) (header : ProtocolHeader) :
    ProtocolHeader.size + (header.totalSize - ProtocolHeader.size) ≤ (grow buffer header.totalSize).length := by
  have hsize := size_le_totalSize header
  rw [length_grow]
  omega

theorem Bounded.receive (h : Bounded limit s) : Bounded limit (receive registry heap header s).state := by
  by_cases hr : Refuses header s
  · rw [receive_refuses registry heap hr]
    exact ⟨h.config, h.lower, h.upper⟩
  · rw [Refuses, not_or, Bool.not_eq_false, Nat.not_lt] at hr
    rw [receive_accepts registry heap hr.1 hr.2]
    obtain ⟨hs, hb, -⟩ := readBody_state (s := { s with buffer := Memory.grow s.buffer header.totalSize })
      (grow_room s.buffer header)
    have hread := (h.grow (hr.2.trans h.config.le)).same hs hb
    generalize readBody _ _ = b at hread
    cases b with
    | stop t => exact hread
    | next t => exact hread.process registry heap header.totalSize

theorem Bounded.serve (h : Bounded limit s) : Bounded limit (serve registry heap s).state := by
  cases hh : s.readHeader heap with
  | none =>
      obtain ⟨t, ht, hs, hb⟩ := serve_of_readHeader_none registry heap hh
      rw [ht]
      exact h.same hs (hb h.lower)
  | some read =>
      obtain ⟨hserve, hs, -, hb⟩ := readHeader_some registry heap hh
      rw [hserve]
      exact (h.same hs (hb h.lower)).receive registry heap

structure Admitted (limit : Nat) (header : ProtocolHeader) (buffer : Bytes) : Prop where
  valid : header.valid = true
  header_eq : header = .load (ofList buffer heap) 0
  size_eq : header.totalSize = ProtocolHeader.size + header.metaLen.toNat + header.payloadLen.toNat
  size_ge : ProtocolHeader.size ≤ header.totalSize
  size_le : header.totalSize ≤ buffer.length
  limit_le : header.totalSize ≤ limit

theorem load_of_take {a b : Bytes} (ha : ProtocolHeader.size ≤ a.length) (hb : ProtocolHeader.size ≤ b.length)
    (h : a.take ProtocolHeader.size = b.take ProtocolHeader.size) :
    ProtocolHeader.load (ofList a heap) 0 = ProtocolHeader.load (ofList b heap) 0 := by
  apply load_eq_of_slice
  rw [slice_ofList (by omega), slice_ofList (by omega)]
  exact h

theorem call_admitted (h : Bounded limit s) (hc : s.call heap = some (header, u)) :
    serve registry heap s = process registry heap header.totalSize u ∧ SameService s u ∧
      Admitted heap limit header u.buffer := by
  rw [call] at hc
  cases hh : s.readHeader heap with
  | none => simp [hh] at hc
  | some read =>
      obtain ⟨hserve, hs, hload, hb⟩ := readHeader_some registry heap hh
      have ht := h.same hs (hb h.lower)
      obtain ⟨header', t⟩ := read
      simp only [hh] at hc
      split at hc
      · rename_i hok
        obtain ⟨hs', hb', htake⟩ := readBody_state (s := { t with buffer := Memory.grow t.buffer header'.totalSize })
          (grow_room t.buffer header')
        split at hc
        · rename_i v hv
          cases hc
          rw [hv] at hs' hb' htake
          have hlen : u.buffer.length = max t.buffer.length header.totalSize := hb'.trans (length_grow _ _)
          have hroom : ProtocolHeader.size ≤ t.buffer.length := le_trans (by decide) ht.lower
          refine ⟨?_, ⟨hs'.server.trans hs.server, hs'.handled.trans hs.handled⟩, ⟨hok.1, ?_, header.totalSize_eq,
            size_le_totalSize header, hlen ▸ Nat.le_max_right _ _, hok.2.trans ht.config.le⟩⟩
          · rw [hserve, receive_accepts registry heap hok.1 hok.2, hv]
            rfl
          · refine hload.trans (load_of_take heap hroom (hlen ▸ le_max_of_le_left hroom) ?_)
            exact (take_grow hroom _).symm.trans htake.symm
        · cases hc
      · cases hc

theorem serve_of_call_none (hc : s.call heap = none) :
    ∃ t, serve registry heap s = .stop t ∧ t.handled = s.handled := by
  rw [call] at hc
  cases hh : s.readHeader heap with
  | none =>
      obtain ⟨t, ht, hs, -⟩ := serve_of_readHeader_none registry heap hh
      exact ⟨t, ht, hs.handled⟩
  | some read =>
      obtain ⟨hserve, hs, -, -⟩ := readHeader_some registry heap hh
      obtain ⟨header, t⟩ := read
      by_cases hr : Refuses header t
      · exact ⟨t.countError, hserve.trans (receive_refuses registry heap hr), hs.handled⟩
      · rw [Refuses, not_or, Bool.not_eq_false, Nat.not_lt] at hr
        simp only [hh, hr, and_self, if_true] at hc
        obtain ⟨hs', -, -⟩ := readBody_state (s := { t with buffer := grow t.buffer header.totalSize })
          (grow_room t.buffer header)
        split at hc
        · cases hc
        · rename_i u hu
          rw [hu] at hs'
          refine ⟨u, ?_, hs'.handled.trans hs.handled⟩
          rw [hserve, receive_accepts registry heap hr.1 hr.2, hu]
          rfl

def start (server : RpcServer σ) (conn : Connection) : Session σ :=
  { server, conn := { conn with closeCallback := true } }

def rounds (server : RpcServer σ) (conn : Connection) (n : Nat) : Flow (Session σ) :=
  iterate (serve registry heap) n (.next (start server conn))

theorem rounds_bounded (server : RpcServer σ) (conn : Connection) (n : Nat) :
    Bounded server.config.maxRequestSize (rounds registry heap server conn n).state := by
  apply iterate_inv (Bounded server.config.maxRequestSize)
  · intro s h
    exact h.serve registry heap
  · exact ⟨rfl, (List.length_replicate ..).ge, (List.length_replicate ..).le.trans (Nat.le_max_left _ _)⟩

end Session

/-- The task that `TcpServer` spawns for a connection: the handler, and then `close`. -/
def connectionTask (registry : ServiceRegistry σ) (heap : Mem) (server : RpcServer σ) (conn : Connection) :
    Session σ :=
  let s := handleConnection registry heap server { conn with closeCallback := true }
  { s with conn := s.conn.close }

theorem connectionTask_of_stop {registry : ServiceRegistry σ} {heap : Mem} {server : RpcServer σ} {conn : Connection}
    {n : Nat} {s t : Session σ} (hn : Session.rounds registry heap server conn n = .next s)
    (h : Session.serve registry heap s = .stop t) :
    connectionTask registry heap server conn = { t with conn := t.conn.close } := by
  have hstop : iterate (Session.serve registry heap) (n + 1)
      (.next { server, conn := { conn with closeCallback := true } }) = .stop t := by
    rw [iterate_add]
    rw [Session.rounds, Session.start] at hn
    rw [hn]
    exact h
  rw [connectionTask, handleConnection_eq hstop]

/-- Whatever the peer sends and however it arrives: the buffer stays within its bound in every round, `handle_message`
is called for whole frames with the right magic only, and a refused frame is the last thing that happens. -/
theorem handleConnection_admission (registry : ServiceRegistry σ) (heap : Mem) (server : RpcServer σ)
    (conn : Connection) :
    (∀ n, (Session.rounds registry heap server conn n).state.buffer.length ≤
      max 4096 server.config.maxRequestSize) ∧
    (∀ n s, Session.rounds registry heap server conn n = .next s →
      (∀ header t, s.call heap = some (header, t) →
        Session.serve registry heap s = t.process registry heap header.totalSize ∧ t.handled = s.handled ∧
          Session.Admitted heap server.config.maxRequestSize header t.buffer) ∧
      (s.call heap = none → ∃ t, Session.serve registry heap s = .stop t ∧ t.handled = s.handled) ∧
      ∀ header t, s.readHeader heap = some (header, t) → Session.Refuses header t →
        let e := connectionTask registry heap server conn
        e.server.totalErrors = s.server.totalErrors + 1 ∧ e.handled = s.handled ∧ e.conn.connected = false) := by
  refine ⟨fun n => (Session.rounds_bounded registry heap server conn n).upper, fun n s hn => ?_⟩
  have hb := Session.rounds_bounded registry heap server conn n
  rw [hn] at hb
  refine ⟨fun header t hc => ?_, Session.serve_of_call_none registry heap, fun header t hh hr => ?_⟩
  · obtain ⟨hserve, hs, hadmitted⟩ := Session.call_admitted registry heap hb hc
    exact ⟨hserve, hs.handled, hadmitted⟩
  · obtain ⟨hserve, hs, -, -⟩ := Session.readHeader_some registry heap hh
    have hstop := hserve.trans (Session.receive_refuses registry heap hr)
    rw [connectionTask_of_stop hn hstop]
    refine ⟨?_, hs.handled, Bool.eq_false_of_not_eq_true (Connection.not_connected_close _)⟩
    exact congrArg (fun server => server.totalErrors + 1) hs.server

def zeroHeader : Connection :=
  { fd := 3, state := .connected, arrivals := [.data ProtocolHeader.zero.toBytes, .data [7]] }

theorem readHeader_zeroHeader (server : RpcServer σ) (heap : Mem) :
    ∃ t, (Session.start server zeroHeader).readHeader heap = some (.zero, t) := by
  have hload : ProtocolHeader.load
      (ofList (store (List.replicate 4096 0) 0 ProtocolHeader.zero.toBytes) heap) 0 = .zero := by
    rw [store_zero]
    exact ProtocolHeader.load_eq (holds_ofList _ _ _)
  have hread : (zeroHeader.asyncRead ProtocolHeader.size).1 = 16 := rfl
  have hpos : 0 < ((Session.start server zeroHeader).conn.asyncRead ProtocolHeader.size).1 :=
    lt_of_lt_of_eq (by decide) hread.symm
  rw [Session.readHeader, if_pos ⟨rfl, hpos⟩]
  exact ⟨_, congrArg (fun header => some (header, _)) hload⟩

theorem handleConnection_admission_zeroHeader :
    (connectionTask (∅ : ServiceRegistry Unit) (fun _ => 0) { world := () } zeroHeader).server.totalErrors = 1 ∧
    (connectionTask (∅ : ServiceRegistry Unit) (fun _ => 0) { world := () } zeroHeader).handled = [] := by
  obtain ⟨t, ht⟩ := readHeader_zeroHeader ({ world := () } : RpcServer Unit) (fun _ => 0)
  obtain ⟨herrors, hhandled, -⟩ := ((handleConnection_admission (∅ : ServiceRegistry Unit) (fun _ => 0)
    { world := () } zeroHeader).2 0 _ rfl).2.2 .zero t ht (.inl rfl)
  exact ⟨herrors, hhandled⟩

end CoroRpc.Rpc

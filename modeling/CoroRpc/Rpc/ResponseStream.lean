import CoroRpc.Rpc.RpcServer

namespace CoroRpc.Rpc

open Loop Memory Net Protocol

variable {σ : Type}

/-- The wire holds a prefix of the response frames, and no frame was begun before the one
in front of it was complete. -/
def StreamIntact (writes : List Write) : Prop :=
  writes.flatMap Write.wire <+: writes.flatMap Write.buffer ∧ ∀ w ∈ writes.dropLast, w.Complete

/-- How the kernel's answers cut the responses, up to the first send that fails. -/
def deliver : List SendResult → List Bytes → List Write
  | _, [] => []
  | [], b :: bs => ⟨b, b.length⟩ :: deliver [] bs
  | .fail _ :: _, b :: _ => [⟨b, 0⟩]
  | .accept n :: sends, b :: bs => ⟨b, min (max n 1) b.length⟩ :: deliver sends bs

/-- Each response that has another one behind it is accepted whole, as far as no send fails. -/
def Uncut : List SendResult → List Bytes → Prop
  | .accept n :: sends, b :: b' :: bs => b.length ≤ max n 1 ∧ Uncut sends (b' :: bs)
  | _, _ => True

theorem deliver_nil_complete (bs : List Bytes) : ∀ w ∈ deliver [] bs, w.Complete := by
  induction bs with
  | nil => nofun
  | cons b bs ih =>
      intro w hw
      rcases List.mem_cons.mp hw with rfl | hw
      · rfl
      · exact ih w hw

theorem deliver_ne_nil (sends : List SendResult) (b : Bytes) (bs : List Bytes) :
    deliver sends (b :: bs) ≠ [] := by
  rcases sends with - | ⟨- | -⟩ <;> simp [deliver]

theorem deliver_complete_iff (sends : List SendResult) (bs : List Bytes) :
    (∀ w ∈ (deliver sends bs).dropLast, w.Complete) ↔ Uncut sends bs := by
  induction bs generalizing sends with
  | nil => simp [deliver, Uncut]
  | cons b bs ih =>
      rcases sends with - | ⟨n | errno⟩
      · simp only [Uncut, iff_true]
        exact fun w hw => deliver_nil_complete _ w (List.dropLast_subset _ hw)
      · rename_i sends
        cases bs with
        | nil => simp [deliver, Uncut]
        | cons b' bs =>
            rw [deliver, List.dropLast_cons_of_ne_nil (deliver_ne_nil _ _ _), List.forall_mem_cons, ih, Uncut]
            simp only [Write.Complete, min_eq_right_iff]
      · simp [deliver, Uncut]

theorem streamIntact_iff (writes : List Write) :
    StreamIntact writes ↔ ∀ w ∈ writes.dropLast, w.Complete := by
  refine ⟨fun h => h.2, fun h => ⟨?_, h⟩⟩
  induction writes with
  | nil => exact List.prefix_refl _
  | cons w writes ih =>
      cases writes with
      | nil => simpa [Write.wire] using List.take_prefix _ _
      | cons w' writes =>
          rw [List.dropLast_cons_cons, List.forall_mem_cons] at h
          have hwire : w.wire = w.buffer := by
            rw [Write.wire, h.1]
            exact List.take_length
          rw [List.flatMap_cons (f := Write.wire), List.flatMap_cons (f := Write.buffer), hwire]
          exact (List.prefix_append_right_inj _).mpr (ih h.2)

theorem StreamIntact.of_prefix {ws vs : List Write} (h : StreamIntact vs) (hp : ws <+: vs) : StreamIntact ws := by
  rw [streamIntact_iff] at h ⊢
  obtain ⟨more, rfl⟩ := hp
  intro w hw
  apply h
  cases more with
  | nil => simpa using hw
  | cons m more =>
      rw [List.dropLast_append_of_ne_nil (List.cons_ne_nil m more)]
      exact List.mem_append_left _ (List.dropLast_subset _ hw)

def sending (conn : Connection) (sends : List SendResult) (writes : List Write) : Connection :=
  { conn with sends, writes }

theorem asyncRead_sending (conn : Connection) (sends : List SendResult) (writes : List Write) (size : Nat) :
    (sending conn sends writes).asyncRead size =
      ((conn.asyncRead size).1, (conn.asyncRead size).2.1,
        sending (conn.asyncRead size).2.2 sends writes) := by
  unfold Connection.asyncRead
  by_cases hc : conn.connected
  · have hc' : (sending conn sends writes).connected := hc
    simp only [hc, hc', Bool.not_true, Bool.false_eq_true, if_false]
    by_cases hn : (recv size conn.arrivals).1 ≤ 0
    · have hstate : conn.state = .connected := by simpa [Connection.connected] using hc
      simp [hn, sending, Connection.handleError, Connection.close, hstate]
    · simp [hn, sending]
  · have hc' : ¬(sending conn sends writes).connected := hc
    simp [hc, hc']

namespace Session

def sending (s : Session σ) (sends : List SendResult) (writes : List Write) : Session σ :=
  { s with conn := Rpc.sending s.conn sends writes }

theorem readBody_sending (s : Session σ) (sends : List SendResult) (writes : List Write) (remaining : Nat) :
    (s.sending sends writes).readBody remaining = (s.readBody remaining).map (sending · sends writes) := by
  unfold readBody
  split
  · simp only [sending, asyncRead_sending]
    split <;> rfl
  · rfl

variable (registry : ServiceRegistry σ) (heap : Mem)

/-- Up to its write, if it comes to one, a piece of an iteration does not depend on the sends. -/
def WritesLast (piece : Session σ → Flow (Session σ)) (s : Session σ) : Prop :=
  (∃ t : Session σ, ∀ sends writes, piece (s.sending sends writes) = .stop (t.sending sends writes)) ∨
    ∃ (t : Session σ) (response : Bytes), ∀ sends writes,
      piece (s.sending sends writes) = (t.sending sends writes).respond response

theorem receive_writesLast (header : ProtocolHeader) (s : Session σ) :
    WritesLast (receive registry heap header) s := by
  by_cases hv : header.valid
  · by_cases hmax : s.server.config.maxRequestSize < header.totalSize
    · left
      refine ⟨s.countError, fun sends writes => ?_⟩
      simp [receive, hv, sending, hmax, countError]
    · let grown := { s with buffer := grow s.buffer header.totalSize }
      have hreceive (sends : List SendResult) (writes : List Write) :
          receive registry heap header (s.sending sends writes) =
            ((grown.readBody (header.totalSize - ProtocolHeader.size)).map (sending · sends writes)).andThen
              (process registry heap header.totalSize) := by
        rw [← readBody_sending]
        simp [receive, hv, sending, hmax, grown]
      cases hb : grown.readBody (header.totalSize - ProtocolHeader.size) with
      | stop t =>
          left
          refine ⟨t, fun sends writes => ?_⟩
          rw [hreceive, hb]
          rfl
      | next t =>
          right
          let r := t.server.handleMessage registry (ofList t.buffer heap) header.totalSize
          refine ⟨{ t with server := r.2, handled := t.handled ++ [t.buffer.take header.totalSize] }, r.1,
            fun sends writes => ?_⟩
          rw [hreceive, hb]
          rfl
  · left
    refine ⟨s.countError, fun sends writes => ?_⟩
    simp [receive, hv, sending, countError]

theorem serve_writesLast (s : Session σ) : WritesLast (serve registry heap) s := by
  by_cases hc : s.conn.connected
  · let r := s.conn.asyncRead ProtocolHeader.size
    let t := { s with conn := r.2.2, buffer := store s.buffer 0 r.2.1 }
    have hserve (sends : List SendResult) (writes : List Write) :
        serve registry heap (s.sending sends writes) =
          if r.1 ≤ 0 then .stop (t.sending sends writes)
          else receive registry heap (.load (ofList t.buffer heap) 0) (t.sending sends writes) := by
      have hc' : (s.sending sends writes).conn.connected := hc
      simp only [serve, hc', Bool.not_true, Bool.false_eq_true, if_false]
      simp only [sending, asyncRead_sending]
      rfl
    by_cases hn : r.1 ≤ 0
    · left
      refine ⟨t, fun sends writes => ?_⟩
      rw [hserve, if_pos hn]
    · have hreceive := receive_writesLast registry heap (.load (ofList t.buffer heap) 0) t
      simpa only [WritesLast, hserve, if_neg hn] using hreceive
  · left
    refine ⟨s, fun sends writes => ?_⟩
    have hc' : (s.sending sends writes).conn.connected = false := Bool.eq_false_of_not_eq_true hc
    simp [serve, hc']

theorem respond_accepted (s : Session σ) {response : Bytes} {sends rest : List SendResult}
    (hc : s.conn.connected) (hr : response ≠ []) {n : Int} (h : send response.length sends = (n, rest))
    (hn : 0 < n) (writes : List Write) :
    (s.sending sends writes).respond response = .next (s.sending rest (writes ++ [⟨response, n.toNat⟩])) := by
  have hc' : (s.sending sends writes).conn.connected := hc
  have hsends : (s.sending sends writes).conn.sends = sends := rfl
  have hn' : ¬n ≤ 0 := Int.not_le.mpr hn
  simp only [respond, hr, if_false, Connection.asyncWrite, hc', Bool.not_true, Bool.false_eq_true, hsends, h, hn']
  rfl

theorem respond_failed (s : Session σ) {response : Bytes} {sends rest : List SendResult}
    (hc : s.conn.connected) (hr : response ≠ []) {n : Int} (h : send response.length sends = (n, rest))
    (hn : n ≤ 0) (writes : List Write) :
    ∃ t : Session σ, (s.sending sends writes).respond response = .stop t ∧
      t.conn.writes = writes ++ [⟨response, 0⟩] := by
  have hc' : (s.sending sends writes).conn.connected := hc
  have hsends : (s.sending sends writes).conn.sends = sends := rfl
  simp only [respond, hr, if_false, Connection.asyncWrite, hc', Bool.not_true, Bool.false_eq_true, hsends, h, hn,
    if_true]
  refine ⟨_, rfl, ?_⟩
  rw [Connection.handleError, Connection.close_writes, Int.toNat_of_nonpos hn]
  rfl

theorem respond_disconnected (s : Session σ) {response : Bytes} (hc : s.conn.connected = false)
    (hr : response ≠ []) (sends : List SendResult) (writes : List Write) :
    (s.sending sends writes).respond response = .stop (s.sending sends writes) := by
  have hc' : (s.sending sends writes).conn.connected = false := hc
  simp [respond, hr, Connection.asyncWrite, hc']

/-- A run in which every write is whole, and the same run under other answers to its sends:
the responses are the same, cut as the answers say. -/
theorem iterate_deliver (n : Nat) {s e : Session σ} {writes₀ : List Write}
    (h : iterate (serve registry heap) n (.next (s.sending [] writes₀)) = .stop e)
    (sends : List SendResult) (writes : List Write) :
    ∃ e' more, iterate (serve registry heap) n (.next (s.sending sends writes)) = .stop e' ∧
      e.conn.writes = writes₀ ++ deliver [] more ∧ e'.conn.writes = writes ++ deliver sends more := by
  induction n generalizing s writes₀ sends writes with
  | zero => cases h
  | succ n ih =>
      rw [iterate_succ] at h ⊢
      rcases serve_writesLast registry heap s with ⟨t, ht⟩ | ⟨t, response, ht⟩
      · rw [ht, iterate_stop] at h
        rw [ht, iterate_stop]
        cases h
        exact ⟨_, [], rfl, by simp [deliver]; rfl, by simp [deliver]; rfl⟩
      · rw [ht] at h ⊢
        by_cases hr : response = []
        · have hnext (sends : List SendResult) (writes : List Write) :
              (t.sending sends writes).respond response = .next (t.sending sends writes) := if_pos hr
          rw [hnext] at h ⊢
          exact ih h sends writes
        · cases hc : t.conn.connected with
          | false =>
              rw [respond_disconnected t hc hr, iterate_stop] at h ⊢
              cases h
              exact ⟨_, [], rfl, by simp [deliver]; rfl, by simp [deliver]; rfl⟩
          | true =>
              have hpos : 0 < response.length := List.length_pos_iff.mpr hr
              rw [respond_accepted t hc hr (show send _ [] = ((response.length : Int), []) from rfl) (by omega),
                Int.toNat_natCast] at h
              -- the run with whole writes goes on; the other one does unless its send fails
              rcases sends with - | ⟨accepted | errno⟩
              · obtain ⟨e', more, he', hwrites, hwrites'⟩ := ih h [] (writes ++ [⟨response, response.length⟩])
                refine ⟨e', response :: more, ?_, by simpa [deliver] using hwrites, by simpa [deliver] using hwrites'⟩
                rw [respond_accepted t hc hr (show send _ [] = ((response.length : Int), []) from rfl) (by omega),
                  Int.toNat_natCast]
                exact he'
              · rename_i sends
                obtain ⟨e', more, he', hwrites, hwrites'⟩ :=
                  ih h sends (writes ++ [⟨response, min (max accepted 1) response.length⟩])
                refine ⟨e', response :: more, ?_, by simpa [deliver] using hwrites, by simpa [deliver] using hwrites'⟩
                have hsend : send response.length (.accept accepted :: sends) =
                    (((min (max accepted 1) response.length : Nat) : Int), sends) := by simp [send]
                rw [respond_accepted t hc hr hsend (by omega), Int.toNat_natCast]
                exact he'
              · rename_i sends
                obtain ⟨-, more, -, hwrites, -⟩ := ih h [] []
                obtain ⟨e', he', hwrites'⟩ := respond_failed t hc hr
                  (show send _ (.fail errno :: sends) = (-(errno : Int), sends) from rfl) (by omega) writes
                refine ⟨e', response :: more, ?_, by simpa [deliver] using hwrites, by simpa [deliver] using hwrites'⟩
                rw [he', iterate_stop]

theorem respond_writes (s : Session σ) (response : Bytes) :
    s.conn.writes <+: (s.respond response).state.conn.writes := by
  have hwrite : s.conn.writes <+: (s.conn.asyncWrite response).2.writes := by
    rw [Connection.asyncWrite]
    split
    · exact List.prefix_refl _
    · dsimp only
      split
      · rw [Connection.handleError, Connection.close_writes]
        exact List.prefix_append _ _
      · exact List.prefix_append _ _
  rw [respond]
  split
  · exact List.prefix_refl _
  · dsimp only
    split <;> exact hwrite

theorem serve_writes (s : Session σ) : s.conn.writes <+: (serve registry heap s).state.conn.writes := by
  rcases serve_writesLast registry heap s with ⟨t, ht⟩ | ⟨t, response, ht⟩
  · have hs := ht s.conn.sends s.conn.writes
    rw [show s.sending s.conn.sends s.conn.writes = s from rfl] at hs
    rw [hs]
    exact List.prefix_refl _
  · have hs := ht s.conn.sends s.conn.writes
    rw [show s.sending s.conn.sends s.conn.writes = s from rfl] at hs
    rw [hs]
    exact respond_writes (t.sending s.conn.sends s.conn.writes) response

theorem iterate_writes {m n : Nat} (hmn : m ≤ n) (s : Session σ) :
    (iterate (serve registry heap) m (.next s)).state.conn.writes <+:
      (iterate (serve registry heap) n (.next s)).state.conn.writes := by
  obtain ⟨k, rfl⟩ := Nat.exists_eq_add_of_le hmn
  rw [iterate_add]
  apply iterate_inv fun t : Session σ =>
    (iterate (serve registry heap) m (.next s)).state.conn.writes <+: t.conn.writes
  · intro t ht
    exact ht.trans (serve_writes registry heap t)
  · exact List.prefix_refl _

end Session

def responses (registry : ServiceRegistry σ) (heap : Mem) (server : RpcServer σ) (conn : Connection) :
    List Bytes :=
  (handleConnection registry heap server (sending conn [] [])).conn.writes.map Write.buffer

theorem map_buffer_deliver (bs : List Bytes) : (deliver [] bs).map Write.buffer = bs := by
  induction bs with
  | nil => rfl
  | cons b bs ih => simp [deliver, ih]

theorem handleConnection_deliver (registry : ServiceRegistry σ) (heap : Mem) (server : RpcServer σ)
    (conn : Connection) (sends : List SendResult) :
    (handleConnection registry heap server (sending conn sends [])).conn.writes =
      deliver sends (responses registry heap server conn) := by
  obtain ⟨e', more, he', hwrites, hwrites'⟩ := Session.iterate_deliver registry heap _
    (s := { server, conn }) (handleConnection_stops registry heap server (sending conn [] [])) sends []
  rw [handleConnection_eq he', hwrites', responses, hwrites, List.nil_append, List.nil_append, map_buffer_deliver]

/-- The response stream stays intact in every state of a run exactly when no send cuts a response
that has another one behind it. -/
theorem streamIntact_run_iff (registry : ServiceRegistry σ) (heap : Mem) (server : RpcServer σ)
    (conn : Connection) (sends : List SendResult) :
    (∀ n, StreamIntact (iterate (Session.serve registry heap) n
        (.next { server, conn := sending conn sends [] })).state.conn.writes) ↔
      Uncut sends (responses registry heap server conn) := by
  have hend := handleConnection_stops registry heap server (sending conn sends [])
  rw [← deliver_complete_iff, ← handleConnection_deliver, ← streamIntact_iff]
  constructor
  · intro h
    have hlast := h ((sending conn sends []).pending + 1)
    rw [hend] at hlast
    exact hlast
  · intro h n
    rcases Nat.le_total n ((sending conn sends []).pending + 1) with hle | hle
    · have hp := Session.iterate_writes registry heap hle { server, conn := sending conn sends [] }
      rw [hend] at hp
      exact h.of_prefix hp
    · rw [iterate_mono hend hle]
      exact h

instance (writes : List Write) : Decidable (StreamIntact writes) :=
  inferInstanceAs (Decidable (_ ∧ ∀ w ∈ writes.dropLast, w.accepted = w.buffer.length))

def twoRequests : Bytes :=
  (RpcMessage.createRequest 1 [65] [66] [] 30000 0).serialize 0 ++
    (RpcMessage.createRequest 2 [65] [66] [] 30000 0).serialize 0

theorem twoRequests_not_intact :
    ¬StreamIntact (iterate (Session.serve (∅ : ServiceRegistry Unit) fun _ => 0) 2
      (.next { server := { world := () }
               conn := sending { fd := 3, state := .connected, arrivals := whole twoRequests }
                 [.accept 1] [] })).state.conn.writes := by
  decide +kernel

end CoroRpc.Rpc

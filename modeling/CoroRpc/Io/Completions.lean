import CoroRpc.Io.IoUring
import CoroRpc.Lib.Recycle
import CoroRpc.Lib.Trace

namespace CoroRpc.Io

open IoUring Recycle Trace

structure Reaped where
  cqe : Cqe Nat
  prepared : Nat
  dispatch : Dispatch Nat

-- A ring with the kernel behind it. The callback of the `n`-th prepared operation is the number `n`, from 1 on;
-- `peak` is the largest number of operations that were outstanding at once.
structure RingRun where
  ring : IoUring Nat
  inflight : List (Sqe Nat) := []
  cq : List (Cqe Nat) := []
  prepared : Nat := 0
  peak : Nat := 0
  log : List Reaped := []

/-- `submit` passes the first `n` prepared SQEs to the kernel, `complete` ends the `i`-th of those in its
hands, `message` is a CQE that another ring sent, `reap` processes the next CQE. What a callback prepares
stands behind its `reap`; no callback processes the ring, whose code takes a CQE off behind its callback. -/
inductive RingEvent
  | prepare (op : Op)
  | runOnceTimeout (ts : UInt64)
  | submit (n : Nat)
  | complete (i : Nat) (res : Int32) (flags : UInt32)
  | message (userData : UInt64)
  | reap (first : Bool)

namespace RingRun

def start (queueDepth : Nat) : RingRun := { ring := { queueDepth } }

def outstanding (r : RingRun) : Nat := r.ring.sq.length + r.inflight.length + r.cq.length

def watch (r : RingRun) : RingRun := { r with peak := max r.peak r.outstanding }

def move (r : RingRun) : RingEvent → Option RingRun
  | .prepare op =>
      match r.ring.prepare op (r.prepared + 1) with
      | .ok ring => some { r with ring, prepared := r.prepared + 1 }
      | .error _ => some r
  | .runOnceTimeout ts => some { r with ring := r.ring.prepareRunOnce ts }
  | .submit n =>
      some { r with ring := { r.ring with sq := r.ring.sq.drop n }, inflight := r.inflight ++ r.ring.sq.take n }
  | .complete i res flags =>
      match r.inflight[i]? with
      | none => none
      | some sqe =>
          some { r with inflight := r.inflight.eraseIdx i, cq := r.cq ++ [⟨sqe.userData, res, flags, sqe.origin⟩] }
  | .message userData => some { r with cq := r.cq ++ [⟨userData, 0, 0, .message⟩] }
  | .reap first =>
      match r.cq with
      | [] => none
      | cqe :: cq =>
          let dispatch := if first then r.ring.processFirst cqe else r.ring.processCqe cqe
          some { r with cq, log := r.log ++ [⟨cqe, r.prepared, dispatch⟩] }

def step (r : RingRun) (ev : RingEvent) : Option RingRun := (r.move ev).map watch

end RingRun

/-- The `user_data` of an operation is its number modulo the size of the table. -/
def Stamped (prepared : Nat) (userData : UInt64) : Origin Nat → Prop
  | .prepared n => 0 < n ∧ n ≤ prepared ∧ userData.toNat = n % kMaxCallbacks
  | .runOnce => userData = 0
  | .message => True

theorem Stamped.mono {p q : Nat} {u : UInt64} {o : Origin Nat} (h : Stamped p u o) (hpq : p ≤ q) :
    Stamped q u o := by
  cases o with
  | prepared n => exact ⟨h.1, h.2.1.trans hpq, h.2.2⟩
  | runOnce => exact h
  | message => exact h

namespace RingRun

/-- What a CQE with this `user_data` invokes once `prepared` operations have been prepared. -/
def Invokes (prepared : Nat) (userData : UInt64) (n : Nat) : Prop :=
  0 < userData.toNat ∧ userData.toNat < kMaxCallbacks ∧
    Recycle.Holds kMaxCallbacks prepared userData.toNat n

structure Consistent (r : RingRun) : Prop where
  counter : r.ring.nextCallbackId.toNat = (r.prepared + 1) % 2 ^ 64
  table : ∀ i n, r.ring.callbacks i = some n ↔ Recycle.Holds kMaxCallbacks r.prepared i n
  queued : ∀ e ∈ r.ring.sq, Stamped r.prepared e.userData e.origin
  inflight : ∀ e ∈ r.inflight, Stamped r.prepared e.userData e.origin
  completed : ∀ e ∈ r.cq, Stamped r.prepared e.userData e.origin
  logged : ∀ x ∈ r.log, Stamped x.prepared x.cqe.userData x.cqe.origin ∧
    ∀ n, x.dispatch = .invoked n ↔ Invokes x.prepared x.cqe.userData n

theorem Consistent.processCqe {r : RingRun} (h : r.Consistent) (cqe : Cqe Nat) (n : Nat) :
    r.ring.processCqe cqe = .invoked n ↔ Invokes r.prepared cqe.userData n := by
  have hzero : cqe.userData = 0 ↔ cqe.userData.toNat = 0 := by
    rw [← UInt64.toNat_inj]
    rfl
  have hlarge : UInt64.ofNat kMaxCallbacks ≤ cqe.userData ↔ kMaxCallbacks ≤ cqe.userData.toNat := by
    rw [UInt64.le_iff_toNat_le]
    rfl
  unfold IoUring.processCqe getCallback Invokes
  by_cases hu : cqe.userData = 0 ∨ UInt64.ofNat kMaxCallbacks ≤ cqe.userData
  · rw [if_pos hu]
    rw [hzero, hlarge] at hu
    simp only [reduceCtorEq, false_iff, not_and]
    omega
  · rw [if_neg hu]
    rw [hzero, hlarge] at hu
    have hslot : (slot cqe.userData).val = cqe.userData.toNat := Nat.mod_eq_of_lt (by omega)
    rw [← hslot, ← h.table]
    cases r.ring.callbacks (slot cqe.userData) with
    | none => simp
    | some m =>
        simp only [Dispatch.invoked.injEq, Option.some.injEq]
        omega

theorem start_consistent (queueDepth : Nat) : (start queueDepth).Consistent where
  counter := rfl
  table i n := by
    simp only [start, reduceCtorEq, false_iff]
    exact not_holds_zero
  queued _ := nofun
  inflight _ := nofun
  completed _ := nofun
  logged _ := nofun

theorem setCallback_toNat {r : RingRun} (h : r.Consistent) (callback : Nat) :
    (r.ring.setCallback callback).1.toNat = (r.prepared + 1) % kMaxCallbacks := by
  rw [setCallback]
  rw [UInt64.toNat_mod, h.counter]
  exact Nat.mod_mod_of_dvd _ (by decide)

theorem Consistent.prepare {r : RingRun} (h : r.Consistent) {op : Op} {ring : IoUring Nat}
    (hp : r.ring.prepare op (r.prepared + 1) = .ok ring) :
    Consistent { r with ring, prepared := r.prepared + 1 } := by
  have hid := setCallback_toNat h (r.prepared + 1)
  rw [IoUring.prepare] at hp
  split at hp
  · cases hp
    have hslot : (slot (r.ring.setCallback (r.prepared + 1)).1).val = (r.prepared + 1) % kMaxCallbacks := by
      show (r.ring.setCallback (r.prepared + 1)).1.toNat % kMaxCallbacks = _
      rw [hid, Nat.mod_mod]
    refine ⟨?_, fun i n => ?_, fun e he => ?_, fun e he => (h.inflight e he).mono (Nat.le_succ _),
      fun e he => (h.completed e he).mono (Nat.le_succ _), h.logged⟩
    · show (r.ring.nextCallbackId + 1).toNat = _
      rw [UInt64.toNat_add, h.counter, UInt64.toNat_one, Nat.mod_add_mod]
    · rw [holds_succ (by decide)]
      show Function.update r.ring.callbacks (slot (r.ring.setCallback (r.prepared + 1)).1) _ i = some n ↔ _
      by_cases hi : i = slot (r.ring.setCallback (r.prepared + 1)).1
      · rw [hi, Function.update_self, if_pos hslot, Option.some_inj, eq_comm]
      · have hval : ¬i.val = (r.prepared + 1) % kMaxCallbacks := fun heq => hi (Fin.ext (heq.trans hslot.symm))
        rw [Function.update_of_ne hi, if_neg hval]
        exact h.table i n
    · rcases List.mem_append.mp he with he | he
      · exact (h.queued e he).mono (Nat.le_succ _)
      · rw [List.mem_singleton.mp he]
        exact ⟨Nat.succ_pos _, Nat.le_refl _, hid⟩
  · cases hp

theorem Consistent.move {r s : RingRun} (h : r.Consistent) {ev : RingEvent} (hs : r.move ev = some s) :
    s.Consistent := by
  cases ev with
  | prepare op =>
      simp only [RingRun.move] at hs
      split at hs
      · rename_i ring hp
        cases hs
        exact h.prepare hp
      · cases hs
        exact h
  | runOnceTimeout ts =>
      cases hs
      rw [prepareRunOnce]
      split
      · refine { h with queued := fun e he => ?_ }
        rcases List.mem_append.mp he with he | he
        · exact h.queued e he
        · rw [List.mem_singleton.mp he]
          rfl
      · exact h
  | submit n =>
      cases hs
      refine { h with queued := fun e he => h.queued e (List.mem_of_mem_drop he), inflight := fun e he => ?_ }
      rcases List.mem_append.mp he with he | he
      · exact h.inflight e he
      · exact h.queued e (List.mem_of_mem_take he)
  | complete i res flags =>
      simp only [RingRun.move] at hs
      split at hs
      · cases hs
      · rename_i sqe hsqe
        cases hs
        refine { h with
          inflight := fun e he => h.inflight e (List.mem_of_mem_eraseIdx he), completed := fun e he => ?_ }
        rcases List.mem_append.mp he with he | he
        · exact h.completed e he
        · rw [List.mem_singleton.mp he]
          exact h.inflight sqe (List.mem_of_getElem? hsqe)
  | message userData =>
      cases hs
      refine { h with completed := fun e he => ?_ }
      rcases List.mem_append.mp he with he | he
      · exact h.completed e he
      · rw [List.mem_singleton.mp he]
        trivial
  | reap first =>
      simp only [RingRun.move] at hs
      split at hs
      · cases hs
      · rename_i cqe cq hcq
        cases hs
        have hcompleted := h.completed
        rw [hcq, List.forall_mem_cons] at hcompleted
        refine { h with completed := hcompleted.2, logged := fun x hx => ?_ }
        rcases List.mem_append.mp hx with hx | hx
        · exact h.logged x hx
        · rw [List.mem_singleton.mp hx]
          refine ⟨hcompleted.1, fun n => ?_⟩
          simp only [processFirst_eq, ite_self]
          exact h.processCqe cqe n

theorem Consistent.step {r s : RingRun} (h : r.Consistent) {ev : RingEvent} (hs : r.step ev = some s) :
    s.Consistent := by
  obtain ⟨t, ht, rfl⟩ := Option.map_eq_some_iff.mp hs
  exact { h.move ht with }

theorem Consistent.run {r s : RingRun} (h : r.Consistent) {evs : List RingEvent}
    (hs : Trace.run RingRun.step r evs = some s) : s.Consistent :=
  run_inv (fun _ _ _ h hs => Consistent.step h hs) h hs

theorem Consistent.invokes_iff {r : RingRun} (h : r.Consistent) {x : Reaped} (hx : x ∈ r.log) {n : Nat}
    (hn : x.cqe.origin = .prepared n) : (∃ c, x.dispatch = .invoked c) ↔ ¬kMaxCallbacks ∣ n := by
  obtain ⟨hstamp, hdispatch⟩ := h.logged x hx
  rw [hn] at hstamp
  obtain ⟨hpos, hle, hdata⟩ := hstamp
  have hlt : n % kMaxCallbacks < kMaxCallbacks := Nat.mod_lt n (by decide)
  simp only [hdispatch, Invokes, hdata, exists_and_left, hlt, true_and]
  rw [Nat.dvd_iff_mod_eq_zero]
  constructor
  · rintro ⟨hne, -⟩
    exact Nat.ne_of_gt hne
  · intro hne
    have hpos := Nat.pos_of_ne_zero hne
    exact ⟨hpos, (exists_holds hpos hlt).mpr ((Nat.mod_le n _).trans hle)⟩

theorem Consistent.own_iff {r : RingRun} (h : r.Consistent) {x : Reaped} (hx : x ∈ r.log) {n : Nat}
    (hn : x.cqe.origin = .prepared n) :
    (∀ c, x.dispatch = .invoked c → c = n) ↔ kMaxCallbacks ∣ n ∨ x.prepared < n + kMaxCallbacks := by
  obtain ⟨hstamp, hdispatch⟩ := h.logged x hx
  rw [hn] at hstamp
  obtain ⟨hpos, hle, hdata⟩ := hstamp
  have hlt : n % kMaxCallbacks < kMaxCallbacks := Nat.mod_lt n (by decide)
  simp only [hdispatch, Invokes, hdata]
  rw [Nat.dvd_iff_mod_eq_zero]
  constructor
  · intro hown
    by_cases hzero : n % kMaxCallbacks = 0
    · exact .inl hzero
    · right
      have hne := Nat.pos_of_ne_zero hzero
      obtain ⟨c, hc⟩ := (exists_holds hne hlt).mpr ((Nat.mod_le n _).trans hle)
      obtain rfl := hown c ⟨hne, hlt, hc⟩
      exact hc.2.2.1
  · rintro (hzero | hrecent) c ⟨hne, -, hc⟩
    · omega
    · exact hc.unique ⟨hpos, hle, hrecent, rfl⟩

structure Quiet (held : List (Sqe Nat)) (n : Nat) (r : RingRun) : Prop where
  room : 0 < r.ring.queueDepth
  sq : r.ring.sq = []
  inflight : r.inflight = held
  cq : r.cq = []
  prepared : r.prepared = n

def cycle (held : Nat) : List RingEvent := [.prepare .nop, .submit 1, .complete held 0 0, .reap true]

theorem Quiet.cycle {held : List (Sqe Nat)} {n : Nat} {r : RingRun} (h : Quiet held n r) :
    ∃ s x, run RingRun.step r (cycle held.length) = some s ∧ Quiet held (n + 1) s ∧
      s.peak ≤ max r.peak (held.length + 1) ∧ s.log = r.log ++ [x] ∧ x.cqe.origin = .prepared (n + 1) := by
  obtain ⟨ring, inflight, cq, prepared, peak, log⟩ := r
  obtain ⟨hroom, hsq, hinflight, hcq, hprepared⟩ := h
  dsimp only at hroom hsq hinflight hcq hprepared
  subst hinflight hcq hprepared
  let c := ring.setCallback (prepared + 1)
  let sqe : Sqe Nat := ⟨.nop, c.1, .prepared (prepared + 1)⟩
  let cqe : Cqe Nat := ⟨c.1, 0, 0, .prepared (prepared + 1)⟩
  have hprepare : ring.prepare .nop (prepared + 1) = .ok { c.2 with sq := [sqe] } := by
    simp [prepare, hsq, hroom, setCallback, c, sqe]
  let idle : IoUring Nat := { c.2 with sq := [] }
  let queued := watch ⟨{ c.2 with sq := [sqe] }, inflight, [], prepared + 1, peak, log⟩
  let submitted := watch ⟨idle, inflight ++ [sqe], [], prepared + 1, queued.peak, log⟩
  let completed := watch ⟨idle, inflight, [cqe], prepared + 1, submitted.peak, log⟩
  let entry : Reaped := ⟨cqe, prepared + 1, idle.processFirst cqe⟩
  let reaped := watch ⟨idle, inflight, [], prepared + 1, completed.peak, log ++ [entry]⟩
  have hqueued : step ⟨ring, inflight, [], prepared, peak, log⟩ (.prepare .nop) = some queued := by
    simp only [step, move, hprepare]
    rfl
  have hsubmitted : step queued (.submit 1) = some submitted := rfl
  have hcompleted : step submitted (.complete inflight.length 0 0) = some completed := by
    have hget : (inflight ++ [sqe])[inflight.length]? = some sqe := by simp
    have herase : (inflight ++ [sqe]).eraseIdx inflight.length = inflight := by
      rw [List.eraseIdx_append_of_length_le (Nat.le_refl _), Nat.sub_self]
      simp
    simp only [step, move, submitted, watch, hget, herase]
    rfl
  have hreaped : step completed (.reap true) = some reaped := rfl
  refine ⟨reaped, entry, ?_, ⟨hroom, rfl, rfl, rfl, rfl⟩, ?_, rfl, rfl⟩
  · exact run_cons.mpr ⟨_, hqueued, run_cons.mpr ⟨_, hsubmitted, run_cons.mpr ⟨_, hcompleted,
      run_cons.mpr ⟨_, hreaped, run_nil.mpr rfl⟩⟩⟩⟩
  · simp only [reaped, completed, submitted, queued, idle, watch, outstanding, List.length_append,
      List.length_singleton, List.length_nil]
    omega

theorem Quiet.cycles {held : List (Sqe Nat)} {n : Nat} {r : RingRun} (h : Quiet held n r) (k : Nat) :
    ∃ s, run RingRun.step r (List.replicate k (RingRun.cycle held.length)).flatten = some s ∧
      Quiet held (n + k) s ∧ s.peak ≤ max r.peak (held.length + 1) ∧
      (0 < k → ∃ x ∈ s.log, x.cqe.origin = .prepared (n + k)) := by
  induction k with
  | zero => exact ⟨r, rfl, h, Nat.le_max_left _ _, fun hk => absurd hk (Nat.lt_irrefl 0)⟩
  | succ k ih =>
      obtain ⟨s, hs, hquiet, hpeak, -⟩ := ih
      obtain ⟨t, x, ht, hquiet', hpeak', hlog, horigin⟩ := hquiet.cycle
      refine ⟨t, ?_, hquiet', by omega, fun _ => ⟨x, ?_, horigin⟩⟩
      · rw [List.replicate_succ', List.flatten_append, List.flatten_singleton]
        exact run_append hs ht
      · rw [hlog]
        exact List.mem_append_right _ (List.mem_singleton_self x)

theorem Quiet.finish {sqe : Sqe Nat} {n : Nat} {r : RingRun} (h : Quiet [sqe] n r) :
    ∃ s x, run RingRun.step r [.complete 0 0 0, .reap true] = some s ∧ s.peak ≤ max r.peak 1 ∧ x ∈ s.log ∧
      x.cqe.origin = sqe.origin ∧ x.cqe.userData = sqe.userData ∧ x.prepared = n := by
  obtain ⟨ring, inflight, cq, prepared, peak, log⟩ := r
  obtain ⟨hroom, hsq, hinflight, hcq, hprepared⟩ := h
  dsimp only at hroom hsq hinflight hcq hprepared
  subst hinflight hcq hprepared
  refine ⟨_, _, rfl, ?_, List.mem_append_right _ (List.mem_singleton_self _), rfl, rfl, rfl⟩
  simp only [watch, outstanding, hsq, List.length_append, List.length_singleton, List.length_nil,
    List.eraseIdx_cons_zero]
  omega

end RingRun

/-- Processing the CQE of the `n`-th operation prepared on a ring invokes a callback exactly when
`n` is not a multiple of the size of the table. -/
theorem completion_invokes_iff (queueDepth : Nat) (evs : List RingEvent) (s : RingRun)
    (h : run RingRun.step (.start queueDepth) evs = some s) (x : Reaped) (hx : x ∈ s.log) (n : Nat)
    (hn : x.cqe.origin = .prepared n) : (∃ c, x.dispatch = .invoked c) ↔ ¬kMaxCallbacks ∣ n :=
  ((RingRun.start_consistent queueDepth).run h).invokes_iff hx hn

theorem completion_invokes_iff_nop :
    ∃ s x, run RingRun.step (.start 8) (RingRun.cycle 0) = some s ∧ x ∈ s.log ∧
      x.cqe.origin = .prepared 1 ∧ ∃ c, x.dispatch = .invoked c := by
  refine ⟨_, _, rfl, List.mem_singleton_self _, rfl, ?_⟩
  exact (completion_invokes_iff 8 (RingRun.cycle 0) _ rfl _ (List.mem_singleton_self _) 1 rfl).mpr (by decide)

theorem completion_dropped :
    ∃ s x, run RingRun.step (.start 1024) (List.replicate kMaxCallbacks (RingRun.cycle 0)).flatten = some s ∧
      x ∈ s.log ∧ x.cqe.origin = .prepared kMaxCallbacks ∧ ¬∃ c, x.dispatch = .invoked c := by
  have hstart : RingRun.Quiet [] 0 (.start 1024) := ⟨by decide, rfl, rfl, rfl, rfl⟩
  obtain ⟨s, hs, -, -, hlast⟩ := hstart.cycles kMaxCallbacks
  obtain ⟨x, hx, horigin⟩ := hlast (by decide)
  rw [Nat.zero_add] at horigin
  have hsound := (RingRun.start_consistent 1024).run hs
  refine ⟨s, x, hs, hx, horigin, ?_⟩
  rw [hsound.invokes_iff hx horigin]
  exact not_not_intro (Nat.dvd_refl _)

/-- Whatever callback the CQE of the `n`-th operation invokes is that operation's own, exactly when
`n` is a multiple of the size of the table, so that there is none, or the ring has prepared fewer
operations than the table has slots since. -/
theorem completion_own_iff (queueDepth : Nat) (evs : List RingEvent) (s : RingRun)
    (h : run RingRun.step (.start queueDepth) evs = some s) (x : Reaped) (hx : x ∈ s.log) (n : Nat)
    (hn : x.cqe.origin = .prepared n) :
    (∀ c, x.dispatch = .invoked c → c = n) ↔ kMaxCallbacks ∣ n ∨ x.prepared < n + kMaxCallbacks :=
  ((RingRun.start_consistent queueDepth).run h).own_iff hx hn

theorem completion_own_iff_nop :
    ∃ s x, run RingRun.step (.start 8) (RingRun.cycle 0) = some s ∧ x ∈ s.log ∧
      x.cqe.origin = .prepared 1 ∧ ∀ c, x.dispatch = .invoked c → c = 1 := by
  refine ⟨_, _, rfl, List.mem_singleton_self _, rfl, ?_⟩
  exact (completion_own_iff 8 (RingRun.cycle 0) _ rfl _ (List.mem_singleton_self _) 1 rfl).mpr (by decide)

/-- One operation stays with the kernel while 65536 others come and go, never two at a time beside
it; its completion then runs the callback of the last of them. -/
theorem completion_misrouted :
    ∃ s x, run RingRun.step (.start 1024) ([.prepare .nop, .submit 1] ++
        ((List.replicate kMaxCallbacks (RingRun.cycle 1)).flatten ++ [.complete 0 0 0, .reap true])) = some s ∧
      s.peak < kMaxCallbacks ∧ x ∈ s.log ∧ x.cqe.origin = .prepared 1 ∧
      x.dispatch = .invoked (kMaxCallbacks + 1) := by
  obtain ⟨r, hr⟩ : ∃ r, run RingRun.step (.start 1024) [.prepare .nop, .submit 1] = some r := ⟨_, rfl⟩
  have hquiet : RingRun.Quiet [⟨.nop, 1, .prepared 1⟩] 1 r := by
    cases hr
    exact ⟨by decide, rfl, rfl, rfl, rfl⟩
  have hpeak₀ : r.peak ≤ 2 := by
    cases hr
    decide
  obtain ⟨s, hs, hheld, hpeak, -⟩ := hquiet.cycles kMaxCallbacks
  obtain ⟨t, x, ht, hpeak', hx, horigin, hdata, hprepared⟩ := hheld.finish
  have hrun := run_append hr (run_append hs ht)
  have hsound := (RingRun.start_consistent 1024).run hrun
  have hlarge : 2 < kMaxCallbacks := by decide
  refine ⟨t, x, hrun, ?_, hx, horigin, ?_⟩
  · rw [List.length_singleton] at hpeak
    omega
  · rw [(hsound.logged x hx).2, hdata, hprepared]
    exact ⟨by decide, by decide, by decide, by omega, by omega, by decide⟩

end CoroRpc.Io

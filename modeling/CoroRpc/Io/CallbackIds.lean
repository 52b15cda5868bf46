import CoroRpc.Io.Completions

namespace CoroRpc.Io

open IoUring Trace

variable {κ : Type}

def IoUring.peekNextCallbackId (r : IoUring κ) : UInt64 := r.nextCallbackId

namespace RingRun

/-- The operations that are prepared or with the kernel: those an async cancel can find. -/
def cancellable (r : RingRun) : List (Sqe Nat) := r.inflight ++ r.ring.sq

def targets (r : RingRun) (userData : UInt64) : List (Sqe Nat) :=
  r.cancellable.filter fun sqe => sqe.userData = userData

variable {r s : RingRun} {op : Op}

theorem step_prepare (hroom : r.ring.sq.length < r.ring.queueDepth) (hs : r.step (.prepare op) = some s) :
    s.cancellable =
      r.cancellable ++ [⟨op, (r.ring.setCallback (r.prepared + 1)).1, .prepared (r.prepared + 1)⟩] := by
  simp only [step, move, prepare, if_pos hroom] at hs
  cases hs
  exact (List.append_assoc _ _ _).symm

theorem counter_step {e : RingEvent} (he : ∀ op, e ≠ .prepare op) (hs : r.step e = some s) :
    s.ring.nextCallbackId = r.ring.nextCallbackId := by
  obtain ⟨t, ht, rfl⟩ := Option.map_eq_some_iff.mp hs
  show t.ring.nextCallbackId = _
  cases e with
  | prepare op => exact absurd rfl (he op)
  | runOnceTimeout ts =>
      cases ht
      show (r.ring.prepareRunOnce ts).nextCallbackId = _
      rw [prepareRunOnce]
      split
      · rfl
      · rfl
  | submit n =>
      cases ht
      rfl
  | complete i res flags =>
      simp only [move] at ht
      split at ht
      · cases ht
      · cases ht
        rfl
  | message userData =>
      cases ht
      rfl
  | reap first =>
      simp only [move] at ht
      split at ht
      · cases ht
      · cases ht
        rfl

theorem counter_run {evs : List RingEvent} (hevs : ∀ op, .prepare op ∉ evs)
    (hs : run RingRun.step r evs = some s) : s.ring.nextCallbackId = r.ring.nextCallbackId := by
  induction evs generalizing r with
  | nil =>
      rw [run_nil] at hs
      rw [hs]
  | cons e evs ih =>
      obtain ⟨t, ht, hs⟩ := run_cons.mp hs
      have he : ∀ op, e ≠ .prepare op := by
        rintro op rfl
        exact hevs op List.mem_cons_self
      rw [ih (fun op hop => hevs op (List.mem_cons_of_mem e hop)) hs, counter_step he ht]

theorem Consistent.stamped (h : r.Consistent) {sqe : Sqe Nat} (hsqe : sqe ∈ r.cancellable) :
    Stamped r.prepared sqe.userData sqe.origin := by
  rcases List.mem_append.mp hsqe with hsqe | hsqe
  · exact h.inflight sqe hsqe
  · exact h.queued sqe hsqe

def OwnSqes (r : RingRun) : Prop := ∀ sqe ∈ r.cancellable, sqe.origin ≠ .message

theorem OwnSqes.append {sqe : Sqe Nat} (h : r.OwnSqes) (hs : s.cancellable = r.cancellable ++ [sqe])
    (hsqe : sqe.origin ≠ .message) : s.OwnSqes := by
  intro e he
  rw [hs] at he
  rcases List.mem_append.mp he with he | he
  · exact h e he
  · rw [List.mem_singleton.mp he]
    exact hsqe

theorem OwnSqes.mono (h : r.OwnSqes) (hs : ∀ e ∈ s.cancellable, e ∈ r.cancellable) : s.OwnSqes :=
  fun e he => h e (hs e he)

theorem OwnSqes.step {e : RingEvent} (h : r.OwnSqes) (hs : r.step e = some s) : s.OwnSqes := by
  obtain ⟨t, ht, rfl⟩ := Option.map_eq_some_iff.mp hs
  show t.OwnSqes
  cases e with
  | prepare op =>
      simp only [move] at ht
      split at ht
      · next ring hring =>
          cases ht
          have hsq := congrArg (r.inflight ++ ·) (prepare_ok hring).2
          exact h.append (hsq.trans (List.append_assoc _ _ _).symm) (by simp)
      · cases ht
        exact h
  | runOnceTimeout ts =>
      cases ht
      rw [prepareRunOnce]
      split
      · exact h.append (List.append_assoc _ _ _).symm (by simp)
      · exact h
  | submit n =>
      cases ht
      apply h.mono
      intro e he
      rw [cancellable, List.append_assoc, List.take_append_drop] at he
      exact he
  | complete i res flags =>
      simp only [move] at ht
      split at ht
      · cases ht
      · cases ht
        apply h.mono
        intro e he
        rcases List.mem_append.mp he with he | he
        · exact List.mem_append_left _ (List.mem_of_mem_eraseIdx he)
        · exact List.mem_append_right _ he
  | message userData =>
      cases ht
      exact h
  | reap first =>
      simp only [move] at ht
      split at ht
      · cases ht
      · cases ht
        exact h

theorem OwnSqes.run {evs : List RingEvent} (h : r.OwnSqes) (hs : Trace.run RingRun.step r evs = some s) :
    s.OwnSqes := run_inv (fun _ _ _ h hs => OwnSqes.step h hs) h hs

theorem setCallback_eq_iff (r : IoUring Nat) (callback : Nat) :
    (r.setCallback callback).1 = r.peekNextCallbackId ↔ r.peekNextCallbackId.toNat < kMaxCallbacks := by
  show r.nextCallbackId % .ofNat kMaxCallbacks = r.nextCallbackId ↔ r.nextCallbackId.toNat < kMaxCallbacks
  rw [← UInt64.toNat_inj, UInt64.toNat_mod]
  constructor
  · intro h
    rw [← h]
    exact Nat.mod_lt _ (by decide)
  · intro h
    exact Nat.mod_eq_of_lt h

theorem Consistent.targets_nil (h : r.Consistent) (hown : r.OwnSqes)
    (hprepared : r.prepared + 1 < 2 ^ 64) : r.targets r.ring.peekNextCallbackId = [] := by
  have hcounter := h.counter
  rw [Nat.mod_eq_of_lt hprepared] at hcounter
  apply List.filter_eq_nil_iff.mpr
  intro sqe hsqe heq
  have hdata : sqe.userData = r.ring.nextCallbackId := of_decide_eq_true heq
  have hstamped := h.stamped hsqe
  cases horigin : sqe.origin with
  | prepared n =>
      rw [horigin] at hstamped
      obtain ⟨-, hle, hmod⟩ := hstamped
      rw [hdata, hcounter] at hmod
      have hmodle := Nat.mod_le n kMaxCallbacks
      omega
  | runOnce =>
      rw [horigin] at hstamped
      have hzero : sqe.userData = 0 := hstamped
      rw [← hdata, hzero] at hcounter
      cases hcounter
  | message => exact hown sqe hsqe horigin

theorem Consistent.predicted_iff (h : r.Consistent) (hown : r.OwnSqes)
    (hroom : r.ring.sq.length < r.ring.queueDepth) (hs : r.step (.prepare op) = some s) :
    s.targets r.ring.peekNextCallbackId = [⟨op, r.ring.peekNextCallbackId, .prepared (r.prepared + 1)⟩] ↔
      r.ring.peekNextCallbackId.toNat < kMaxCallbacks ∧
        (r.prepared + 1 < 2 ^ 64 ∨ r.targets r.ring.peekNextCallbackId = []) := by
  have hsplit : s.targets r.ring.peekNextCallbackId =
      r.targets r.ring.peekNextCallbackId ++
        if (r.ring.setCallback (r.prepared + 1)).1 = r.ring.peekNextCallbackId then
          [⟨op, (r.ring.setCallback (r.prepared + 1)).1, .prepared (r.prepared + 1)⟩]
        else [] := by
    rw [targets, step_prepare hroom hs, List.filter_append, List.filter_cons, List.filter_nil]
    simp only [decide_eq_true_eq]
    rfl
  have hid := setCallback_eq_iff r.ring (r.prepared + 1)
  rw [hsplit]
  constructor
  · intro heq
    split at heq
    · next hk =>
        refine ⟨hid.mp hk, .inr ?_⟩
        exact (List.append_eq_singleton_iff.mp heq).elim (fun h => h.1) fun h => absurd h.2 (List.cons_ne_nil _ _)
    · -- the target would be an older operation, whose number is smaller
      rw [List.append_nil] at heq
      have hold : (⟨op, r.ring.peekNextCallbackId, .prepared (r.prepared + 1)⟩ : Sqe Nat) ∈
          r.targets r.ring.peekNextCallbackId := by
        rw [heq]
        exact List.mem_singleton_self _
      have hle := (h.stamped (List.mem_of_mem_filter hold)).2.1
      exact absurd hle (Nat.not_succ_le_self _)
  · rintro ⟨hk, hnew⟩
    have hnil : r.targets r.ring.peekNextCallbackId = [] := by
      rcases hnew with hprepared | hnil
      · exact h.targets_nil hown hprepared
      · exact hnil
    rw [hnil, if_pos (hid.mpr hk), hid.mpr hk]
    rfl

end RingRun

/-- The value of `peek_next_callback_id` is the `user_data` of the operation prepared next, and of no
other that an async cancel could find, exactly when it is inside the table and the counter is new, or
nothing outstanding has that value. -/
theorem predicted_id_iff (queueDepth : Nat) (evs between : List RingEvent) (p r s : RingRun) (op : Op)
    (hp : run RingRun.step (.start queueDepth) evs = some p) (hbetween : ∀ op, .prepare op ∉ between)
    (hr : run RingRun.step p between = some r) (hroom : r.ring.sq.length < r.ring.queueDepth)
    (hs : r.step (.prepare op) = some s) :
    s.targets p.ring.peekNextCallbackId = [⟨op, p.ring.peekNextCallbackId, .prepared (r.prepared + 1)⟩] ↔
      p.ring.peekNextCallbackId.toNat < kMaxCallbacks ∧
        (r.prepared + 1 < 2 ^ 64 ∨ r.targets p.ring.peekNextCallbackId = []) := by
  have hrun := run_append hp hr
  have hown : (RingRun.start queueDepth).OwnSqes := fun _ => nofun
  have hpeek : p.ring.peekNextCallbackId = r.ring.peekNextCallbackId := (RingRun.counter_run hbetween hr).symm
  rw [hpeek]
  exact ((RingRun.start_consistent queueDepth).run hrun).predicted_iff (hown.run hrun) hroom hs

theorem predicted_id_first :
    ∃ r s, run RingRun.step (.start 8) [.prepare .nop, .submit 1] = some r ∧
      r.step (.prepare (.timeout 0 0 0)) = some s ∧ r.ring.peekNextCallbackId = 2 ∧
      s.targets 2 = [⟨.timeout 0 0 0, 2, .prepared 2⟩] := by
  refine ⟨_, _, rfl, rfl, rfl, ?_⟩
  exact (predicted_id_iff 8 [.prepare .nop] [.submit 1] _ _ _ (.timeout 0 0 0) rfl (fun _ => by simp) rfl
    (by decide) rfl).mpr ⟨by decide, .inl (by decide)⟩

/-- After 65535 operations the counter says 65536, and the next operation has the `user_data` 0. -/
theorem predicted_id_wrong :
    ∃ r s, run RingRun.step (.start 1024) (List.replicate 65535 (RingRun.cycle 0)).flatten = some r ∧
      r.step (.prepare .nop) = some s ∧ r.ring.peekNextCallbackId = 65536 ∧ s.targets 65536 = [] ∧
      s.targets 0 = [⟨.nop, 0, .prepared 65536⟩] := by
  have hstart : RingRun.Quiet [] 0 (.start 1024) := ⟨by decide, rfl, rfl, rfl, rfl⟩
  obtain ⟨r, hr, hquiet, -, -⟩ := hstart.cycles 65535
  have hconsistent := (RingRun.start_consistent 1024).run hr
  have hprepared : r.prepared = 65535 := hquiet.prepared.trans (Nat.zero_add _)
  have hcounter : r.ring.nextCallbackId = 65536 := by
    apply UInt64.toNat_inj.mp
    rw [hconsistent.counter, hprepared]
    rfl
  have hroom : r.ring.sq.length < r.ring.queueDepth := by
    rw [hquiet.sq]
    exact hquiet.room
  obtain ⟨s, hs⟩ : ∃ s, r.step (.prepare .nop) = some s := by
    simp only [RingRun.step, RingRun.move, prepare, if_pos hroom]
    exact ⟨_, rfl⟩
  have hcancellable : s.cancellable = [⟨.nop, 0, .prepared 65536⟩] := by
    have hid : (r.ring.setCallback (r.prepared + 1)).1 = 0 := by
      show r.ring.nextCallbackId % .ofNat kMaxCallbacks = 0
      rw [hcounter]
      rfl
    rw [RingRun.step_prepare hroom hs, hid, hprepared, RingRun.cancellable, hquiet.inflight, hquiet.sq]
    rfl
  refine ⟨r, s, hr, hs, hcounter, ?_, ?_⟩
  · rw [RingRun.targets, hcancellable]
    rfl
  · rw [RingRun.targets, hcancellable]
    rfl

end CoroRpc.Io

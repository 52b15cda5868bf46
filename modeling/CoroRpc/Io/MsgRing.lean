import CoroRpc.Io.Completions
import Mathlib.Data.List.AList

namespace CoroRpc.Io

open IoUring Trace

variable {τ : Type}

structure EventLoopThread (τ : Type) where
  io : RingRun
  ringFd : Int32
  nextTaskId : UInt64 := 1
  pendingTasks : AList fun _ : UInt64 => τ := ∅

structure RingPair (τ : Type) where
  caller : RingRun
  target : EventLoopThread τ

/-- `post` is a `post_via_msg_ring` whose `submit` goes through or throws; `deliver` is the kernel carrying out
the `i`-th operation it holds for the caller, a `MSG_RING` to the target. -/
inductive PairEvent (τ : Type)
  | caller (ev : RingEvent)
  | target (ev : RingEvent)
  | post (task : τ) (submits : Bool)
  | deliver (i : Nat)

namespace EventLoopThread

def postViaMsgRing (t : EventLoopThread τ) (caller : RingRun) (task : τ) (submits : Bool) :
    Bool × RingRun × EventLoopThread τ :=
  let taskId := t.nextTaskId
  let t := { t with nextTaskId := t.nextTaskId + 1, pendingTasks := t.pendingTasks.insert taskId task }
  match caller.ring.prepareMsgRing t.ringFd taskId (caller.prepared + 1) with
  | .error _ => (false, caller, { t with pendingTasks := t.pendingTasks.erase taskId })
  | .ok ring =>
      let caller := { caller with ring, prepared := caller.prepared + 1 }
      if submits then
        (true, { caller with ring := { ring with sq := [] }, inflight := caller.inflight ++ ring.sq }, t)
      -- the SQE stays in the queue when `submit` throws
      else (false, caller, { t with pendingTasks := t.pendingTasks.erase taskId })

end EventLoopThread

namespace RingPair

def start (callerDepth targetDepth : Nat) (ringFd : Int32) : RingPair τ :=
  { caller := .start callerDepth, target := { io := .start targetDepth, ringFd } }

/-- Messages reach the target through `deliver` only. -/
def step (p : RingPair τ) : PairEvent τ → Option (RingPair τ)
  | .caller ev => (p.caller.step ev).map fun caller => { p with caller }
  | .target (.message _) => none
  | .target ev => (p.target.io.step ev).map fun io => { p with target := { p.target with io } }
  | .post task submits =>
      let r := p.target.postViaMsgRing p.caller task submits
      some { caller := r.2.1, target := r.2.2 }
  | .deliver i =>
      match p.caller.inflight[i]? with
      | some ⟨.msgRing fd userData, _, _⟩ =>
          if fd = p.target.ringFd then
            (p.caller.step (.complete i 0 0)).bind fun caller =>
              (p.target.io.step (.message userData)).map fun io => ⟨caller, { p.target with io }⟩
          else none
      | _ => none

theorem postViaMsgRing_io (t : EventLoopThread τ) (caller : RingRun) (task : τ) (submits : Bool) :
    (t.postViaMsgRing caller task submits).2.2.io = t.io := by
  rw [EventLoopThread.postViaMsgRing]
  dsimp only
  split
  · rfl
  · split <;> rfl

theorem step_target {p q : RingPair τ} {ev : PairEvent τ} (h : p.step ev = some q) :
    q.target.io = p.target.io ∨ ∃ e, p.target.io.step e = some q.target.io := by
  cases ev with
  | caller ev =>
      obtain ⟨caller, -, rfl⟩ := Option.map_eq_some_iff.mp h
      exact .inl rfl
  | target ev =>
      cases ev with
      | message userData => cases h
      | _ =>
          simp only [step] at h
          obtain ⟨io, hio, rfl⟩ := Option.map_eq_some_iff.mp h
          exact .inr ⟨_, hio⟩
  | post task submits =>
      cases h
      exact .inl (postViaMsgRing_io _ _ _ _)
  | deliver i =>
      simp only [step] at h
      split at h
      · split at h
        · obtain ⟨caller, -, h⟩ := Option.bind_eq_some_iff.mp h
          obtain ⟨io, hio, rfl⟩ := Option.map_eq_some_iff.mp h
          exact .inr ⟨_, hio⟩
        · cases h
      · cases h

theorem run_consistent {callerDepth targetDepth : Nat} {ringFd : Int32} {evs : List (PairEvent τ)}
    {p : RingPair τ} (h : run step (start callerDepth targetDepth ringFd) evs = some p) :
    p.target.io.Consistent := by
  refine run_inv (I := fun q : RingPair τ => q.target.io.Consistent) (fun q ev q' hq hstep => ?_)
    (RingRun.start_consistent targetDepth) h
  rcases step_target hstep with heq | ⟨e, he⟩
  · rw [heq]
    exact hq
  · exact hq.step he

end RingPair

/-- A message invokes none of the target's callbacks exactly when its task id is no index into the
table or the target has not yet prepared that many operations. -/
theorem message_invokes_none_iff (callerDepth targetDepth : Nat) (ringFd : Int32) (evs : List (PairEvent τ))
    (p : RingPair τ) (h : run RingPair.step (.start callerDepth targetDepth ringFd) evs = some p) :
    ∀ x ∈ p.target.io.log, x.cqe.origin = .message →
      ((¬∃ c, x.dispatch = .invoked c) ↔
        x.cqe.userData = 0 ∨ kMaxCallbacks ≤ x.cqe.userData.toNat ∨ x.prepared < x.cqe.userData.toNat) := by
  intro x hx _
  have hdispatch := ((RingPair.run_consistent h).logged x hx).2
  have hzero : x.cqe.userData = 0 ↔ x.cqe.userData.toNat = 0 := by
    rw [← UInt64.toNat_inj]
    rfl
  simp only [hdispatch, RingRun.Invokes, exists_and_left]
  rw [hzero]
  constructor
  · intro hnone
    by_contra hcond
    simp only [not_or, Nat.not_le, Nat.not_lt] at hcond
    obtain ⟨hne, hlt, hle⟩ := hcond
    have hpos := Nat.pos_of_ne_zero hne
    exact hnone ⟨hpos, hlt, (Recycle.exists_holds hpos hlt).mpr hle⟩
  · rintro hcond ⟨hpos, hlt, hholds⟩
    have hle := (Recycle.exists_holds hpos hlt).mp hholds
    omega

theorem message_invokes_none_before_prepare :
    ∃ p x, run RingPair.step (.start 8 8 4) [.post () true, .deliver 0, .target (.reap true)] = some p ∧
      x ∈ p.target.io.log ∧ x.cqe.origin = .message ∧ ¬∃ c, x.dispatch = .invoked c := by
  refine ⟨_, _, rfl, List.mem_singleton_self _, rfl, ?_⟩
  exact (message_invokes_none_iff 8 8 4 [.post () true, .deliver 0, .target (.reap true)] _ rfl _
    (List.mem_singleton_self _) rfl).mpr (by decide)

/-- The first message to a ring that waits for a `recv` runs the callback of that `recv`. -/
theorem message_invokes_recv :
    ∃ p x, run RingPair.step (.start 8 8 4)
        [.target (.prepare (.recv 5 0 16 0)), .target (.submit 1), .post () true, .deliver 0,
          .target (.reap true)] = some p ∧
      x ∈ p.target.io.log ∧ x.cqe.origin = .message ∧ x.dispatch = .invoked 1 :=
  ⟨_, _, rfl, List.mem_singleton_self _, rfl, rfl⟩

end CoroRpc.Io

import Mathlib.Algebra.GroupWithZero.Nat
import Mathlib.Data.List.Basic
import Mathlib.Logic.Function.Basic

namespace CoroRpc.Io

variable {κ : Type}

inductive Op
  | read (fd : Int32) (buffer size : UInt64) (offset : Int64)
  | write (fd : Int32) (buffer size : UInt64) (offset : Int64)
  | recv (fd : Int32) (buffer size : UInt64) (flags : Int32)
  | send (fd : Int32) (buffer size : UInt64) (flags : Int32)
  | accept (fd : Int32) (addr addrlen : UInt64) (flags : Int32)
  | connect (fd : Int32) (addr : UInt64) (addrlen : UInt32)
  | timeout (ts : UInt64) (count : UInt32) (sqeFlags : UInt32)
  | linkTimeout (ts : UInt64)
  | asyncCancel (userData : UInt64)
  | msgRing (targetRingFd : Int32) (userData : UInt64)
  | nop
  deriving DecidableEq

/-- Which call an entry of a queue goes back to: a `prepare_*` call that registered `callback`, the timeout of a
`run_once`, or a message from another ring. The code does not see it. -/
inductive Origin (κ : Type)
  | prepared (callback : κ)
  | runOnce
  | message
  deriving DecidableEq

structure Sqe (κ : Type) where
  op : Op
  userData : UInt64
  origin : Origin κ

structure Cqe (κ : Type) where
  userData : UInt64
  res : Int32
  flags : UInt32
  origin : Origin κ

inductive IoUringError
  | setupFailed | queueFull | submitFailed | invalidParameter | overflow | timeout | cancelled
  deriving DecidableEq

def kMaxCallbacks : Nat := 65536

-- A `callbacks` slot is `none` when it holds an empty `std::function`; `sq` is the part of the submission ring
-- that has been prepared and not submitted.
structure IoUring (κ : Type) where
  queueDepth : Nat := 1024
  callbacks : Fin kMaxCallbacks → Option κ := fun _ => none
  nextCallbackId : UInt64 := 1
  sq : List (Sqe κ) := []

inductive Dispatch (κ : Type)
  | nothing
  | invoked (callback : κ)
  | badFunctionCall
  deriving DecidableEq

namespace IoUring

instance : NeZero kMaxCallbacks := ⟨by decide⟩

def slot (id : UInt64) : Fin kMaxCallbacks := Fin.ofNat kMaxCallbacks id.toNat

def setCallback (r : IoUring κ) (callback : κ) : UInt64 × IoUring κ :=
  let id := r.nextCallbackId % .ofNat kMaxCallbacks
  (id,
    { r with
      nextCallbackId := r.nextCallbackId + 1
      callbacks := Function.update r.callbacks (slot id) (some callback) })

def prepare (r : IoUring κ) (op : Op) (callback : κ) : Except IoUringError (IoUring κ) :=
  if r.sq.length < r.queueDepth then
    let c := r.setCallback callback
    .ok { c.2 with sq := c.2.sq ++ [⟨op, c.1, .prepared callback⟩] }
  else .error .queueFull

theorem prepare_ok {r ring : IoUring κ} {op : Op} {callback : κ} (h : r.prepare op callback = .ok ring) :
    r.sq.length < r.queueDepth ∧ ring.sq = r.sq ++ [⟨op, (r.setCallback callback).1, .prepared callback⟩] := by
  rw [prepare] at h
  split at h
  · next hroom =>
      cases h
      exact ⟨hroom, rfl⟩
  · cases h

theorem prepare_error {r : IoUring κ} {op : Op} {callback : κ} {e : IoUringError}
    (h : r.prepare op callback = .error e) : ¬r.sq.length < r.queueDepth := by
  rw [prepare] at h
  split at h
  · cases h
  · next hfull => exact hfull

def prepareRead (r : IoUring κ) (fd : Int32) (buffer size : UInt64) (offset : Int64) (callback : κ) :=
  r.prepare (.read fd buffer size offset) callback

def prepareWrite (r : IoUring κ) (fd : Int32) (buffer size : UInt64) (offset : Int64) (callback : κ) :=
  r.prepare (.write fd buffer size offset) callback

def prepareRecv (r : IoUring κ) (fd : Int32) (buffer size : UInt64) (flags : Int32) (callback : κ) :=
  r.prepare (.recv fd buffer size flags) callback

def prepareSend (r : IoUring κ) (fd : Int32) (buffer size : UInt64) (flags : Int32) (callback : κ) :=
  r.prepare (.send fd buffer size flags) callback

def prepareAccept (r : IoUring κ) (fd : Int32) (addr addrlen : UInt64) (flags : Int32) (callback : κ) :=
  r.prepare (.accept fd addr addrlen flags) callback

def prepareConnect (r : IoUring κ) (fd : Int32) (addr : UInt64) (addrlen : UInt32) (callback : κ) :=
  r.prepare (.connect fd addr addrlen) callback

def prepareTimeout (r : IoUring κ) (ts : UInt64) (count : UInt32) (callback : κ) (sqeFlags : UInt32) :=
  r.prepare (.timeout ts count sqeFlags) callback

def prepareLinkTimeout (r : IoUring κ) (ts : UInt64) (callback : κ) := r.prepare (.linkTimeout ts) callback

def prepareAsyncCancel (r : IoUring κ) (userDataToCancel : UInt64) (callback : κ) :=
  r.prepare (.asyncCancel userDataToCancel) callback

def prepareMsgRing (r : IoUring κ) (targetRingFd : Int32) (userDataMsg : UInt64) (callback : κ) :=
  r.prepare (.msgRing targetRingFd userDataMsg) callback

def prepareNop (r : IoUring κ) (callback : κ) := r.prepare .nop callback

/-- The timeout that `run_once` queues for itself, with `user_data` 0, if there is room. -/
def prepareRunOnce (r : IoUring κ) (ts : UInt64) : IoUring κ :=
  if r.sq.length < r.queueDepth then { r with sq := r.sq ++ [⟨.timeout ts 1 0, 0, .runOnce⟩] } else r

def getCallback (r : IoUring κ) (cqe : Cqe κ) : Option (Option κ) :=
  if cqe.userData = 0 ∨ .ofNat kMaxCallbacks ≤ cqe.userData then none else some (r.callbacks (slot cqe.userData))

def processCqe (r : IoUring κ) (cqe : Cqe κ) : Dispatch κ :=
  match r.getCallback cqe with
  | none => .nothing
  | some none => .badFunctionCall
  | some (some callback) => .invoked callback

def processFirst (r : IoUring κ) (cqe : Cqe κ) : Dispatch κ :=
  if cqe.userData ≠ 0 then r.processCqe cqe else .nothing

theorem processFirst_eq (r : IoUring κ) (cqe : Cqe κ) : r.processFirst cqe = r.processCqe cqe := by
  by_cases h : cqe.userData = 0
  · simp [processFirst, processCqe, getCallback, h]
  · simp [processFirst, h]

end IoUring

end CoroRpc.Io

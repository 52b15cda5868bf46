import CoroRpc.Lib.Awaiting
import CoroRpc.Lib.Trace
import Mathlib.Data.List.Basic
import Mathlib.Data.List.Induction

namespace CoroRpc.Io

open Awaiting Coroutines Trace

def eTime : Int32 := 62
def eCanceled : Int32 := 125

structure TimeoutException where
  message : String := "operation timed out"
  deriving DecidableEq

/-- How the kernel ends an operation with a linked timeout: the operation in time with a result, or the timeout
first. -/
inductive LinkOutcome
  | completed (n : Int32)
  | expired
  deriving DecidableEq

inductive LinkedOp
  | operation | timeout
  deriving DecidableEq

namespace LinkOutcome

def res : LinkOutcome → LinkedOp → Int32
  | .completed n, .operation => n
  | .completed _, .timeout => -eCanceled
  | .expired, .operation => -eCanceled
  | .expired, .timeout => -eTime

def winner : LinkOutcome → LinkedOp
  | .completed _ => .operation
  | .expired => .timeout

def outcome (message : String) : LinkOutcome → Except TimeoutException Int64
  | .completed n => .ok n.toInt64
  | .expired => .error { message }

end LinkOutcome

structure TimedRecvAwaiter where
  recvResult : Int64 := 0
  timeoutResult : Int32 := 0
  recvCompleted : Bool := false
  timeoutFired : Bool := false
  done : Bool := false

namespace TimedRecvAwaiter

def awaitResume (a : TimedRecvAwaiter) : Except TimeoutException Int64 :=
  if a.timeoutFired then .error ⟨"recv timed out"⟩ else .ok a.recvResult

-- what the callbacks do before they look at `done_`
def store (a : TimedRecvAwaiter) (res : Int32) : LinkedOp → TimedRecvAwaiter
  | .operation => { a with recvResult := res.toInt64, recvCompleted := true }
  | .timeout => { a with timeoutResult := res, timeoutFired := true }

@[simp] theorem done_store (a : TimedRecvAwaiter) (res : Int32) (op : LinkedOp) : (a.store res op).done = a.done := by
  cases op <;> rfl

end TimedRecvAwaiter

-- `results` is what `await_resume` came to each time that the coroutine was resumed at this `co_await`
structure TimedRecv where
  outcome : LinkOutcome
  seen : List LinkedOp := []
  results : List (Except TimeoutException Int64) := []

abbrev TimedRecvRun := Coroutines TimedRecvAwaiter TimedRecv

inductive TimedRecvEvent
  | await (coroutine place : Nat) (outcome : LinkOutcome)
  | reuse (place : Nat) (content : TimedRecvAwaiter)
  | complete (k : Nat) (op : LinkedOp)

namespace TimedRecvRun

def deliver (content : TimedRecvAwaiter) (d : TimedRecv) : TimedRecv :=
  { d with results := d.results ++ [content.awaitResume] }

-- the awaiter is gone when its coroutine goes on: the callback finds whatever stands in its place
def callback (s : TimedRecvRun) (a : Await TimedRecv) (op : LinkedOp) : TimedRecvRun :=
  let content := (s.memory a.place).store (a.data.outcome.res op) op
  if content.done then s.write a.place content
  else (s.write a.place { content with done := true }).resume a.coroutine deliver

def see (a : Await TimedRecv) (op : LinkedOp) : Await TimedRecv := { a with data.seen := a.data.seen ++ [op] }

def step (s : TimedRecvRun) : TimedRecvEvent → Option TimedRecvRun
  | .await coroutine place outcome => s.start coroutine place {} { outcome }
  | .reuse place content => s.reuse place content
  | .complete k op =>
      match s.awaits[k]? with
      | none => none
      | some a => if op ∈ a.data.seen then none else some (callback (s.put k (see a op)) a op)

structure Settled (s : TimedRecvRun) : Prop where
  strays : s.strays = 0
  results : ∀ a ∈ s.awaits,
    a.data.results = if a.data.seen = [] then [] else [a.data.outcome.outcome "recv timed out"]

/-- The winner's CQE comes first, and when the other comes `done_` still stands where the awaiter was. -/
def InOrder (s : TimedRecvRun) : TimedRecvEvent → Prop
  | .complete k op => ∀ a : Await TimedRecv, s.awaits[k]? = some a →
      if a.data.seen = [] then op = a.data.outcome.winner else (s.memory a.place).done = true
  | _ => True

structure Sound (s : TimedRecvRun) : Prop where
  apart : s.Apart
  fresh : s.Holding fun _ content => content = {}
  waiting : ∀ a ∈ s.awaits, a.waiting = true ↔ a.data.seen = []

variable {s t : TimedRecvRun} {k : Nat} {a : Await TimedRecv} {op : LinkedOp}

theorem step_complete (hs : s.step (.complete k op) = some t) :
    ∃ a, s.awaits[k]? = some a ∧ t = callback (s.put k (see a op)) a op := by
  simp only [step] at hs
  split at hs
  · cases hs
  · next a ha =>
      split at hs
      · cases hs
      · exact ⟨a, ha, (Option.some.inj hs).symm⟩

theorem awaitResume_iff (o : LinkOutcome) (op : LinkedOp) :
    TimedRecvAwaiter.awaitResume { TimedRecvAwaiter.store {} (o.res op) op with done := true } =
        o.outcome "recv timed out" ↔
      op = o.winner := by
  cases o with
  | completed n =>
      cases op with
      | operation => exact iff_of_true rfl rfl
      | timeout => exact iff_of_false nofun nofun
  | expired =>
      cases op with
      | operation => exact iff_of_false nofun nofun
      | timeout => exact iff_of_true rfl rfl

theorem callback_done (h : (s.memory a.place).done = true) (op : LinkedOp) :
    callback s a op = s.write a.place ((s.memory a.place).store (a.data.outcome.res op) op) := by
  rw [callback, if_pos]
  rw [TimedRecvAwaiter.done_store]
  exact h

theorem callback_resumes (h : ¬(s.memory a.place).done = true) (op : LinkedOp) :
    callback s a op =
      (s.write a.place { (s.memory a.place).store (a.data.outcome.res op) op with done := true }).resume a.coroutine
        deliver := by
  rw [callback, if_neg]
  rw [TimedRecvAwaiter.done_store]
  exact h

/-- The first CQE of a pair resumes the coroutine where it waits. -/
theorem Sound.first (h : s.Sound) (ha : s.awaits[k]? = some a) (hw : a.waiting = true) (op : LinkedOp) :
    ∃ content result, (result = a.data.outcome.outcome "recv timed out" ↔ op = a.data.outcome.winner) ∧
      callback (s.put k (see a op)) a op =
        (s.write a.place content).put k
          { see a op with waiting := false, data.results := a.data.results ++ [result] } := by
  have hfresh : (s.put k (see a op)).memory a.place = {} := h.fresh a (List.mem_of_getElem? ha) hw
  have hget := getElem?_put (d := see a op) ha k
  rw [if_pos rfl] at hget
  refine ⟨{ TimedRecvAwaiter.store {} (a.data.outcome.res op) op with done := true }, _,
    awaitResume_iff a.data.outcome op, ?_⟩
  rw [callback_resumes (by rw [hfresh]; exact Bool.false_ne_true), hfresh]
  generalize hcontent : { TimedRecvAwaiter.store {} (a.data.outcome.res op) op with done := true } = content
  have hapart : ((s.write a.place content).put k (see a op)).Apart :=
    (h.apart.put (d := see a op) ha rfl rfl fun _ => hw).of_awaits rfl
  have hmemory : ((s.write a.place content).put k (see a op)).memory a.place = content := Function.update_self _ _ _
  refine (hapart.resume hget hw deliver).trans ?_
  rw [put_put, wake]
  show Coroutines.put _ k { see a op with waiting := false, data := deliver (_) _ } = _
  rw [show (see a op).place = a.place from rfl, hmemory]
  rfl

theorem results_put {b : Await TimedRecv} (hP : s.Settled)
    (hb : b.data.results = if b.data.seen = [] then [] else [b.data.outcome.outcome "recv timed out"]) :
    Settled (s.put k b) := ⟨hP.strays, forall_put hP.results hb⟩

theorem seen_see (a : Await TimedRecv) (op : LinkedOp) : (see a op).data.seen ≠ [] :=
  List.append_ne_nil_of_right_ne_nil _ (List.cons_ne_nil _ _)

/-- A callback that finds `done_` where its awaiter was leaves alone what the coroutines wait for. -/
theorem Sound.late (h : s.Sound) (hP : s.Settled) (ha : s.awaits[k]? = some a) (hseen : a.data.seen ≠ [])
    (hdone : (s.memory a.place).done = true) (op : LinkedOp) :
    (callback (s.put k (see a op)) a op).Sound ∧ (callback (s.put k (see a op)) a op).Settled := by
  have hmem := List.mem_of_getElem? ha
  have hw : ¬a.waiting = true := fun hw => hseen ((h.waiting a hmem).mp hw)
  rw [callback_done (s := s.put k (see a op)) hdone]
  refine ⟨⟨(h.apart.put (d := see a op) ha rfl rfl id).of_awaits rfl, ?_, ?_⟩, ?_⟩
  · have hput : (s.put k (see a op)).Holding fun _ content => content = {} := h.fresh.put fun hw' => absurd hw' hw
    refine hput.write fun b hb hwb hplace => ?_
    have hfresh : s.memory b.place = {} := hput b hb hwb
    rw [hplace] at hfresh
    rw [hfresh] at hdone
    cases hdone
  · exact forall_put h.waiting (iff_of_false hw (seen_see a op))
  · have hresults := hP.results a hmem
    rw [if_neg hseen] at hresults
    have hput := results_put (k := k) (b := see a op) hP (by rw [if_neg (seen_see a op)]; exact hresults)
    exact ⟨hput.strays, hput.results⟩

/-- Where `done_` is not found any more the coroutine is resumed once more, wherever it stands. -/
theorem Sound.again (h : s.Sound) (hP : s.Settled) (ha : s.awaits[k]? = some a) (hseen : a.data.seen ≠ [])
    (hdone : ¬(s.memory a.place).done = true) (op : LinkedOp) : ¬(callback (s.put k (see a op)) a op).Settled := by
  have hmem := List.mem_of_getElem? ha
  have hw : ¬a.waiting = true := fun hw => hseen ((h.waiting a hmem).mp hw)
  rw [callback_resumes (s := s.put k (see a op)) hdone]
  generalize { TimedRecvAwaiter.store _ _ _ with done := true } = content
  intro hP'
  rcases resume_cases ((s.put k (see a op)).write a.place content) a.coroutine deliver with
    ⟨j, b, hj, hwb, heq⟩ | heq
  · -- another `co_await` of the coroutine ends, and none of its own CQEs has come
    have hb : b ∈ s.awaits ∧ b.data.seen = [] := by
      rcases mem_put (List.mem_of_getElem? hj) with rfl | ⟨i, -, hi⟩
      · exact absurd hwb hw
      · exact ⟨List.mem_of_getElem? hi, (h.waiting b (List.mem_of_getElem? hi)).mp hwb⟩
    have hresults := hP.results b hb.1
    rw [if_pos hb.2] at hresults
    rw [heq] at hP'
    have hnew := hP'.results _ (mem_put_self hj)
    rw [if_pos (by exact hb.2)] at hnew
    exact List.append_ne_nil_of_right_ne_nil _ (List.cons_ne_nil _ _) hnew
  · have hstrays := hP'.strays
    rw [heq] at hstrays
    exact Nat.succ_ne_zero _ hstrays

theorem settled_step {e : TimedRecvEvent} (h : s.Sound) (hP : s.Settled) (hs : s.step e = some t) :
    t.Settled ↔ s.InOrder e := by
  cases e with
  | await coroutine place outcome =>
      refine iff_of_true ⟨?_, ?_⟩ trivial
      · exact (strays_start hs).trans hP.strays
      · intro a ha
        rcases (mem_start hs).mp ha with ha | rfl
        · exact hP.results a ha
        · rfl
  | reuse place content =>
      refine iff_of_true ?_ trivial
      have hsame := awaits_reuse hs
      exact ⟨hsame.2.trans hP.strays, by rw [hsame.1]; exact hP.results⟩
  | complete k op =>
      obtain ⟨a, ha, rfl⟩ := step_complete hs
      have hmem := List.mem_of_getElem? ha
      have horder : s.InOrder (.complete k op) ↔
          if a.data.seen = [] then op = a.data.outcome.winner else (s.memory a.place).done = true := by
        rw [InOrder, ha]
        simp
      rw [horder]
      by_cases hseen : a.data.seen = []
      · rw [if_pos hseen]
        obtain ⟨content, result, hresult, heq⟩ := h.first ha ((h.waiting a hmem).mpr hseen) op
        have hresults := hP.results a hmem
        rw [if_pos hseen] at hresults
        rw [heq, ← hresult]
        have hput : Settled ((s.write a.place content).put k
            { see a op with waiting := false, data.results := a.data.results ++ [result] }) ↔
            a.data.results ++ [result] = [a.data.outcome.outcome "recv timed out"] :=
          ⟨fun hP' => (hP'.results _ (mem_put_self (s := s.write a.place content) ha)).trans
              (if_neg (seen_see a op)),
            fun hb => ⟨hP.strays, forall_put hP.results (hb.trans (if_neg (seen_see a op)).symm)⟩⟩
        rw [hput, hresults, List.nil_append, List.singleton_inj]
      · rw [if_neg hseen]
        by_cases hdone : (s.memory a.place).done = true
        · exact iff_of_true (h.late hP ha hseen hdone op).2 hdone
        · exact iff_of_false (h.again hP ha hseen hdone op) hdone

theorem Sound.step {e : TimedRecvEvent} (h : s.Sound) (hP : s.Settled) (hs : s.step e = some t) (hP' : t.Settled) :
    t.Sound := by
  cases e with
  | await coroutine place outcome =>
      refine ⟨h.apart.start hs, h.fresh.start hs rfl, fun a ha => ?_⟩
      rcases (mem_start hs).mp ha with ha | rfl
      · exact h.waiting a ha
      · exact iff_of_true rfl rfl
  | reuse place content =>
      have hsame := (awaits_reuse hs).1
      refine ⟨h.apart.of_awaits hsame, h.fresh.reuse hs, ?_⟩
      rw [hsame]
      exact h.waiting
  | complete k op =>
      obtain ⟨a, ha, rfl⟩ := step_complete hs
      have hmem := List.mem_of_getElem? ha
      by_cases hseen : a.data.seen = []
      · have hw := (h.waiting a hmem).mpr hseen
        obtain ⟨content, result, -, heq⟩ := h.first ha hw op
        rw [heq]
        let b : Await TimedRecv := { see a op with waiting := false, data.results := a.data.results ++ [result] }
        have hover : ¬b.waiting = true := Bool.false_ne_true
        refine ⟨(h.apart.put (d := b) ha rfl rfl fun hw' => absurd hw' hover).of_awaits rfl,
          h.fresh.put_write h.apart ha hw rfl nofun, ?_⟩
        exact forall_put h.waiting (iff_of_false hover (seen_see a op))
      · by_cases hdone : (s.memory a.place).done = true
        · exact (h.late hP ha hseen hdone op).1
        · exact absurd hP' (h.again hP ha hseen hdone op)

end TimedRecvRun

/-- In a run of any coroutines that await timed receives, whose awaiters stand where others stood before, each is
resumed once by the first CQE of its pair and with the outcome of the pair, exactly when that is always the CQE of
the one of the two that came to its end, and the other CQE always finds `done_` where the awaiter was. -/
theorem timed_recv_iff (memory : Nat → TimedRecvAwaiter) (evs : List TimedRecvEvent) (s : TimedRecvRun)
    (h : run TimedRecvRun.step { memory } evs = some s) :
    Throughout TimedRecvRun.step TimedRecvRun.Settled { memory } evs ↔
      EachStep TimedRecvRun.step TimedRecvRun.InOrder { memory } evs := by
  have hstart : TimedRecvRun.Sound { memory } := ⟨fun _ _ _ _ _ => nofun, fun _ => nofun, fun _ => nofun⟩
  have hbegin : TimedRecvRun.Settled { memory } := ⟨rfl, fun _ => nofun⟩
  exact throughout_iff_keeping (fun _ _ _ => TimedRecvRun.Sound.step) (fun _ _ _ => TimedRecvRun.settled_step)
    hstart hbegin h

-- a loop: both awaiters stand in place 7, and the second receive comes too late
def receiveTwice : List TimedRecvEvent :=
  [.await 0 7 (.completed 5), .complete 0 .operation, .complete 0 .timeout, .await 0 7 .expired, .complete 1 .timeout,
    .reuse 8 {}, .complete 1 .operation]

theorem timed_recv_in_order :
    ∃ s, run TimedRecvRun.step { memory := fun _ => {} } receiveTwice = some s ∧ TimedRecvRun.Settled s := by
  have hC : EachStep TimedRecvRun.step TimedRecvRun.InOrder { memory := fun _ => {} } receiveTwice := by
    refine (eachStep_cons rfl).mpr ⟨trivial, ?_⟩
    iterate 2 refine (eachStep_cons rfl).mpr ⟨fun a ha => by cases ha; rfl, ?_⟩
    refine (eachStep_cons rfl).mpr ⟨trivial, ?_⟩
    refine (eachStep_cons rfl).mpr ⟨fun a ha => by cases ha; rfl, ?_⟩
    refine (eachStep_cons rfl).mpr ⟨trivial, ?_⟩
    exact (eachStep_cons rfl).mpr ⟨fun a ha => by cases ha; rfl, eachStep_nil⟩
  exact ⟨_, rfl, (timed_recv_iff _ _ _ rfl).mpr hC _ _ List.prefix_rfl rfl⟩

/-- Five bytes are lost, a timeout is reported as a result, and the late CQE of one receive resumes the next one. -/
theorem timed_recv_wrong :
    (∃ s, run TimedRecvRun.step { memory := fun _ => {} }
        [.await 0 7 (.completed 5), .complete 0 .timeout, .complete 0 .operation] = some s ∧
      s.awaits.map (·.data.results) = [[.error ⟨"recv timed out"⟩]] ∧ ¬TimedRecvRun.Settled s) ∧
    (∃ s, run TimedRecvRun.step { memory := fun _ => {} }
        [.await 0 7 .expired, .complete 0 .operation, .complete 0 .timeout] = some s ∧
      s.awaits.map (·.data.results) = [[.ok (-125)]] ∧ ¬TimedRecvRun.Settled s) ∧
    ∃ s, run TimedRecvRun.step { memory := fun _ => {} }
        [.await 0 7 (.completed 5), .complete 0 .operation, .await 0 7 (.completed 6), .complete 0 .timeout] = some s ∧
      s.awaits.map (·.data.results) = [[.ok 5], [.error ⟨"recv timed out"⟩]] ∧ ¬TimedRecvRun.Settled s := by
  refine ⟨⟨_, rfl, rfl, fun h => ?_⟩, ⟨_, rfl, rfl, fun h => ?_⟩, ⟨_, rfl, rfl, fun h => ?_⟩⟩
  · cases h.results _ List.mem_cons_self
  · cases h.results _ List.mem_cons_self
  · cases h.results _ (List.mem_cons_of_mem _ List.mem_cons_self)

structure TimedSendAwaiter where
  sendResult : Int64 := 0
  timeoutResult : Int32 := 0
  sendCompleted : Bool := false
  timeoutFired : Bool := false

namespace TimedSendAwaiter

def awaitResume (a : TimedSendAwaiter) : Except TimeoutException Int64 :=
  if a.timeoutFired then .error ⟨"send timed out"⟩ else .ok a.sendResult

def store (a : TimedSendAwaiter) (res : Int32) : LinkedOp → TimedSendAwaiter
  | .operation => { a with sendResult := res.toInt64, sendCompleted := true }
  | .timeout => { a with timeoutResult := res, timeoutFired := true }

def stored (written : List (LinkedOp × Int32)) : TimedSendAwaiter :=
  written.foldl (fun a w => a.store w.2 w.1) {}

def lastSent (written : List (LinkedOp × Int32)) : Option Int32 :=
  (written.reverse.find? (·.1 = .operation)).map (·.2)

theorem stored_concat (written : List (LinkedOp × Int32)) (op : LinkedOp) (res : Int32) :
    stored (written ++ [(op, res)]) = (stored written).store res op := by
  rw [stored, List.foldl_append]
  rfl

theorem timeoutFired_stored (written : List (LinkedOp × Int32)) :
    (stored written).timeoutFired = true ↔ ∃ res, (.timeout, res) ∈ written := by
  induction written using List.reverseRecOn with
  | nil => exact iff_of_false nofun nofun
  | append_singleton written w ih =>
      obtain ⟨op, res⟩ := w
      rw [stored_concat]
      cases op with
      | operation => simpa [store] using ih
      | timeout => exact iff_of_true rfl ⟨res, List.mem_concat_self⟩

theorem sendResult_stored (written : List (LinkedOp × Int32)) :
    (stored written).sendResult = ((lastSent written).map Int32.toInt64).getD 0 := by
  induction written using List.reverseRecOn with
  | nil => rfl
  | append_singleton written w ih =>
      obtain ⟨op, res⟩ := w
      rw [stored_concat, lastSent, List.reverse_concat]
      cases op with
      | operation => rfl
      | timeout => exact ih

theorem lastSent_of_mem {written : List (LinkedOp × Int32)} {res : Int32} (h : (.operation, res) ∈ written) :
    ∃ n, lastSent written = some n := by
  have hsome : (written.reverse.find? (·.1 = .operation)).isSome :=
    List.find?_isSome.mpr ⟨_, List.mem_reverse.mpr h, decide_eq_true rfl⟩
  obtain ⟨w, hw⟩ := Option.isSome_iff_exists.mp hsome
  exact ⟨w.2, by rw [lastSent, hw]; rfl⟩

end TimedSendAwaiter

-- `sent`: the CQE of the send had been processed
structure SendResumption where
  sent : Bool
  result : Except TimeoutException Int64
  deriving DecidableEq

structure TimedSend where
  outcome : LinkOutcome
  seen : List LinkedOp := []
  nop : Bool := false
  resumptions : List SendResumption := []

-- what stands in a place, and the CQEs that stored their results in it since it was put there
structure SendPlace where
  awaiter : TimedSendAwaiter := {}
  written : List (LinkedOp × Int32) := []

abbrev TimedSendRun := Coroutines SendPlace TimedSend

inductive TimedSendEvent
  | await (coroutine place : Nat) (outcome : LinkOutcome)
  | reuse (place : Nat) (content : TimedSendAwaiter)
  | complete (k : Nat) (op : LinkedOp)
  | nop (k : Nat)

namespace TimedSendRun

def deliver (content : SendPlace) (d : TimedSend) : TimedSend :=
  { d with resumptions := d.resumptions ++ [⟨.operation ∈ d.seen, content.awaiter.awaitResume⟩] }

def store (content : SendPlace) (res : Int32) (op : LinkedOp) : SendPlace :=
  { awaiter := content.awaiter.store res op, written := content.written ++ [(op, res)] }

def see (a : Await TimedSend) (op : LinkedOp) : Await TimedSend := { a with data.seen := a.data.seen ++ [op] }

def step (s : TimedSendRun) : TimedSendEvent → Option TimedSendRun
  | .await coroutine place outcome => s.start coroutine place {} { outcome }
  | .reuse place content => s.reuse place { awaiter := content }
  | .complete k op =>
      match s.awaits[k]? with
      | none => none
      | some a =>
          if op ∈ a.data.seen then none
          else some ((s.write a.place (store (s.memory a.place) (a.data.outcome.res op) op)).put k (see a op))
  | .nop k =>
      match s.awaits[k]? with
      | none => none
      | some a =>
          if a.data.nop then none
          else some ((s.put k { a with data.nop := true }).resume a.coroutine deliver)

def Settled (s : TimedSendRun) : Prop :=
  s.strays = 0 ∧ ∀ a ∈ s.awaits,
    a.data.resumptions = if a.data.nop then [⟨true, a.data.outcome.outcome "send timed out"⟩] else []

/-- When a nop comes the CQE of the send has come, the last send that stored a result where the awaiter stands had
the same result, and a timeout has raised its flag there if the send expired and only then. -/
def InOrder (s : TimedSendRun) : TimedSendEvent → Prop
  | .nop k => ∀ a : Await TimedSend, s.awaits[k]? = some a →
      .operation ∈ a.data.seen ∧
        ((∃ res, (.timeout, res) ∈ (s.memory a.place).written) ↔ a.data.outcome = .expired) ∧
        ∀ n, a.data.outcome = .completed n → TimedSendAwaiter.lastSent (s.memory a.place).written = some n
  | _ => True

structure Stored (d : TimedSend) (content : SendPlace) : Prop where
  awaiter : content.awaiter = .stored content.written
  own : ∀ op ∈ d.seen, (op, d.outcome.res op) ∈ content.written

structure Sound (s : TimedSendRun) : Prop where
  apart : s.Apart
  stored : s.Holding Stored
  waiting : ∀ a ∈ s.awaits, a.waiting = true ↔ a.data.nop = false

variable {s t : TimedSendRun} {k : Nat} {a : Await TimedSend}

theorem Stored.store {d : TimedSend} {content : SendPlace} (h : Stored d content) (res : Int32) (op : LinkedOp) :
    Stored d (store content res op) where
  awaiter := by
    rw [TimedSendRun.store, h.awaiter]
    exact (TimedSendAwaiter.stored_concat _ _ _).symm
  own op' hop := List.mem_append_left _ (h.own op' hop)

theorem Stored.see {content : SendPlace} (h : Stored a.data content) (op : LinkedOp) :
    Stored (see a op).data (TimedSendRun.store content (a.data.outcome.res op) op) where
  awaiter := (h.store (a.data.outcome.res op) op).awaiter
  own op' hop := by
    rcases List.mem_append.mp hop with hop | hop
    · exact (h.store _ op).own op' hop
    · rw [List.mem_singleton.mp hop]
      exact List.mem_concat_self

theorem step_complete {op : LinkedOp} (hs : s.step (.complete k op) = some t) :
    ∃ a, s.awaits[k]? = some a ∧
      t = (s.write a.place (store (s.memory a.place) (a.data.outcome.res op) op)).put k (see a op) := by
  simp only [step] at hs
  split at hs
  · cases hs
  · next a ha =>
      split at hs
      · cases hs
      · exact ⟨a, ha, (Option.some.inj hs).symm⟩

/-- A nop resumes the coroutine where it waits for it. -/
theorem step_nop (h : s.Sound) (hs : s.step (.nop k) = some t) :
    ∃ a, s.awaits[k]? = some a ∧ a.waiting = true ∧ a.data.nop = false ∧
      t = s.put k
        { a with waiting := false, data := deliver (s.memory a.place) { a.data with nop := true } } := by
  simp only [step] at hs
  split at hs
  · cases hs
  · next a ha =>
      split at hs
      · cases hs
      · next hnop =>
          have hoff := Bool.eq_false_iff.mpr hnop
          have hw : a.waiting = true := (h.waiting a (List.mem_of_getElem? ha)).mpr hoff
          let b : Await TimedSend := { a with data.nop := true }
          have hget := getElem?_put (d := b) ha k
          rw [if_pos rfl] at hget
          have hresume := (h.apart.put (d := b) ha rfl rfl fun _ => hw).resume hget hw deliver
          refine ⟨a, ha, hw, hoff, ?_⟩
          rw [← Option.some.inj hs]
          exact hresume.trans (put_put s k b _)

theorem awaitResume_iff {d : TimedSend} {content : SendPlace} (h : Stored d content) (hsent : .operation ∈ d.seen) :
    content.awaiter.awaitResume = d.outcome.outcome "send timed out" ↔
      ((∃ res, (.timeout, res) ∈ content.written) ↔ d.outcome = .expired) ∧
        ∀ n, d.outcome = .completed n → TimedSendAwaiter.lastSent content.written = some n := by
  obtain ⟨m, hm⟩ := TimedSendAwaiter.lastSent_of_mem (h.own _ hsent)
  have hresult := TimedSendAwaiter.sendResult_stored content.written
  rw [hm] at hresult
  rw [← TimedSendAwaiter.timeoutFired_stored, h.awaiter, hm, TimedSendAwaiter.awaitResume, hresult]
  cases (TimedSendAwaiter.stored content.written).timeoutFired with
  | true =>
      cases d.outcome with
      | completed n => exact iff_of_false nofun fun hiff => by cases hiff.1.mp rfl
      | expired => exact iff_of_true rfl ⟨iff_of_true rfl rfl, nofun⟩
  | false =>
      cases d.outcome with
      | completed n =>
          have heq : (Except.ok m.toInt64 : Except TimeoutException Int64) = .ok n.toInt64 ↔ m = n := by
            rw [Except.ok.injEq]
            refine ⟨fun heq => Int32.toInt.inj ?_, congrArg _⟩
            rw [← Int32.toInt_toInt64, heq, Int32.toInt_toInt64]
          refine heq.trans ⟨?_, fun hiff => Option.some.inj (hiff.2 n rfl)⟩
          rintro rfl
          exact ⟨iff_of_false nofun nofun, fun n hn => by cases hn; rfl⟩
      | expired => exact iff_of_false nofun fun hiff => by cases hiff.1.mpr rfl

theorem settled_step {e : TimedSendEvent} (h : s.Sound) (hP : s.Settled) (hs : s.step e = some t) :
    t.Settled ↔ s.InOrder e := by
  cases e with
  | await coroutine place outcome =>
      refine iff_of_true ⟨(strays_start hs).trans hP.1, fun a ha => ?_⟩ trivial
      rcases (mem_start hs).mp ha with ha | rfl
      · exact hP.2 a ha
      · rfl
  | reuse place content =>
      obtain ⟨hawaits, hstrays⟩ := awaits_reuse hs
      exact iff_of_true ⟨hstrays.trans hP.1, by rw [hawaits]; exact hP.2⟩ trivial
  | complete k op =>
      obtain ⟨a, ha, rfl⟩ := step_complete hs
      exact iff_of_true ⟨hP.1, forall_put hP.2 (hP.2 a (List.mem_of_getElem? ha))⟩ trivial
  | nop k =>
      obtain ⟨a, ha, hw, hoff, rfl⟩ := step_nop h hs
      have hmem := List.mem_of_getElem? ha
      have hnone := hP.2 a hmem
      rw [if_neg (by rw [hoff]; exact Bool.false_ne_true)] at hnone
      have hsettled : Settled (s.put k
          { a with waiting := false, data := deliver (s.memory a.place) { a.data with nop := true } }) ↔
          .operation ∈ a.data.seen ∧
            (s.memory a.place).awaiter.awaitResume = a.data.outcome.outcome "send timed out" := by
        rw [Settled, forall_put_iff ha hP.2]
        simp [deliver, hnone, Coroutines.put, hP.1]
      have horder : s.InOrder (.nop k) ↔ .operation ∈ a.data.seen ∧
          ((∃ res, (.timeout, res) ∈ (s.memory a.place).written) ↔ a.data.outcome = .expired) ∧
          ∀ n, a.data.outcome = .completed n → TimedSendAwaiter.lastSent (s.memory a.place).written = some n := by
        rw [InOrder, ha]
        simp
      rw [hsettled, horder]
      exact and_congr_right fun hsent => awaitResume_iff (h.stored a hmem hw) hsent

theorem Sound.step {e : TimedSendEvent} (h : s.Sound) (hs : s.step e = some t) : t.Sound := by
  cases e with
  | await coroutine place outcome =>
      refine ⟨h.apart.start hs, h.stored.start hs ⟨rfl, fun _ => nofun⟩, fun a ha => ?_⟩
      rcases (mem_start hs).mp ha with ha | rfl
      · exact h.waiting a ha
      · exact iff_of_true rfl rfl
  | reuse place content =>
      have hsame := (awaits_reuse hs).1
      refine ⟨h.apart.of_awaits hsame, h.stored.reuse hs, ?_⟩
      rw [hsame]
      exact h.waiting
  | complete k op =>
      obtain ⟨a, ha, rfl⟩ := step_complete hs
      have hmem := List.mem_of_getElem? ha
      refine ⟨(h.apart.put (d := see a op) ha rfl rfl id).of_awaits rfl, ?_, ?_⟩
      · refine Holding.put (h.stored.write fun b hb hwb hplace => ?_) fun hw => ?_
        · rw [← hplace]
          exact (h.stored b hb hwb).store _ _
        · show Stored (see a op).data (Function.update s.memory a.place _ a.place)
          rw [Function.update_self]
          exact (h.stored a hmem hw).see op
      · exact forall_put h.waiting (h.waiting a hmem)
  | nop k =>
      obtain ⟨a, ha, hw, -, rfl⟩ := step_nop h hs
      refine ⟨h.apart.put ha rfl rfl fun _ => hw, h.stored.put nofun, forall_put h.waiting ?_⟩
      exact iff_of_false Bool.false_ne_true nofun

end TimedSendRun

/-- In a run of any coroutines that await timed sends, whose awaiters stand where others stood before, each is
resumed once, after the CQE of its send and with the outcome of the pair, exactly when each nop comes after the
send of its awaiter, and the CQEs that came where the awaiter stands, its own or late ones of awaiters that stood
there before, are a timeout in the case that the send expired and only then, and last a send with its result. -/
theorem timed_send_iff (memory : Nat → SendPlace) (evs : List TimedSendEvent) (s : TimedSendRun)
    (h : run TimedSendRun.step { memory } evs = some s) :
    Throughout TimedSendRun.step TimedSendRun.Settled { memory } evs ↔
      EachStep TimedSendRun.step TimedSendRun.InOrder { memory } evs := by
  have hstart : TimedSendRun.Sound { memory } := ⟨fun _ _ _ _ _ => nofun, fun _ => nofun, fun _ => nofun⟩
  have hbegin : TimedSendRun.Settled { memory } := ⟨rfl, fun _ => nofun⟩
  exact throughout_iff (fun _ _ _ h hs => TimedSendRun.Sound.step h hs) (fun _ _ _ => TimedSendRun.settled_step)
    hstart hbegin h

def sendTwice : List TimedSendEvent :=
  [.await 0 7 (.completed 5), .complete 0 .operation, .nop 0, .complete 0 .timeout, .await 0 7 .expired,
    .complete 1 .timeout, .complete 1 .operation, .nop 1]

theorem timed_send_in_order :
    ∃ s, run TimedSendRun.step { memory := fun _ => {} } sendTwice = some s ∧ TimedSendRun.Settled s := by
  have hC : EachStep TimedSendRun.step TimedSendRun.InOrder { memory := fun _ => {} } sendTwice := by
    iterate 2 refine (eachStep_cons rfl).mpr ⟨trivial, ?_⟩
    refine (eachStep_cons rfl).mpr ⟨fun a ha => ?_, ?_⟩
    · cases ha
      refine ⟨List.mem_cons_self, iff_of_false ?_ nofun, fun n hn => by cases hn; rfl⟩
      rintro ⟨res, hres⟩
      cases List.mem_singleton.mp hres
    iterate 4 refine (eachStep_cons rfl).mpr ⟨trivial, ?_⟩
    refine (eachStep_cons rfl).mpr ⟨fun a ha => ?_, eachStep_nil⟩
    cases ha
    exact ⟨List.mem_cons_of_mem _ List.mem_cons_self, iff_of_true ⟨_, List.mem_cons_self⟩ rfl, nofun⟩
  exact ⟨_, rfl, (timed_send_iff _ _ _ rfl).mpr hC _ _ List.prefix_rfl rfl⟩

/-- The nop resumes the coroutine with 0 before anything was sent; a send that is in time is reported as timed out
when all three have completed; and so is the next one of a loop, by the late CQE of the one before. -/
theorem timed_send_wrong :
    (∃ s, run TimedSendRun.step { memory := fun _ => {} }
        [.await 0 7 (.completed 5), .nop 0, .complete 0 .operation, .complete 0 .timeout] = some s ∧
      s.awaits.map (·.data.resumptions) = [[⟨false, .ok 0⟩]] ∧ ¬TimedSendRun.Settled s) ∧
    (∃ s, run TimedSendRun.step { memory := fun _ => {} }
        [.await 0 7 (.completed 5), .complete 0 .operation, .complete 0 .timeout, .nop 0] = some s ∧
      s.awaits.map (·.data.resumptions) = [[⟨true, .error ⟨"send timed out"⟩⟩]] ∧ ¬TimedSendRun.Settled s) ∧
    ∃ s, run TimedSendRun.step { memory := fun _ => {} }
        [.await 0 7 (.completed 5), .complete 0 .operation, .nop 0, .await 0 7 (.completed 6), .complete 1 .operation,
          .complete 0 .timeout, .nop 1] = some s ∧
      s.awaits.map (·.data.resumptions) = [[⟨true, .ok 5⟩], [⟨true, .error ⟨"send timed out"⟩⟩]] ∧
      ¬TimedSendRun.Settled s := by
  refine ⟨⟨_, rfl, rfl, fun h => ?_⟩, ⟨_, rfl, rfl, fun h => ?_⟩, ⟨_, rfl, rfl, fun h => ?_⟩⟩
  · cases h.2 _ List.mem_cons_self
  · cases h.2 _ List.mem_cons_self
  · cases h.2 _ (List.mem_cons_of_mem _ List.mem_cons_self)

end CoroRpc.Io

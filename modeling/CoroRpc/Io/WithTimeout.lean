import CoroRpc.Io.CallbackIds
import CoroRpc.Io.TimedIo
import CoroRpc.Lib.Trace

namespace CoroRpc.Io

open IoUring Trace Awaiting Coroutines

/-- Who prepared an SQE: another user of the ring, or one of the three calls behind the `k`-th `with_timeout`. -/
inductive Party
  | other
  | operation (k : Nat)
  | timer (k : Nat)
  | cancel (k : Nat)
  deriving DecidableEq

structure Submissions where
  ring : IoUring Party
  submitted : List (Sqe Party) := []

namespace Submissions

def pass (s : Submissions) (n : Nat) : Submissions where
  ring := { s.ring with sq := s.ring.sq.drop n }
  submitted := s.submitted ++ s.ring.sq.take n

-- what `cancel_timeout` and `cancel_operation` share; the `catch` drops what either call throws
def cancel (s : Submissions) (k : Nat) (userData : UInt64) (passed : Option Nat) : Submissions :=
  if userData = 0 then s
  else
    match s.ring.prepareAsyncCancel userData (.cancel k) with
    | .error _ => s
    | .ok ring =>
        match passed with
        | none => { s with ring }
        | some n => pass { s with ring } n

def Cancelled (s : Submissions) (k : Nat) (userData : UInt64) : Prop :=
  ∃ sqe ∈ s.submitted, sqe.op = .asyncCancel userData ∧ sqe.origin = .prepared (.cancel k)

def Uncancelled (s : Submissions) (k : Nat) : Prop :=
  ∀ sqe ∈ s.submitted ++ s.ring.sq, sqe.origin ≠ .prepared (.cancel k)

variable {s : Submissions} {k : Nat}

theorem mem_pass {n : Nat} {sqe : Sqe Party} :
    sqe ∈ (s.pass n).submitted ++ (s.pass n).ring.sq ↔ sqe ∈ s.submitted ++ s.ring.sq := by
  show sqe ∈ (s.submitted ++ s.ring.sq.take n) ++ s.ring.sq.drop n ↔ _
  rw [List.append_assoc, List.take_append_drop]

theorem Uncancelled.pass (h : s.Uncancelled k) (n : Nat) : (s.pass n).Uncancelled k :=
  fun sqe hsqe => h sqe (mem_pass.mp hsqe)

theorem Cancelled.pass {u : UInt64} (h : s.Cancelled k u) (n : Nat) : (s.pass n).Cancelled k u := by
  obtain ⟨sqe, hsqe, hop⟩ := h
  exact ⟨sqe, List.mem_append_left _ hsqe, hop⟩

theorem Uncancelled.prepare {ring : IoUring Party} {op : Op} {p : Party} (h : s.Uncancelled k)
    (hring : s.ring.prepare op p = .ok ring) (hp : p ≠ .cancel k) : Uncancelled { s with ring } k := by
  intro sqe hsqe
  have hmem : sqe ∈ s.submitted ++ ring.sq := hsqe
  rw [(prepare_ok hring).2, ← List.append_assoc] at hmem
  rcases List.mem_append.mp hmem with hold | hnew
  · exact h sqe hold
  · rw [List.mem_singleton.mp hnew]
    intro heq
    injection heq with heq
    exact hp heq

theorem Uncancelled.not_cancelled (h : s.Uncancelled k) (u : UInt64) : ¬s.Cancelled k u := by
  rintro ⟨sqe, hsqe, -, horigin⟩
  exact h sqe (List.mem_append_left _ hsqe) horigin

theorem Uncancelled.cancel {j : Nat} (h : s.Uncancelled k) (hj : j ≠ k) (userData : UInt64) (passed : Option Nat) :
    (s.cancel j userData passed).Uncancelled k := by
  rw [Submissions.cancel]
  split
  · exact h
  · split
    · exact h
    · next ring hring =>
        have hprepared := h.prepare hring fun heq => hj (Party.cancel.inj heq)
        split
        · exact hprepared
        · exact hprepared.pass _

theorem Cancelled.cancel {u : UInt64} (h : s.Cancelled k u) (j : Nat) (userData : UInt64) (passed : Option Nat) :
    (s.cancel j userData passed).Cancelled k u := by
  rw [Submissions.cancel]
  split
  · exact h
  · split
    · exact h
    · next ring hring =>
        have hprepared : Cancelled { s with ring } k u := h
        split
        · exact hprepared
        · exact hprepared.pass _

theorem cancelled_cancel (h : s.Uncancelled k) (userData u : UInt64) (passed : Option Nat) :
    (s.cancel k userData passed).Cancelled k u ↔
      u = userData ∧ userData ≠ 0 ∧ s.ring.sq.length < s.ring.queueDepth ∧
        ∃ n, passed = some n ∧ s.ring.sq.length < n := by
  rw [cancel]
  split
  · next hzero => exact iff_of_false (h.not_cancelled u) fun hall => hall.2.1 hzero
  · next hne =>
      split
      · next hfull => exact iff_of_false (h.not_cancelled u) fun hall => prepare_error hfull hall.2.2.1
      · next ring hring =>
          obtain ⟨hroom, hsq⟩ := prepare_ok hring
          cases passed with
          | none =>
              refine iff_of_false ?_ fun ⟨_, _, _, n, hn, _⟩ => by cases hn
              rintro ⟨sqe, hsqe, -, horigin⟩
              exact h sqe (List.mem_append_left _ hsqe) horigin
          | some n =>
              show (∃ sqe ∈ s.submitted ++ ring.sq.take n, _) ↔ _
              rw [hsq, List.take_append]
              constructor
              · rintro ⟨sqe, hsqe, hop, horigin⟩
                rw [← List.append_assoc] at hsqe
                rcases List.mem_append.mp hsqe with hold | hnew
                · refine absurd horigin (h sqe ?_)
                  rcases List.mem_append.mp hold with hold | hold
                  · exact List.mem_append_left _ hold
                  · exact List.mem_append_right _ (List.mem_of_mem_take hold)
                · have hlt : s.ring.sq.length < n := by
                    by_contra hle
                    rw [Nat.sub_eq_zero_of_le (Nat.not_lt.mp hle)] at hnew
                    cases hnew
                  rw [List.mem_singleton.mp (List.mem_of_mem_take hnew)] at hop
                  injection hop with hop
                  exact ⟨hop.symm, hne, hroom, n, rfl, hlt⟩
              · rintro ⟨rfl, -, -, m, hm, hlt⟩
                cases hm
                refine ⟨⟨.asyncCancel u, (s.ring.setCallback (.cancel k)).1, .prepared (.cancel k)⟩, ?_, rfl,
                  rfl⟩
                refine List.mem_append_right _ (List.mem_append_right _ ?_)
                rw [List.take_of_length_le (by exact Nat.sub_pos_of_lt hlt)]
                exact List.mem_singleton_self _

end Submissions

inductive Thrown (E : Type)
  | operation (e : E)
  | timeout (e : TimeoutException)
  | badOptionalAccess

inductive Completion (E T : Type)
  | operation (v : Except E T)
  | timer (res : Int32)

structure WithTimeoutAwaiter (E T : Type) where
  timeoutUserData : UInt64 := 0
  operationUserData : UInt64 := 0
  result : Option T := none
  exception : Option (Thrown E) := none
  done : Bool := false
  timeoutFired : Bool := false

-- `operation` and `timer` are the `user_data` that the two SQEs really have, and `first` is the completion that came
-- first; `results` is what `await_resume` came to each time that the coroutine was resumed at this `co_await`
structure WithTimeout (E T : Type) where
  operation : Option UInt64 := none
  timer : Option UInt64 := none
  operationEnded : Bool := false
  timerEnded : Bool := false
  first : Option (Completion E T) := none
  results : List (Except (Thrown E) T) := []

/-- `prepare` and `submit` are calls by others; `submitOperation` is `submit_fn_`, and `arm` the rest of
`await_suspend`; a number of SQEs is what `io_uring_submit` passes on, and none that `submit` throws. -/
inductive WithTimeoutEvent (E T : Type)
  | prepare (op : Op)
  | submit (n : Nat)
  | await (coroutine place : Nat)
  | reuse (place : Nat) (content : WithTimeoutAwaiter E T)
  | submitOperation (k : Nat) (op : Op)
  | arm (k : Nat) (ts : UInt64) (n : Nat)
  | complete (k : Nat) (v : Except E T) (passed : Option Nat)
  | timer (k : Nat) (res : Int32) (passed : Option Nat)

structure WithTimeoutRun (E T : Type) extends Coroutines (WithTimeoutAwaiter E T) (WithTimeout E T) where
  sqes : Submissions

variable {E T : Type}

namespace WithTimeoutAwaiter

def awaitResume (a : WithTimeoutAwaiter E T) : Except (Thrown E) T :=
  match a.exception, a.result with
  | some e, _ => .error e
  | none, some v => .ok v
  | none, none => .error .badOptionalAccess

def store (a : WithTimeoutAwaiter E T) : Except E T → WithTimeoutAwaiter E T
  | .ok value => { a with result := some value }
  | .error e => { a with exception := some (.operation e) }

def expire (a : WithTimeoutAwaiter E T) (res : Int32) : WithTimeoutAwaiter E T :=
  if res = -eTime ∨ res = 0 then { a with timeoutFired := true, exception := some (.timeout {}) } else a

end WithTimeoutAwaiter

namespace WithTimeoutRun

def deliver (content : WithTimeoutAwaiter E T) (d : WithTimeout E T) : WithTimeout E T :=
  { d with results := d.results ++ [content.awaitResume] }

-- the end that the callbacks of an awaiter share
def finish (s : WithTimeoutRun E T) (k : Nat) (a : Await (WithTimeout E T)) (content : WithTimeoutAwaiter E T)
    (userData : UInt64) (passed : Option Nat) : WithTimeoutRun E T where
  toCoroutines := (s.write a.place { content with done := true }).resume a.coroutine deliver
  sqes := s.sqes.cancel k userData passed

-- the two callbacks that `submit_fn_` gets; each finds what stands in the place of the awaiter
def onOperation (s : WithTimeoutRun E T) (k : Nat) (a : Await (WithTimeout E T)) (v : Except E T)
    (passed : Option Nat) : WithTimeoutRun E T :=
  let content := s.memory a.place
  if content.done then s else s.finish k a (content.store v) content.timeoutUserData passed

def onTimer (s : WithTimeoutRun E T) (k : Nat) (a : Await (WithTimeout E T)) (res : Int32) (passed : Option Nat) :
    WithTimeoutRun E T :=
  let content := s.memory a.place
  if content.done then s else s.finish k a (content.expire res) content.operationUserData passed

def note (s : WithTimeoutRun E T) (k : Nat) (a : Await (WithTimeout E T)) (d : WithTimeout E T) :
    WithTimeoutRun E T :=
  { s with toCoroutines := s.put k { a with data := d } }

def step (s : WithTimeoutRun E T) : WithTimeoutEvent E T → Option (WithTimeoutRun E T)
  | .prepare op =>
      match s.sqes.ring.prepare op .other with
      | .ok ring => some { s with sqes.ring := ring }
      | .error _ => some s
  | .submit n => some { s with sqes := s.sqes.pass n }
  | .await coroutine place => (s.start coroutine place {} {}).map ({ s with toCoroutines := · })
  | .reuse place content => (s.reuse place content).map ({ s with toCoroutines := · })
  | .submitOperation k op =>
      match s.awaits[k]?, s.sqes.ring.prepare op (.operation k) with
      | some a, .ok ring =>
          if a.data.operation = none then
            some
              { s.note k a { a.data with operation := some (s.sqes.ring.setCallback (.operation k)).1 } with
                sqes.ring := ring }
          else none
      | _, _ => none
  | .arm k ts n =>
      match s.awaits[k]?, s.sqes.ring.prepareTimeout ts 0 (.timer k) 0 with
      | some a, .ok ring =>
          if a.data.operation ≠ none ∧ a.data.timer = none then
            let armed := s.note k a { a.data with timer := some (s.sqes.ring.setCallback (.timer k)).1 }
            some
              { toCoroutines :=
                  armed.write a.place
                    { s.memory a.place with timeoutUserData := s.sqes.ring.peekNextCallbackId }
                sqes := { s.sqes with ring }.pass n }
          else none
      | _, _ => none
  | .complete k v passed =>
      match s.awaits[k]? with
      | none => none
      | some a =>
          if a.data.operation ≠ none ∧ a.data.operationEnded = false then
            let d := { a.data with operationEnded := true, first := a.data.first.or (some (.operation v)) }
            some ((s.note k a d).onOperation k a v passed)
          else none
  | .timer k res passed =>
      match s.awaits[k]? with
      | none => none
      | some a =>
          if a.data.timer ≠ none ∧ a.data.timerEnded = false then
            let d := { a.data with timerEnded := true, first := a.data.first.or (some (.timer res)) }
            some ((s.note k a d).onTimer k a res passed)
          else none

/-- The coroutine was resumed once, with the outcome of the completion that came first, and the other is cancelled. -/
def Resolved (s : WithTimeoutRun E T) (k : Nat) (d : WithTimeout E T) : Prop :=
  match d.first with
  | none => d.results = []
  | some (.operation v) => d.results = [v.mapError .operation] ∧ ∃ u, d.timer = some u ∧ s.sqes.Cancelled k u
  | some (.timer _) => d.results = [.error (.timeout {})] ∧ ∃ u, d.operation = some u ∧ s.sqes.Cancelled k u

structure AllResolved (s : WithTimeoutRun E T) : Prop where
  strays : s.strays = 0
  resolved : ∀ k a, s.awaits[k]? = some a → s.Resolved k a.data

/-- The operation comes first, with the timer armed under an id inside the table, and its async cancel finds room and
is passed on; and what comes then finds `done_` where the awaiter was. -/
def Won (s : WithTimeoutRun E T) : WithTimeoutEvent E T → Prop
  | .complete k _ passed => ∀ a, s.awaits[k]? = some a →
      (a.data.first = none → a.data.timer ≠ none ∧
        (0 < (s.memory a.place).timeoutUserData.toNat ∧
          (s.memory a.place).timeoutUserData.toNat < kMaxCallbacks) ∧
        s.sqes.ring.sq.length < s.sqes.ring.queueDepth ∧ ∃ n, passed = some n ∧ s.sqes.ring.sq.length < n) ∧
      (a.data.first ≠ none → (s.memory a.place).done = true)
  | .timer k _ _ => ∀ a, s.awaits[k]? = some a → a.data.first ≠ none ∧ (s.memory a.place).done = true
  | _ => True

structure Waits (d : WithTimeout E T) (content : WithTimeoutAwaiter E T) : Prop where
  done : content.done = false
  result : content.result = none
  exception : content.exception = none
  operationUserData : content.operationUserData = 0
  timeoutUserData : ∀ u, d.timer = some u → u.toNat = content.timeoutUserData.toNat % kMaxCallbacks

structure Sound (s : WithTimeoutRun E T) : Prop where
  apart : s.Apart
  waits : s.Holding Waits
  waiting : ∀ a ∈ s.awaits, a.waiting = true ↔ a.data.first = none
  timed : ∀ a ∈ s.awaits, a.data.first ≠ none → a.data.timer ≠ none
  uncancelled : ∀ k, (∀ a, s.awaits[k]? = some a → a.data.first = none) → s.sqes.Uncancelled k

variable {s t : WithTimeoutRun E T} {k : Nat} {a : Await (WithTimeout E T)} {d : WithTimeout E T}

theorem getElem?_note (ha : s.awaits[k]? = some a) (j : Nat) :
    (s.note k a d).awaits[j]? = if j = k then some { a with data := d } else s.awaits[j]? := getElem?_put ha j

structure Extends (d d' : WithTimeout E T) : Prop where
  first : d'.first = d.first
  results : d'.results = d.results
  operation : ∀ u, d.operation = some u → d'.operation = some u
  timer : ∀ u, d.timer = some u → d'.timer = some u

theorem Resolved.extends {d' : WithTimeout E T} (h : s.Resolved k d) (hd : Extends d d')
    (hcancelled : ∀ u, s.sqes.Cancelled k u → t.sqes.Cancelled k u) : t.Resolved k d' := by
  rw [Resolved] at h ⊢
  rw [hd.first, hd.results]
  split at h
  · exact h
  · obtain ⟨hresult, u, hu, hc⟩ := h
    exact ⟨hresult, u, hd.timer u hu, hcancelled u hc⟩
  · obtain ⟨hresult, u, hu, hc⟩ := h
    exact ⟨hresult, u, hd.operation u hu, hcancelled u hc⟩

theorem AllResolved.sqes {sqes : Submissions} (h : s.AllResolved)
    (hcancelled : ∀ k u, s.sqes.Cancelled k u → sqes.Cancelled k u) : AllResolved { s with sqes } where
  strays := h.strays
  resolved k a ha := (h.resolved k a ha).extends ⟨rfl, rfl, fun _ h => h, fun _ h => h⟩ (hcancelled k)

theorem AllResolved.note (h : s.AllResolved) (ha : s.awaits[k]? = some a) (hd : Extends a.data d) :
    (s.note k a d).AllResolved where
  strays := h.strays
  resolved j b hb := by
    rw [getElem?_note ha] at hb
    split at hb
    · next hj =>
        subst hj
        cases hb
        exact (h.resolved j a ha).extends hd fun _ hc => hc
    · exact (h.resolved j b hb).extends ⟨rfl, rfl, fun _ h => h, fun _ h => h⟩ fun _ hc => hc

theorem Sound.sqes {sqes : Submissions} (h : s.Sound)
    (huncancelled : ∀ k, s.sqes.Uncancelled k → sqes.Uncancelled k) : Sound { s with sqes } where
  apart := h.apart.of_awaits rfl
  waits := h.waits
  waiting := h.waiting
  timed := h.timed
  uncancelled k hk := huncancelled k (h.uncancelled k hk)

theorem Sound.note (h : s.Sound) (ha : s.awaits[k]? = some a) (hd : Extends a.data d)
    (htimer : d.timer = a.data.timer) : (s.note k a d).Sound where
  apart := h.apart.put ha rfl rfl id
  waits := h.waits.put fun hw =>
    have hold := h.waits a (List.mem_of_getElem? ha) hw
    { hold with timeoutUserData := by rw [htimer]; exact hold.timeoutUserData }
  waiting := forall_put h.waiting (by rw [hd.first]; exact h.waiting a (List.mem_of_getElem? ha))
  timed := forall_put h.timed (by rw [hd.first, htimer]; exact h.timed a (List.mem_of_getElem? ha))
  uncancelled j hj := h.uncancelled j fun b hb => by
    have hget := getElem?_note (d := d) ha j
    by_cases hjk : j = k
    · subst hjk
      rw [if_pos rfl] at hget
      have hnone := hj _ hget
      cases ha.symm.trans hb
      exact hd.first.symm.trans hnone
    · rw [if_neg hjk, hb] at hget
      exact hj b hget

/-- The callback that comes first resumes the coroutine where it waits. -/
theorem Sound.finish (h : s.Sound) (ha : s.awaits[k]? = some a) (hw : a.waiting = true)
    (content : WithTimeoutAwaiter E T) (userData : UInt64) (passed : Option Nat) :
    (s.note k a d).finish k a content userData passed =
      { toCoroutines := (s.write a.place { content with done := true }).put k
          { a with waiting := false, data := deliver { content with done := true } d }
        sqes := s.sqes.cancel k userData passed } := by
  let b : Await (WithTimeout E T) := { a with data := d }
  let u := (s.write a.place { content with done := true }).put k b
  have hget : u.awaits[k]? = some b := (getElem?_put (s := s.write a.place _) ha k).trans (if_pos rfl)
  have hapart : u.Apart := (h.apart.put (d := b) ha rfl rfl fun _ => hw).of_awaits rfl
  have hmemory : u.memory a.place = { content with done := true } := Function.update_self _ _ _
  have hresume := hapart.resume hget hw deliver
  rw [wake, show b.place = a.place from rfl, hmemory, put_put] at hresume
  exact congrArg (WithTimeoutRun.mk · _) hresume

/-- A callback that does not find `done_` any more resumes the coroutine wherever it stands. -/
theorem Sound.again (h : s.Sound) (ha : s.awaits[k]? = some a) (hw : ¬a.waiting = true)
    (content : WithTimeoutAwaiter E T) (userData : UInt64) (passed : Option Nat) :
    ¬((s.note k a d).finish k a content userData passed).AllResolved := by
  intro hP'
  rcases resume_cases ((s.note k a d).write a.place { content with done := true }) a.coroutine deliver with
    ⟨j, b, hj, hwb, heq⟩ | heq
  · -- another `co_await` of the coroutine ends, and none of its own completions has come
    have hb : s.awaits[j]? = some b := by
      have hold : (s.note k a d).awaits[j]? = some b := hj
      rw [getElem?_note ha] at hold
      split at hold
      · cases hold
        exact absurd hwb hw
      · exact hold
    have hfirst := (h.waiting b (List.mem_of_getElem? hb)).mp hwb
    have hnew := hP'.resolved j
    rw [WithTimeoutRun.finish, heq] at hnew
    have hnone := hnew _ ((getElem?_put hj j).trans (if_pos rfl))
    rw [Resolved, show (wake _ deliver b).data.first = none from hfirst] at hnone
    exact List.append_ne_nil_of_right_ne_nil _ (List.cons_ne_nil _ _) hnone
  · have hstrays := hP'.strays
    rw [WithTimeoutRun.finish, heq] at hstrays
    exact Nat.succ_ne_zero _ hstrays

theorem decided_iff (hP : s.AllResolved) (ha : s.awaits[k]? = some a) {b : Await (WithTimeout E T)}
    (content : WithTimeoutAwaiter E T) (userData : UInt64) (passed : Option Nat) :
    AllResolved
        { toCoroutines := (s.write a.place content).put k b, sqes := s.sqes.cancel k userData passed } ↔
      Resolved { s with sqes := s.sqes.cancel k userData passed } k b.data := by
  have hget := getElem?_put (s := s.write a.place content) (d := b) ha
  constructor
  · exact fun hP' => hP'.resolved k b ((hget k).trans (if_pos rfl))
  · refine fun hb => ⟨hP.strays, fun j c hc => ?_⟩
    have hget' := (hget j).symm.trans hc
    split at hget'
    · next hj =>
        cases hget'
        rw [hj]
        exact hb
    · exact (hP.resolved j c hget').extends ⟨rfl, rfl, fun _ h => h, fun _ h => h⟩ fun _ hcancelled =>
        hcancelled.cancel k userData passed

theorem Sound.decided (h : s.Sound) (ha : s.awaits[k]? = some a) (hw : a.waiting = true) (hfirst : d.first ≠ none)
    (htimer : d.timer ≠ none) (content : WithTimeoutAwaiter E T) (userData : UInt64) (passed : Option Nat) :
    Sound
      { toCoroutines := (s.write a.place content).put k { a with waiting := false, data := d }
        sqes := s.sqes.cancel k userData passed } := by
  have hgone : ¬false = true := Bool.false_ne_true
  refine ⟨?_, ?_, forall_put h.waiting (iff_of_false hgone hfirst), forall_put h.timed fun _ => htimer, ?_⟩
  · have hput := h.apart.put (d := { a with waiting := false, data := d }) ha rfl rfl fun hw' => absurd hw' hgone
    exact hput.of_awaits rfl
  · exact h.waits.put_write h.apart ha hw rfl fun hw' => absurd hw' hgone
  · intro j hj
    have hget := getElem?_put (s := s.write a.place content) (d := { a with waiting := false, data := d }) ha
    have hjk : j ≠ k := by
      rintro rfl
      exact hfirst (hj _ ((hget j).trans (if_pos rfl)))
    refine (h.uncancelled j fun c hc => hj c ?_).cancel hjk.symm userData passed
    exact (hget j).trans ((if_neg hjk).trans hc)

/-- The `user_data` that the cancel is aimed at is the timer's as long as the counter has not left the table. -/
theorem Waits.aimed_iff {content : WithTimeoutAwaiter E T} (h : Waits d content) {u : UInt64}
    (hu : d.timer = some u) : u = content.timeoutUserData ∧ content.timeoutUserData ≠ 0 ↔
      0 < content.timeoutUserData.toNat ∧ content.timeoutUserData.toNat < kMaxCallbacks := by
  have hdata := h.timeoutUserData u hu
  rw [← UInt64.toNat_inj, ne_eq, ← UInt64.toNat_inj, hdata, UInt64.toNat_zero, Nat.mod_eq_iff_lt (by decide),
    ← ne_eq, ← Nat.pos_iff_ne_zero]
  exact and_comm

theorem awaitResume_store {content : WithTimeoutAwaiter E T} (h : Waits d content) (v : Except E T) :
    { content.store v with done := true : WithTimeoutAwaiter E T }.awaitResume = v.mapError .operation := by
  cases v with
  | ok value => simp only [WithTimeoutAwaiter.store, WithTimeoutAwaiter.awaitResume, h.exception, Except.mapError]
  | error e => rfl

theorem step_complete {v : Except E T} {passed : Option Nat} (hs : s.step (.complete k v passed) = some t) :
    ∃ a, s.awaits[k]? = some a ∧ a.data.operation ≠ none ∧
      t =
        (s.note k a
          { a.data with operationEnded := true, first := a.data.first.or (some (.operation v)) }).onOperation
        k a v passed := by
  simp only [step] at hs
  split at hs
  · cases hs
  · next a ha =>
      split at hs
      · next hguard => exact ⟨a, ha, hguard.1, (Option.some.inj hs).symm⟩
      · cases hs

theorem step_timer {res : Int32} {passed : Option Nat} (hs : s.step (.timer k res passed) = some t) :
    ∃ a, s.awaits[k]? = some a ∧ a.data.timer ≠ none ∧
      t = (s.note k a { a.data with timerEnded := true, first := a.data.first.or (some (.timer res)) }).onTimer
        k a res passed := by
  simp only [step] at hs
  split at hs
  · cases hs
  · next a ha =>
      split at hs
      · next hguard => exact ⟨a, ha, hguard.1, (Option.some.inj hs).symm⟩
      · cases hs

/-- The operation comes first. -/
theorem Sound.first_complete (h : s.Sound) (ha : s.awaits[k]? = some a) (hfirst : a.data.first = none)
    (v : Except E T) (passed : Option Nat) :
    ∃ content, (s.note k a d).onOperation k a v passed =
      { toCoroutines := (s.write a.place content).put k
          { a with waiting := false, data := { d with results := d.results ++ [v.mapError .operation] } }
        sqes := s.sqes.cancel k (s.memory a.place).timeoutUserData passed } := by
  have hmem := List.mem_of_getElem? ha
  have hw := (h.waiting a hmem).mpr hfirst
  have hwaits := h.waits a hmem hw
  refine ⟨{ (s.memory a.place).store v with done := true }, ?_⟩
  have hoff : ¬((s.note k a d).memory a.place).done = true := Bool.eq_false_iff.mp hwaits.done
  rw [onOperation, if_neg hoff]
  refine (h.finish ha hw _ _ _).trans ?_
  rw [deliver, ← awaitResume_store hwaits]
  rfl

theorem extends_late (hfirst : a.data.first ≠ none) (c : Completion E T) (operationEnded timerEnded : Bool) :
    Extends a.data { a.data with operationEnded, timerEnded, first := a.data.first.or (some c) } := by
  obtain ⟨c', hc'⟩ := Option.ne_none_iff_exists'.mp hfirst
  refine ⟨?_, rfl, fun _ h => h, fun _ h => h⟩
  rw [hc']
  rfl

theorem onOperation_late (hdone : (s.memory a.place).done = true) (v : Except E T) (passed : Option Nat) :
    (s.note k a d).onOperation k a v passed = s.note k a d := by
  rw [onOperation, if_pos (by exact hdone)]

theorem onTimer_late (hdone : (s.memory a.place).done = true) (res : Int32) (passed : Option Nat) :
    (s.note k a d).onTimer k a res passed = s.note k a d := by
  rw [onTimer, if_pos (by exact hdone)]

theorem resolved_complete {v : Except E T} {passed : Option Nat} (h : s.Sound) (hP : s.AllResolved)
    (hs : s.step (.complete k v passed) = some t) : t.AllResolved ↔ s.Won (.complete k v passed) := by
  obtain ⟨a, ha, -, rfl⟩ := step_complete hs
  have hmem := List.mem_of_getElem? ha
  simp only [Won, ha, Option.some.injEq, forall_eq']
  by_cases hfirst : a.data.first = none
  · have hwaits := h.waits a hmem ((h.waiting a hmem).mpr hfirst)
    have hquiet : s.sqes.Uncancelled k := h.uncancelled k fun b hb => by
      cases ha.symm.trans hb
      exact hfirst
    have hresults := hP.resolved k a ha
    simp only [Resolved, hfirst] at hresults
    obtain ⟨content, heq⟩ := h.first_complete ha hfirst v passed
    rw [heq, decided_iff hP ha]
    simp only [Resolved, hfirst, Option.none_or, hresults, List.nil_append, eq_self, true_and,
      Submissions.cancelled_cancel hquiet, ne_eq, not_true_eq_false, false_imp_iff, and_true, true_imp_iff]
    constructor
    · rintro ⟨u, hu, haim, hne, hroom, hpassed⟩
      exact ⟨fun hnone => (by cases hu.symm.trans hnone), (hwaits.aimed_iff hu).mp ⟨haim, hne⟩, hroom, hpassed⟩
    · rintro ⟨htimer, hdata, hroom, hpassed⟩
      obtain ⟨u, hu⟩ := Option.ne_none_iff_exists'.mp htimer
      obtain ⟨haim, hne⟩ := (hwaits.aimed_iff hu).mpr hdata
      exact ⟨u, hu, haim, hne, hroom, hpassed⟩
  · simp only [hfirst, false_imp_iff, true_and, ne_eq, not_false_eq_true, true_imp_iff]
    by_cases hdone : (s.memory a.place).done = true
    · rw [onOperation_late hdone]
      exact iff_of_true (hP.note ha (extends_late hfirst _ _ _)) hdone
    · refine iff_of_false ?_ hdone
      rw [onOperation, if_neg (by exact hdone)]
      exact h.again ha (fun hw => hfirst ((h.waiting a hmem).mp hw)) _ _ _

theorem resolved_timer {res : Int32} {passed : Option Nat} (h : s.Sound) (hP : s.AllResolved)
    (hs : s.step (.timer k res passed) = some t) : t.AllResolved ↔ s.Won (.timer k res passed) := by
  obtain ⟨a, ha, -, rfl⟩ := step_timer hs
  have hmem := List.mem_of_getElem? ha
  simp only [Won, ha, Option.some.injEq, forall_eq']
  by_cases hfirst : a.data.first = none
  · refine iff_of_false ?_ fun hwon => hwon.1 hfirst
    have hw := (h.waiting a hmem).mpr hfirst
    have hwaits := h.waits a hmem hw
    have hquiet : s.sqes.Uncancelled k := h.uncancelled k fun b hb => by
      cases ha.symm.trans hb
      exact hfirst
    -- `operation_user_data_` was never set, so no cancel is prepared
    rw [onTimer, if_neg (by exact Bool.eq_false_iff.mp hwaits.done), h.finish ha hw, decided_iff hP ha, Resolved]
    simp only [deliver, hfirst, Option.none_or]
    rintro ⟨-, u, -, hcancelled⟩
    exact ((Submissions.cancelled_cancel hquiet _ u passed).mp hcancelled).2.1 hwaits.operationUserData
  · by_cases hdone : (s.memory a.place).done = true
    · rw [onTimer_late hdone]
      exact iff_of_true (hP.note ha (extends_late hfirst _ _ _)) ⟨hfirst, hdone⟩
    · refine iff_of_false ?_ fun hwon => hdone hwon.2
      rw [onTimer, if_neg (by exact hdone)]
      exact h.again ha (fun hw => hfirst ((h.waiting a hmem).mp hw)) _ _ _

theorem step_await {coroutine place : Nat} (hs : s.step (.await coroutine place) = some t) :
    ∃ c, s.start coroutine place {} {} = some c ∧ t = { s with toCoroutines := c } := by
  obtain ⟨c, hc, rfl⟩ := Option.map_eq_some_iff.mp hs
  exact ⟨c, hc, rfl⟩

theorem step_reuse {place : Nat} {content : WithTimeoutAwaiter E T} (hs : s.step (.reuse place content) = some t) :
    ∃ c, s.reuse place content = some c ∧ t = { s with toCoroutines := c } := by
  obtain ⟨c, hc, rfl⟩ := Option.map_eq_some_iff.mp hs
  exact ⟨c, hc, rfl⟩

/-- A step by others leaves the coroutines alone, and their cancels. -/
theorem step_others {e : WithTimeoutEvent E T} (he : (∃ op, e = .prepare op) ∨ ∃ n, e = .submit n)
    (hs : s.step e = some t) :
    ∃ sqes, t = { s with sqes } ∧ ∀ k, (s.sqes.Uncancelled k → sqes.Uncancelled k) ∧
      ∀ u, s.sqes.Cancelled k u → sqes.Cancelled k u := by
  obtain ⟨op, rfl⟩ | ⟨n, rfl⟩ := he
  · simp only [step] at hs
    split at hs
    · next ring hring =>
        cases hs
        exact ⟨_, rfl, fun k => ⟨fun h => h.prepare hring nofun, fun u h => h⟩⟩
    · cases hs
      exact ⟨_, rfl, fun k => ⟨id, fun u => id⟩⟩
  · cases hs
    exact ⟨_, rfl, fun k => ⟨fun h => h.pass n, fun u h => h.pass n⟩⟩

theorem step_submitOperation {op : Op} (hs : s.step (.submitOperation k op) = some t) :
    ∃ a u ring, s.awaits[k]? = some a ∧ a.data.operation = none ∧
      s.sqes.ring.prepare op (.operation k) = .ok ring ∧
      t = { s.note k a { a.data with operation := some u } with sqes.ring := ring } := by
  simp only [step] at hs
  split at hs
  · next a ring ha hring =>
      split at hs
      · next hnone =>
          cases hs
          exact ⟨a, _, ring, ha, hnone, hring, rfl⟩
      · cases hs
  · cases hs

theorem step_arm {ts : UInt64} {n : Nat} (hs : s.step (.arm k ts n) = some t) :
    ∃ a ring, s.awaits[k]? = some a ∧ a.data.operation ≠ none ∧ a.data.timer = none ∧
      s.sqes.ring.prepareTimeout ts 0 (.timer k) 0 = .ok ring ∧
      t =
        { toCoroutines :=
            (s.write a.place { s.memory a.place with timeoutUserData := s.sqes.ring.peekNextCallbackId }).put k
              { a with data.timer := some (s.sqes.ring.setCallback (.timer k)).1 }
          sqes := { s.sqes with ring }.pass n } := by
  simp only [step] at hs
  split at hs
  · next a ring ha hring =>
      split at hs
      · next hguard =>
          cases hs
          exact ⟨a, ring, ha, hguard.1, hguard.2, hring, rfl⟩
      · cases hs
  · cases hs

theorem resolved_await {coroutine place : Nat} (hP : s.AllResolved) (hs : s.step (.await coroutine place) = some t) :
    t.AllResolved := by
  obtain ⟨c, hc, rfl⟩ := step_await hs
  refine ⟨(strays_start hc).trans hP.strays, fun k a ha => ?_⟩
  rcases (getElem?_start hc k).mp ha with ha | ⟨-, rfl⟩
  · exact (hP.resolved k a ha).extends ⟨rfl, rfl, fun _ h => h, fun _ h => h⟩ fun _ h => h
  · rfl

theorem resolved_reuse {place : Nat} {content : WithTimeoutAwaiter E T} (hP : s.AllResolved)
    (hs : s.step (.reuse place content) = some t) : t.AllResolved := by
  obtain ⟨c, hc, rfl⟩ := step_reuse hs
  obtain ⟨hawaits, hstrays⟩ := awaits_reuse hc
  refine ⟨hstrays.trans hP.strays, fun k a ha => ?_⟩
  have hold : s.awaits[k]? = some a := by rw [← hawaits]; exact ha
  exact (hP.resolved k a hold).extends ⟨rfl, rfl, fun _ h => h, fun _ h => h⟩ fun _ h => h

theorem resolved_step {e : WithTimeoutEvent E T} (h : s.Sound) (hP : s.AllResolved) (hs : s.step e = some t) :
    t.AllResolved ↔ s.Won e := by
  cases e with
  | prepare op =>
      obtain ⟨sqes, rfl, hsqes⟩ := step_others (.inl ⟨op, rfl⟩) hs
      exact iff_of_true (hP.sqes fun k => (hsqes k).2) trivial
  | submit n =>
      obtain ⟨sqes, rfl, hsqes⟩ := step_others (.inr ⟨n, rfl⟩) hs
      exact iff_of_true (hP.sqes fun k => (hsqes k).2) trivial
  | await coroutine place => exact iff_of_true (resolved_await hP hs) trivial
  | reuse place content => exact iff_of_true (resolved_reuse hP hs) trivial
  | submitOperation k op =>
      obtain ⟨a, u, ring, ha, hnone, -, rfl⟩ := step_submitOperation hs
      have hd : Extends a.data { a.data with operation := some u } :=
        ⟨rfl, rfl, fun _ hu => (by cases hnone.symm.trans hu), fun _ hu => hu⟩
      exact iff_of_true ((hP.note ha hd).sqes fun _ _ hc => hc) trivial
  | arm k ts n =>
      obtain ⟨a, ring, ha, -, hnone, -, rfl⟩ := step_arm hs
      have hd : Extends a.data { a.data with timer := some (s.sqes.ring.setCallback (.timer k)).1 } :=
        ⟨rfl, rfl, fun _ hu => hu, fun _ hu => by cases hnone.symm.trans hu⟩
      have hnoted := hP.note ha hd
      refine iff_of_true ⟨hnoted.strays, fun j b hb => ?_⟩ trivial
      exact (hnoted.resolved j b hb).extends ⟨rfl, rfl, fun _ h => h, fun _ h => h⟩ fun _ hc =>
        Submissions.Cancelled.pass (s := { s.sqes with ring }) hc n
  | complete k v passed => exact resolved_complete h hP hs
  | timer k res passed => exact resolved_timer h hP hs

theorem Sound.await {coroutine place : Nat} (h : s.Sound) (hs : s.step (.await coroutine place) = some t) :
    t.Sound := by
  obtain ⟨c, hc, rfl⟩ := step_await hs
  refine ⟨h.apart.start hc, h.waits.start hc ⟨rfl, rfl, rfl, rfl, fun _ => nofun⟩, ?_, ?_, ?_⟩
  · intro a ha
    rcases (mem_start hc).mp ha with ha | rfl
    · exact h.waiting a ha
    · exact iff_of_true rfl rfl
  · intro a ha hfirst
    rcases (mem_start hc).mp ha with ha | rfl
    · exact h.timed a ha hfirst
    · exact absurd rfl hfirst
  · exact fun k hk => h.uncancelled k fun a ha => hk a ((getElem?_start hc k).mpr (.inl ha))

theorem Sound.reuse {place : Nat} {content : WithTimeoutAwaiter E T} (h : s.Sound)
    (hs : s.step (.reuse place content) = some t) : t.Sound := by
  obtain ⟨c, hc, rfl⟩ := step_reuse hs
  have hsame := (awaits_reuse hc).1
  refine ⟨h.apart.of_awaits hsame, h.waits.reuse hc, ?_, ?_, ?_⟩
  · rw [hsame]
    exact h.waiting
  · rw [hsame]
    exact h.timed
  · rw [hsame]
    exact h.uncancelled

theorem Sound.arm {ts : UInt64} {n : Nat} (h : s.Sound) (hs : s.step (.arm k ts n) = some t) : t.Sound := by
  obtain ⟨a, ring, ha, -, hnone, hring, rfl⟩ := step_arm hs
  have hmem := List.mem_of_getElem? ha
  -- without a timer no completion has come
  have hfirst : a.data.first = none := by
    by_contra hfirst
    exact h.timed a hmem hfirst hnone
  have hw := (h.waiting a hmem).mpr hfirst
  have hwaits := h.waits a hmem hw
  let b : Await (WithTimeout E T) := { a with data.timer := some (s.sqes.ring.setCallback (.timer k)).1 }
  refine ⟨(h.apart.put (d := b) ha rfl rfl id).of_awaits rfl, ?_, ?_, ?_, ?_⟩
  · refine h.waits.put_write h.apart ha hw rfl fun _ => ?_
    refine { hwaits with timeoutUserData := fun u hu => ?_ }
    cases hu
    exact UInt64.toNat_mod ..
  · exact forall_put h.waiting (h.waiting a hmem)
  · exact forall_put h.timed fun hne => absurd hfirst hne
  · intro j hj
    have hold : s.sqes.Uncancelled j := h.uncancelled j fun b hb => by
      by_cases hjk : j = k
      · subst hjk
        cases ha.symm.trans hb
        exact hfirst
      · refine hj b (Eq.trans ?_ hb)
        exact (getElem?_put (s := s.write a.place _) ha j).trans (if_neg hjk)
    exact (hold.prepare hring nofun).pass n

theorem Sound.step {e : WithTimeoutEvent E T} (h : s.Sound) (hP : s.AllResolved) (hs : s.step e = some t)
    (hP' : t.AllResolved) : t.Sound := by
  cases e with
  | prepare op =>
      obtain ⟨sqes, rfl, hsqes⟩ := step_others (.inl ⟨op, rfl⟩) hs
      exact h.sqes fun k => (hsqes k).1
  | submit n =>
      obtain ⟨sqes, rfl, hsqes⟩ := step_others (.inr ⟨n, rfl⟩) hs
      exact h.sqes fun k => (hsqes k).1
  | await coroutine place => exact h.await hs
  | reuse place content => exact h.reuse hs
  | submitOperation k op =>
      obtain ⟨a, u, ring, ha, hnone, hring, rfl⟩ := step_submitOperation hs
      have hd : Extends a.data { a.data with operation := some u } :=
        ⟨rfl, rfl, fun _ hu => (by cases hnone.symm.trans hu), fun _ hu => hu⟩
      exact (h.note ha hd rfl).sqes fun j hj => Submissions.Uncancelled.prepare hj hring nofun
  | arm k ts n => exact h.arm hs
  | complete k v passed =>
      obtain ⟨a, ha, -, rfl⟩ := step_complete hs
      have hwon := (resolved_complete h hP hs).mp hP' a ha
      by_cases hfirst : a.data.first = none
      · obtain ⟨content, heq⟩ := h.first_complete ha hfirst v passed
        rw [heq]
        have hw := (h.waiting a (List.mem_of_getElem? ha)).mpr hfirst
        refine h.decided ha hw ?_ ?_ _ _ _
        · rw [hfirst]
          nofun
        · exact (hwon.1 hfirst).1
      · rw [onOperation_late (hwon.2 hfirst)]
        exact h.note ha (extends_late hfirst _ _ _) rfl
  | timer k res passed =>
      obtain ⟨a, ha, -, rfl⟩ := step_timer hs
      obtain ⟨hfirst, hdone⟩ := (resolved_timer h hP hs).mp hP' a ha
      rw [onTimer_late hdone]
      exact h.note ha (extends_late hfirst _ _ _) rfl

def start (queueDepth : Nat) (memory : Nat → WithTimeoutAwaiter E T) : WithTimeoutRun E T where
  memory
  sqes := { ring := { queueDepth } }

theorem start_sound (queueDepth : Nat) (memory : Nat → WithTimeoutAwaiter E T) :
    (start queueDepth memory).Sound where
  apart _ _ _ _ _ := nofun
  waits _ := nofun
  waiting _ := nofun
  timed _ := nofun
  uncancelled _ _ _ := nofun

end WithTimeoutRun

/-- In a run of any coroutines that wait with timeouts on one ring, whose awaiters stand where others stood before,
each is resumed once, with the outcome of its operation or its timer, whichever came first, and the other is
cancelled, exactly when the operation is always the first, at a time when its timer is armed under an id inside the
table and the cancel finds room and is passed on, and what comes then finds `done_` where the awaiter was. -/
theorem with_timeout_iff {E T : Type} (queueDepth : Nat) (memory : Nat → WithTimeoutAwaiter E T)
    (evs : List (WithTimeoutEvent E T)) (s : WithTimeoutRun E T)
    (h : run WithTimeoutRun.step (.start queueDepth memory) evs = some s) :
    Throughout WithTimeoutRun.step WithTimeoutRun.AllResolved (.start queueDepth memory) evs ↔
      EachStep WithTimeoutRun.step WithTimeoutRun.Won (.start queueDepth memory) evs := by
  have hbegin : (WithTimeoutRun.start queueDepth memory).AllResolved := ⟨rfl, fun _ _ => nofun⟩
  exact throughout_iff_keeping (fun _ _ _ => WithTimeoutRun.Sound.step) (fun _ _ _ => WithTimeoutRun.resolved_step)
    (WithTimeoutRun.start_sound queueDepth memory) hbegin h

-- a loop: both awaiters stand in place 7
def waitTwice : List (WithTimeoutEvent Unit Nat) :=
  [.await 0 7, .submitOperation 0 .nop, .arm 0 0 2, .complete 0 (.ok 5) (some 1), .timer 0 (-eCanceled) none,
    .await 0 7, .submitOperation 1 .nop, .arm 1 0 2, .complete 1 (.error ()) (some 1)]

theorem with_timeout_in_time :
    ∃ s, run WithTimeoutRun.step (.start 8 fun _ => {}) waitTwice = some s ∧ s.AllResolved := by
  have hC : EachStep WithTimeoutRun.step WithTimeoutRun.Won (.start 8 fun _ => {}) waitTwice := by
    iterate 3 refine (eachStep_cons rfl).mpr ⟨trivial, ?_⟩
    refine (eachStep_cons rfl).mpr ⟨fun a ha => ?_, ?_⟩
    · cases ha
      exact ⟨fun _ => ⟨nofun, by decide, by decide, 1, rfl, by decide⟩, fun hne => absurd rfl hne⟩
    refine (eachStep_cons rfl).mpr ⟨fun a ha => ?_, ?_⟩
    · cases ha
      exact ⟨nofun, rfl⟩
    iterate 3 refine (eachStep_cons rfl).mpr ⟨trivial, ?_⟩
    refine (eachStep_cons rfl).mpr ⟨fun a ha => ?_, eachStep_nil⟩
    cases ha
    exact ⟨fun _ => ⟨nofun, by decide, by decide, 1, rfl, by decide⟩, fun hne => absurd rfl hne⟩
  exact ⟨_, rfl, (with_timeout_iff 8 _ _ _ rfl).mpr hC _ _ List.prefix_rfl rfl⟩

/-- The timer ends first: the coroutine gets its exception, and no cancel of the operation. And the late CQE of a
timer resumes the coroutine at the next `co_await` of its loop, with neither a value nor an exception. -/
theorem with_timeout_not_cancelled :
    (∃ s : WithTimeoutRun Unit Nat, run WithTimeoutRun.step (.start 8 fun _ => {})
        [.await 0 7, .submitOperation 0 .nop, .arm 0 0 2, .timer 0 (-eTime) (some 1)] = some s ∧
      s.awaits.map (·.data.results) = [[.error (.timeout {})]] ∧ s.sqes.submitted.length = 2 ∧
      ¬s.AllResolved) ∧
    ∃ s : WithTimeoutRun Unit Nat, run WithTimeoutRun.step (.start 8 fun _ => {})
        [.await 0 7, .submitOperation 0 .nop, .arm 0 0 2, .complete 0 (.ok 5) (some 1), .await 0 7,
          .submitOperation 1 .nop, .arm 1 0 2, .timer 0 (-eCanceled) none] = some s ∧
      s.awaits.map (·.data.results) = [[.ok 5], [.error .badOptionalAccess]] ∧ ¬s.AllResolved := by
  refine ⟨⟨_, rfl, rfl, rfl, fun h => ?_⟩, ⟨_, rfl, rfl, fun h => ?_⟩⟩
  · obtain ⟨-, u, -, sqe, hsqe, hop, -⟩ := h.resolved 0 _ rfl
    rcases List.mem_cons.mp hsqe with rfl | hsqe
    · cases hop
    · rw [List.mem_singleton.mp hsqe] at hop
      cases hop
  · cases h.resolved 1 _ rfl

end CoroRpc.Io

import CoroRpc.Coro.Task
import Mathlib.Data.Fin.Tuple.Basic

namespace CoroRpc.Coro

open Trace

variable {V ε : Type}

/-- The body of a coroutine that holds `n` tasks which it has created and not awaited yet. A task leaves its
hands when it is awaited, so that it is awaited once and before its start. What a body does after an `await`
depends on the outcome: it may catch the failure or let it pass. -/
inductive Body (V ε : Type) : Nat → Type
  | ret {n : Nat} (value : V) : Body V ε n
  | throw {n : Nat} (e : ε) : Body V ε n
  | suspend {n : Nat} (next : V → Body V ε n) : Body V ε n
  | create {n : Nat} (child : Body V ε 0) (next : Body V ε (n + 1)) : Body V ε n
  | await {n : Nat} (i : Fin (n + 1)) (next : Except ε V → Body V ε n) : Body V ε (n + 1)

abbrev Call (V ε : Type) := Nat → Except ε V × Nat

/-- The direct style: a task is a function, and `co_await` calls it. `event` are the values which the
events deliver. -/
def Body.eval (event : Nat → V) {n : Nat} : Body V ε n → (Fin n → Call V ε) → Call V ε
  | .ret value, _, k => (.ok value, k)
  | .throw e, _, k => (.error e, k)
  | .suspend next, env, k => (next (event k)).eval event env (k + 1)
  | .create child next, env, k => next.eval event (Fin.cons (child.eval event Fin.elim0) env) k
  | .await i next, env, k =>
      let r := env i k
      (next r.1).eval event (i.removeNth env) r.2

/-- Where a coroutine stands: at its beginning, in its body, suspended on an event or on a task, or at its end.
`held` are the handles of its tasks. -/
inductive Point (V ε : Type)
  | initial (root : Body V ε 0)
  | body {n : Nat} (held : Fin n → Nat) (rest : Body V ε n)
  | event {n : Nat} (held : Fin n → Nat) (next : V → Body V ε n)
  | awaiting (child : Nat) {n : Nat} (held : Fin n → Nat) (next : Except ε V → Body V ε n)
  | final

structure Frame (V ε : Type) where
  promise : TaskPromise V ε Nat := {}
  point : Point V ε
  awaited : Nat := 0
  entered : Nat := 0
  finished : Nat := 0
  continued : Nat := 0

-- A handle is an index into `frames`. `control` is the coroutine that runs, `waiting` are those which an event
-- will resume, and `read` counts the events.
structure Machine (V ε : Type) where
  frames : List (Frame V ε)
  control : Option Nat
  waiting : List Nat := []
  read : Nat := 0

inductive MachineEvent
  | run
  | complete (handle : Nat)
  deriving DecidableEq

namespace Machine

def start (root : Body V ε 0) : Machine V ε :=
  { frames := [{ promise := (TaskPromise.start {}).2, point := .initial root }], control := some 0 }

def put (m : Machine V ε) (h : Nat) (f : Frame V ε) : Machine V ε := { m with frames := m.frames.set h f }

def finish (m : Machine V ε) (h : Nat) (f : Frame V ε) (o : Except ε V) : Machine V ε :=
  let s := (f.promise.settle o).finalSuspend
  let g := { f with
    promise := s.2
    point := .final
    finished := f.finished + 1
    continued := f.continued + if s.1.isSome then 1 else 0 }
  { m.put h g with control := s.1 }

def await (m : Machine V ε) (h : Nat) (f : Frame V ε) (c : Nat) (g : Frame V ε) : Machine V ε :=
  let n := m.put h f
  if g.promise.awaitReady then n.put c { g with awaited := g.awaited + 1 }
  else
    let s := g.promise.awaitSuspend c h
    { n.put c { g with promise := s.2, awaited := g.awaited + 1 } with control := some s.1 }

/-- `none` where the code has no defined behaviour: a handle without a frame, a coroutine that is
resumed behind its end or without the event it waits for, a read of an empty result. -/
def runFrame (m : Machine V ε) (h : Nat) (f : Frame V ε) : Option (Machine V ε) :=
  match f.point with
  | .initial root => some (m.put h { f with point := .body Fin.elim0 root, entered := f.entered + 1 })
  | .body _ (.ret value) => some (m.finish h f (.ok value))
  | .body _ (.throw e) => some (m.finish h f (.error e))
  | .body held (.suspend next) =>
      some { m.put h { f with point := .event held next } with control := none, waiting := h :: m.waiting }
  | .body held (.create child next) =>
      let n := m.put h { f with point := .body (Fin.cons m.frames.length held) next }
      some { n with frames := n.frames ++ [{ point := .initial child }] }
  | .body held (.await i next) =>
      m.frames[held i]?.map (m.await h { f with point := .awaiting (held i) (i.removeNth held) next } (held i))
  | .awaiting c held next =>
      m.frames[c]?.bind fun g => g.promise.awaitResume.map fun o => m.put h { f with point := .body held (next o) }
  | .event _ _ => none
  | .final => none

def step (event : Nat → V) (m : Machine V ε) : MachineEvent → Option (Machine V ε)
  | .run => m.control.bind fun h => m.frames[h]?.bind (m.runFrame h)
  | .complete h =>
      if m.control = none ∧ h ∈ m.waiting then
        m.frames[h]?.bind fun f =>
          match f.point with
          | .event held next =>
              some
                { m.put h { f with point := .body held (next (event m.read)) } with
                  control := some h
                  waiting := m.waiting.erase h
                  read := m.read + 1 }
          | _ => none
      else none

def get (m : Machine V ε) : Option (Except ε V) := m.frames[0]?.bind (·.promise.get)

end Machine

namespace Frame

structure Idle (f : Frame V ε) : Prop where
  state : f.promise.state = .created
  awaited : f.awaited = 0
  entered : f.entered = 0
  finished : f.finished = 0
  continued : f.continued = 0

structure Running (f : Frame V ε) : Prop where
  state : f.promise.state = .running
  exception : f.promise.exception = none
  awaited : f.awaited = if f.promise.continuation.isSome then 1 else 0
  entered : f.entered = 1
  finished : f.finished = 0
  continued : f.continued = 0

structure Done (f : Frame V ε) : Prop where
  state : f.promise.state = .completed
  entered : f.entered = 1
  finished : f.finished = 1
  continued : f.continued = f.awaited

def Settled (f : Frame V ε) : Prop := f.Idle ∨ f.Done ∧ f.awaited = 1

theorem Running.move {f : Frame V ε} (h : f.Running) (point : Point V ε) : Running { f with point } :=
  ⟨h.state, h.exception, h.awaited, h.entered, h.finished, h.continued⟩

theorem idle_initial (child : Body V ε 0) : Idle { point := .initial child } := ⟨rfl, rfl, rfl, rfl, rfl⟩

end Frame

namespace Machine

@[simp] theorem put_read (m : Machine V ε) (h : Nat) (f : Frame V ε) : (m.put h f).read = m.read := rfl

theorem length_put (m : Machine V ε) (h : Nat) (f : Frame V ε) :
    (m.put h f).frames.length = m.frames.length := List.length_set

theorem frames_put_self {m : Machine V ε} {h : Nat} {f : Frame V ε} (hf : m.frames[h]? = some f) (g : Frame V ε) :
    (m.put h g).frames[h]? = some g := by
  obtain ⟨hlt, -⟩ := List.getElem?_eq_some_iff.mp hf
  exact List.getElem?_set_self hlt

theorem frames_put_ne (m : Machine V ε) {h c : Nat} (hne : c ≠ h) (g : Frame V ε) :
    (m.put h g).frames[c]? = m.frames[c]? := List.getElem?_set_ne hne.symm

theorem lt_of_frames {m : Machine V ε} {h : Nat} {f : Frame V ε} (hf : m.frames[h]? = some f) :
    h < m.frames.length := (List.getElem?_eq_some_iff.mp hf).1

structure Runs (m : Machine V ε) (h : Nat) (f : Frame V ε) {n : Nat} (held : Fin n → Nat) (rest : Body V ε n) :
    Prop where
  control : m.control = some h
  waiting : m.waiting = []
  frame : m.frames[h]? = some f
  point : f.point = .body held rest
  running : f.Running

structure Finished (m m' : Machine V ε) (h : Nat) (f : Frame V ε) (own : Nat → Prop) (r : Except ε V × Nat) :
    Prop where
  control : m'.control = f.promise.continuation
  waiting : m'.waiting = []
  read : m'.read = r.2
  frame : ∃ g, m'.frames[h]? = some g ∧ g.Done ∧ g.awaited = f.awaited ∧ g.promise.awaitResume = some r.1
  length : m.frames.length ≤ m'.frames.length
  others : ∀ c, c < m.frames.length → c ≠ h → ¬own c → m'.frames[c]? = m.frames[c]?
  settled : ∀ c g, own c ∨ m.frames.length ≤ c → m'.frames[c]? = some g → g.Settled

variable {event : Nat → V}

theorem step_run {m : Machine V ε} {h : Nat} {f : Frame V ε} (hc : m.control = some h) (hf : m.frames[h]? = some f) :
    m.step event .run = m.runFrame h f := by
  simp [step, hc, hf]

theorem only_run {m m' : Machine V ε} {h : Nat} {f : Frame V ε} (hc : m.control = some h)
    (hf : m.frames[h]? = some f) (hs : m.runFrame h f = some m') : Only (step event) m m' := by
  refine ⟨.run, (step_run hc hf).trans hs, fun e u hu => ?_⟩
  cases e with
  | run => rfl
  | complete c => simp [step, hc] at hu

theorem only_complete {m m' : Machine V ε} {h : Nat} (hc : m.control = none) (hw : m.waiting = [h])
    (hs : m.step event (.complete h) = some m') : Only (step event) m m' := by
  refine ⟨.complete h, hs, fun e u hu => ?_⟩
  cases e with
  | run => simp [step, hc] at hu
  | complete c =>
      by_cases hch : c = h
      · rw [hch]
      · simp [step, hw, hch] at hu

/-- A coroutine that begins with this body comes to the end that the call of the body has. -/
def Terminates (event : Nat → V) (body : Body V ε 0) : Prop :=
  ∀ m h f, Runs m h f Fin.elim0 body →
    ∃ m', Relation.ReflTransGen (Only (step event)) m m' ∧
      Finished m m' h f (fun _ => False) (body.eval event Fin.elim0 m.read)

def Ready (event : Nat → V) (m : Machine V ε) (c : Nat) (d : Call V ε) : Prop :=
  ∃ child : Body V ε 0,
    m.frames[c]? = some { point := .initial child } ∧ d = child.eval event Fin.elim0 ∧ Terminates event child

theorem Ready.of_frames {m m' : Machine V ε} {c : Nat} {d : Call V ε} (h : Ready event m c d)
    (hf : m'.frames[c]? = m.frames[c]?) : Ready event m' c d := by
  obtain ⟨child, hc, hrest⟩ := h
  exact ⟨child, hf.trans hc, hrest⟩

theorem Ready.ne {m : Machine V ε} {c h : Nat} {d : Call V ε} {f : Frame V ε} {n : Nat} {held : Fin n → Nat}
    {rest : Body V ε n} (hc : Ready event m c d) (hr : Runs m h f held rest) : c ≠ h := by
  rintro rfl
  obtain ⟨child, hchild, -⟩ := hc
  have hpoint := hr.point
  rw [hr.frame] at hchild
  cases hchild
  cases hpoint

theorem Finished.of_later {m n m' : Machine V ε} {h : Nat} {f g : Frame V ε} {own own' : Nat → Prop}
    {r : Except ε V × Nat} (hn : Finished n m' h g own' r) (hcont : g.promise.continuation = f.promise.continuation)
    (haw : g.awaited = f.awaited) (hlen : m.frames.length ≤ n.frames.length) (hh : h < m.frames.length)
    (hown : ¬own h)
    (hothers : ∀ c, c < m.frames.length → c ≠ h → ¬own c → ¬own' c ∧ n.frames[c]? = m.frames[c]?)
    (hsettled : ∀ c g, c ≠ h → own c ∨ m.frames.length ≤ c → ¬own' c → n.frames[c]? = some g → g.Settled) :
    Finished m m' h f own r := by
  refine ⟨hn.control.trans hcont, hn.waiting, hn.read, ?_, hlen.trans hn.length, fun c hc hne hnot => ?_,
    fun c g hc hg => ?_⟩
  · obtain ⟨g', hg', hdone, hawaited, hres⟩ := hn.frame
    exact ⟨g', hg', hdone, hawaited.trans haw, hres⟩
  · obtain ⟨hnot', hframe⟩ := hothers c hc hne hnot
    exact (hn.others c (hc.trans_le hlen) hne hnot').trans hframe
  · by_cases hc' : own' c ∨ n.frames.length ≤ c
    · exact hn.settled c g hc' hg
    · rw [not_or, not_le] at hc'
      have hne : c ≠ h := by
        rintro rfl
        rcases hc with hc | hc
        · exact hown hc
        · omega
      rw [hn.others c hc'.2 hne hc'.1] at hg
      exact hsettled c g hne hc hc'.1 hg

theorem finished_finish {m : Machine V ε} {h : Nat} {f : Frame V ε} {n : Nat} {held : Fin n → Nat} {rest : Body V ε n}
    {env : Fin n → Call V ε} (hr : Runs m h f held rest) (hready : ∀ i, Ready event m (held i) (env i))
    (o : Except ε V) : Finished m (m.finish h f o) h f (fun c => ∃ i, held i = c) (o, m.read) := by
  have hrun := hr.running
  refine ⟨?_, hr.waiting, rfl, ⟨_, frames_put_self hr.frame _, ⟨rfl, hrun.entered, ?_, ?_⟩, rfl, ?_⟩, ?_, ?_, ?_⟩
  · exact f.promise.settle_continuation o
  · exact congrArg (· + 1) hrun.finished
  · simp [hrun.continued, hrun.awaited]
  · exact TaskPromise.awaitResume_settle hrun.exception o
  · exact (length_put m h _).ge
  · intro c _ hne _
    exact frames_put_ne m hne _
  · rintro c g (⟨i, rfl⟩ | hc) hg
    · obtain ⟨child, hchild, -⟩ := hready i
      have hkeep := (frames_put_ne m ((hready i).ne hr) _).symm.trans hg
      rw [hchild] at hkeep
      cases hkeep
      exact .inl (Frame.idle_initial child)
    · have hlt : c < (m.put h _).frames.length := lt_of_frames hg
      rw [length_put] at hlt
      omega

def Completes (event : Nat → V) {n : Nat} (rest : Body V ε n) : Prop :=
  ∀ m h f held env, Runs m h f held rest → Function.Injective held → (∀ i, Ready event m (held i) (env i)) →
    ∃ m', Relation.ReflTransGen (Only (step event)) m m' ∧
      Finished m m' h f (fun c => ∃ i, held i = c) (rest.eval event env m.read)

theorem completes_suspend {n : Nat} {next : V → Body V ε n} (ih : ∀ v, Completes event (next v)) :
    Completes event (.suspend next) := by
  intro m h f held env hr hinj hready
  have hnot : ¬∃ i, held i = h := fun ⟨i, hi⟩ => (hready i).ne hr hi
  let a : Machine V ε := { m.put h { f with point := .event held next } with control := none, waiting := [h] }
  let b : Machine V ε :=
    { a.put h { f with point := .body held (next (event m.read)) } with
      control := some h, waiting := [], read := m.read + 1 }
  have ha : Only (step event) m a := by
    refine only_run hr.control hr.frame ?_
    simp only [runFrame, hr.point, hr.waiting, a]
  have hframe : a.frames[h]? = some { f with point := .event held next } := frames_put_self hr.frame _
  have hb : Only (step event) a b := by
    refine only_complete rfl rfl ?_
    simp only [step, hframe, Option.bind_some]
    simp [a, b]
  have hkeep : ∀ c, c ≠ h → b.frames[c]? = m.frames[c]? := fun c hne =>
    (frames_put_ne a hne _).trans (frames_put_ne m hne _)
  have hlen : b.frames.length = m.frames.length := (length_put a h _).trans (length_put m h _)
  obtain ⟨m', hlead, hfin⟩ := ih (event m.read) b h _ held env
    ⟨rfl, rfl, frames_put_self hframe _, rfl, hr.running.move _⟩ hinj
    (fun i => (hready i).of_frames (hkeep _ ((hready i).ne hr)))
  refine ⟨m', .head ha (.head hb hlead), hfin.of_later rfl rfl hlen.ge (lt_of_frames hr.frame) hnot ?_ ?_⟩
  · intro c _ hne hc
    exact ⟨hc, hkeep c hne⟩
  · intro c g _ hc hc' hg
    have hlt := lt_of_frames hg
    rcases hc with hc | hc
    · exact absurd hc hc'
    · omega

theorem Completes.terminates {body : Body V ε 0} (h : Completes event body) : Terminates event body := by
  intro m c f hr
  obtain ⟨m', hlead, hfin⟩ := h m c f Fin.elim0 Fin.elim0 hr (fun i => i.elim0) (fun i => i.elim0)
  refine ⟨m', hlead, hfin.of_later rfl rfl le_rfl (lt_of_frames hr.frame) id ?_ ?_⟩
  · intro d _ _ _
    exact ⟨fun ⟨i, _⟩ => i.elim0, rfl⟩
  · rintro d g _ (hd | hd) _ hg
    · exact hd.elim
    · exact absurd (lt_of_frames hg) (by omega)

theorem completes_create {n : Nat} {child : Body V ε 0} {next : Body V ε (n + 1)} (hchild : Completes event child)
    (ih : Completes event next) : Completes event (.create child next) := by
  intro m h f held env hr hinj hready
  have hh := lt_of_frames hr.frame
  have hnot : ¬∃ i, held i = h := fun ⟨i, hi⟩ => (hready i).ne hr hi
  have hheld : ∀ i, held i < m.frames.length := fun i => by
    obtain ⟨_, hframe, -⟩ := hready i
    exact lt_of_frames hframe
  let a : Machine V ε := m.put h { f with point := .body (Fin.cons m.frames.length held) next }
  let b : Machine V ε := { a with frames := a.frames ++ [{ point := .initial child }] }
  have hb : Only (step event) m b := by
    refine only_run hr.control hr.frame ?_
    simp only [runFrame, hr.point, a, b]
  have hlen : a.frames.length = m.frames.length := length_put m h _
  have hold : ∀ c, c < m.frames.length → b.frames[c]? = a.frames[c]? := fun c hc =>
    List.getElem?_append_left (hlen ▸ hc)
  have hkeep : ∀ c, c < m.frames.length → c ≠ h → b.frames[c]? = m.frames[c]? := fun c hc hne =>
    (hold c hc).trans (frames_put_ne m hne _)
  have hnew : b.frames[m.frames.length]? = some { point := .initial child } := by
    rw [← hlen]
    exact List.getElem?_concat_length
  have hinj' : Function.Injective (Fin.cons m.frames.length held : Fin (n + 1) → Nat) := by
    refine Fin.cons_injective_iff.mpr ⟨?_, hinj⟩
    rintro ⟨i, hi⟩
    exact absurd (hheld i) (hi ▸ lt_irrefl _)
  have hready' : ∀ i : Fin (n + 1), Ready event b ((Fin.cons m.frames.length held : Fin (n + 1) → Nat) i)
      ((Fin.cons (child.eval event Fin.elim0) env : Fin (n + 1) → Call V ε) i) := by
    intro i
    cases i using Fin.cases with
    | zero => exact ⟨child, hnew, rfl, hchild.terminates⟩
    | succ i => exact (hready i).of_frames (hkeep _ (hheld i) ((hready i).ne hr))
  obtain ⟨m', hlead, hfin⟩ := ih b h _ _ _
    ⟨hr.control, hr.waiting, (hold h hh).trans (frames_put_self hr.frame _), rfl, hr.running.move _⟩ hinj' hready'
  refine ⟨m', .head hb hlead, hfin.of_later rfl rfl ?_ hh hnot ?_ ?_⟩
  · simp [b, hlen]
  · intro c hc hne hown
    refine ⟨?_, hkeep c hc hne⟩
    rintro ⟨i, rfl⟩
    cases i using Fin.cases with
    | zero => exact absurd hc (lt_irrefl _)
    | succ i => exact hown ⟨i, rfl⟩
  · rintro c g _ (⟨i, rfl⟩ | hc) hown hg
    · exact absurd ⟨i.succ, rfl⟩ hown
    · have hlt := lt_of_frames hg
      simp only [b, hlen, List.length_append, List.length_singleton] at hlt
      exact absurd ⟨0, (by omega : m.frames.length = c)⟩ hown

theorem leads_child {m : Machine V ε} {h : Nat} {f : Frame V ε} {n : Nat} {held : Fin (n + 1) → Nat}
    {env : Fin (n + 1) → Call V ε} {i : Fin (n + 1)} {next : Except ε V → Body V ε n}
    (hr : Runs m h f held (.await i next)) (hready : Ready event m (held i) (env i)) :
    ∃ b, Relation.ReflTransGen (Only (step event)) m b ∧ b.control = some h ∧ b.waiting = [] ∧
      b.read = (env i m.read).2 ∧
      b.frames[h]? = some { f with point := .awaiting (held i) (i.removeNth held) next } ∧
      (∃ g, b.frames[held i]? = some g ∧ g.Done ∧ g.awaited = 1 ∧ g.promise.awaitResume = some (env i m.read).1) ∧
      m.frames.length ≤ b.frames.length ∧
      (∀ c, c < m.frames.length → c ≠ h → c ≠ held i → b.frames[c]? = m.frames[c]?) ∧
      ∀ c g, m.frames.length ≤ c → b.frames[c]? = some g → g.Settled := by
  have hne : held i ≠ h := hready.ne hr
  obtain ⟨child, hchild, henv, hterm⟩ := hready
  let a : Machine V ε :=
    { (m.put h { f with point := .awaiting (held i) (i.removeNth held) next }).put (held i)
        { promise := { state := .running, continuation := some h }, point := .initial child, awaited := 1 } with
      control := some (held i) }
  let g : Frame V ε :=
    { promise := { state := .running, continuation := some h }
      point := .body Fin.elim0 child
      awaited := 1
      entered := 1 }
  have ha : Only (step event) m a := by
    refine only_run hr.control hr.frame ?_
    simp only [runFrame, hr.point, hchild, Option.map_some]
    rfl
  have hac : a.frames[held i]? = some _ := frames_put_self ((frames_put_ne m hne _).trans hchild) _
  have hb : Only (step event) a (a.put (held i) g) := only_run rfl hac rfl
  have hlen : (a.put (held i) g).frames.length = m.frames.length :=
    (length_put a _ _).trans ((length_put _ _ _).trans (length_put _ _ _))
  have hkeep : ∀ c, c ≠ held i → (a.put (held i) g).frames[c]? = (m.put h _).frames[c]? := fun c hc =>
    (frames_put_ne a hc g).trans (frames_put_ne _ hc _)
  obtain ⟨b, hlead, hfin⟩ := hterm (a.put (held i) g) (held i) g
    ⟨rfl, hr.waiting, frames_put_self hac _, rfl, ⟨rfl, rfl, rfl, rfl, rfl, rfl⟩⟩
  have hothers := hfin.others
  rw [hlen] at hothers
  refine ⟨b, .head ha (.head hb hlead), hfin.control, hfin.waiting, ?_, ?_, ?_, ?_, ?_, ?_⟩
  · rw [hfin.read, henv]
    rfl
  · rw [hothers h (lt_of_frames hr.frame) hne.symm id, hkeep h hne.symm]
    exact frames_put_self hr.frame _
  · rw [henv]
    exact hfin.frame
  · exact hlen ▸ hfin.length
  · intro c hc hch hci
    rw [hothers c hc hci id, hkeep c hci]
    exact frames_put_ne m hch _
  · intro c g hc hg
    exact hfin.settled c g (.inr (hlen ▸ hc)) hg

theorem completes_await {n : Nat} {i : Fin (n + 1)} {next : Except ε V → Body V ε n}
    (ih : ∀ o, Completes event (next o)) : Completes event (.await i next) := by
  intro m h f held env hr hinj hready
  have hnot : ¬∃ j, held j = h := fun ⟨j, hj⟩ => (hready j).ne hr hj
  obtain ⟨b, hlead, hctrl, hwait, hread, hframe, ⟨g, hg, hdone, haw, hres⟩, hlen, hkeep, hnew⟩ :=
    leads_child hr (hready i)
  -- `await_resume` gives the outcome of the child
  let f' : Frame V ε := { f with point := .body (i.removeNth held) (next (env i m.read).1) }
  have hb : Only (step event) b (b.put h f') := by
    refine only_run hctrl hframe ?_
    simp only [runFrame, hg, hres, Option.bind_some, Option.map_some, f']
  have hkeep' : ∀ c, c < m.frames.length → c ≠ h → c ≠ held i → (b.put h f').frames[c]? = m.frames[c]? :=
    fun c hc hch hci => (frames_put_ne b hch f').trans (hkeep c hc hch hci)
  have hready' : ∀ j, Ready event (b.put h f') (i.removeNth held j) (i.removeNth env j) := by
    intro j
    have hj := hready (i.succAbove j)
    refine hj.of_frames (hkeep' _ ?_ (hj.ne hr) (hinj.ne (i.succAbove_ne j)))
    obtain ⟨_, hframe, -⟩ := hj
    exact lt_of_frames hframe
  obtain ⟨m', hlead', hfin⟩ := ih (env i m.read).1 (b.put h f') h f' (i.removeNth held) (i.removeNth env)
    ⟨hctrl, hwait, frames_put_self hframe _, rfl, hr.running.move _⟩ (hinj.comp i.succAbove_right_injective) hready'
  rw [put_read, hread] at hfin
  refine ⟨m', hlead.trans (.head hb hlead'), hfin.of_later rfl rfl ?_ (lt_of_frames hr.frame) hnot ?_ ?_⟩
  · rw [length_put]
    exact hlen
  · intro c hc hch hown
    refine ⟨fun ⟨j, hj⟩ => hown ⟨i.succAbove j, hj⟩, hkeep' c hc hch fun hci => hown ⟨i, hci.symm⟩⟩
  · intro c g' hch hc hown hg'
    rw [frames_put_ne b hch] at hg'
    rcases hc with ⟨j, rfl⟩ | hc
    · by_cases hji : j = i
      · subst hji
        rw [hg] at hg'
        cases hg'
        exact .inr ⟨hdone, haw⟩
      · obtain ⟨k, rfl⟩ := Fin.exists_succAbove_eq hji
        exact absurd ⟨k, rfl⟩ hown
    · exact hnew c g' hc hg'

theorem completes (event : Nat → V) {n : Nat} (rest : Body V ε n) : Completes event rest := by
  induction rest with
  | ret value =>
      intro m h f held env hr _ hready
      refine ⟨_, .single (only_run hr.control hr.frame ?_), finished_finish hr hready (.ok value)⟩
      simp only [runFrame, hr.point]
  | throw e =>
      intro m h f held env hr _ hready
      refine ⟨_, .single (only_run hr.control hr.frame ?_), finished_finish hr hready (.error e)⟩
      simp only [runFrame, hr.point]
  | suspend next ih => exact completes_suspend ih
  | create child next hchild ih => exact completes_create hchild ih
  | await i next ih => exact completes_await ih

theorem step_none {m : Machine V ε} (hc : m.control = none) (hw : m.waiting = []) (e : MachineEvent) :
    m.step event e = none := by
  cases e with
  | run => simp [step, hc]
  | complete h => simp [step, hw]

theorem leads_root (event : Nat → V) (root : Body V ε 0) :
    ∃ m f, Relation.ReflTransGen (Only (step event)) (start root) m ∧
      Finished (start root) m 0 f (fun _ => False) (root.eval event Fin.elim0 0) ∧
      f.promise.continuation = none ∧ f.awaited = 0 := by
  let f : Frame V ε := { promise := { state := .running }, point := .body Fin.elim0 root, entered := 1 }
  have hf : Only (step event) (start root) ((start root).put 0 f) := only_run rfl rfl rfl
  obtain ⟨m, hlead, hfin⟩ := (completes event root).terminates ((start root).put 0 f) 0 f
    ⟨rfl, rfl, rfl, rfl, ⟨rfl, rfl, rfl, rfl, rfl, rfl⟩⟩
  refine ⟨m, f, .head hf hlead, ?_, rfl, rfl⟩
  refine hfin.of_later rfl rfl le_rfl Nat.one_pos id (fun c _ hne _ => ⟨id, frames_put_ne _ hne _⟩) ?_
  rintro c g _ (hc | hc) _ hg
  · exact hc.elim
  · exact absurd (lt_of_frames hg) (not_lt.mpr hc)

end Machine

/-- Whatever the events deliver, every run of a tree of tasks from `start` or `get` of its root is a
beginning of one run. At its end `get` gives what the direct style gives, the root and every task that
was awaited have run to their ends once, each with its continuation resumed once, and the others have
not been started. -/
theorem task_tree_eval (event : Nat → V) (root : Body V ε 0) :
    ∃ evs m, run (Machine.step event) (Machine.start root) evs = some m ∧
      (∀ fs n, run (Machine.step event) (Machine.start root) fs = some n → fs <+: evs) ∧
      m.get = some (root.eval event Fin.elim0 0).1 ∧ m.read = (root.eval event Fin.elim0 0).2 ∧
      (∃ f, m.frames[0]? = some f ∧ f.Done ∧ f.awaited = 0) ∧
      ∀ h f, h ≠ 0 → m.frames[h]? = some f → f.Settled := by
  obtain ⟨m, f, hlead, hfin, hcont, haw⟩ := Machine.leads_root event root
  obtain ⟨evs, hrun, hall⟩ := run_of_only hlead (Machine.step_none (hfin.control.trans hcont) hfin.waiting)
  obtain ⟨g, hg, hdone, hg0, hres⟩ := hfin.frame
  refine ⟨evs, m, hrun, hall, ?_, hfin.read, ⟨g, hg, hdone, hg0.trans haw⟩, fun h f' hh hf' => ?_⟩
  · simp [Machine.get, hg, TaskPromise.get, TaskPromise.awaitReady, hdone.state, hres]
  · exact hfin.settled h f' (.inr (Nat.one_le_iff_ne_zero.mpr hh)) hf'

end CoroRpc.Coro

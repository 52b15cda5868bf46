import CoroRpc.Coro.Task

namespace CoroRpc.Io

open Trace Coro

-- The frame of a spawned task. `suspensions` are those still before its body, `inFlight` is the operation on
-- which it is suspended. The task is owned by `shared_task` until `spawn` returns, and by the function in the
-- queue.
structure SpawnedFrame where
  state : CoroutineState := .created
  suspensions : Nat
  inFlight : Bool := false
  sharedTask : Bool := true
  function : Bool := true

namespace SpawnedFrame

def live (f : SpawnedFrame) : Bool := f.sharedTask || f.function

def resume (f : SpawnedFrame) : SpawnedFrame :=
  match f.suspensions with
  | 0 => { f with state := .completed, inFlight := false }
  | suspensions + 1 => { f with suspensions, inFlight := true }

def start (f : SpawnedFrame) : SpawnedFrame :=
  if f.state = .created then resume { f with state := .running } else f

end SpawnedFrame

/-- Where a loop stands in `process_tasks`: not in it, before the functions left in `tasks`, or behind the call
of the first of them and before its `pop`. -/
inductive SpawnRound
  | out
  | before (tasks : List Nat)
  | behind (task : Nat) (tasks : List Nat)

-- The tasks spawned on one `EventLoop` or `EventLoopThread`, whose queues are handled alike. `strays` lists the
-- tasks that were resumed with their frame destroyed.
structure SpawnRun where
  frames : List SpawnedFrame := []
  queue : List Nat := []
  round : SpawnRound := .out
  strays : List Nat := []

/-- `spawn` is that function up to the `push`, for a body which suspends so many times; `spawned` is its return.
-/
inductive SpawnEvent
  | spawn (suspensions : Nat)
  | spawned (task : Nat)
  | swap
  | call
  | pop
  | endRound
  | complete (task : Nat)

namespace SpawnRun

def put (r : SpawnRun) (t : Nat) (f : SpawnedFrame) : SpawnRun := { r with frames := r.frames.set t f }

def complete (r : SpawnRun) (t : Nat) (f : SpawnedFrame) : SpawnRun :=
  if f.live then r.put t f.resume else { r.put t { f with inFlight := false } with strays := r.strays ++ [t] }

def step (r : SpawnRun) : SpawnEvent → Option SpawnRun
  | .spawn suspensions =>
      some { r with frames := r.frames ++ [{ suspensions }], queue := r.queue ++ [r.frames.length] }
  | .spawned t =>
      r.frames[t]?.bind fun f => if f.sharedTask then some (r.put t { f with sharedTask := false }) else none
  | .swap =>
      match r.round with
      | .out => some { r with queue := [], round := .before r.queue }
      | _ => none
  | .call =>
      match r.round with
      | .before (t :: tasks) => r.frames[t]?.map fun f => { r.put t f.start with round := .behind t tasks }
      | _ => none
  | .pop =>
      match r.round with
      | .behind t tasks =>
          r.frames[t]?.map fun f => { r.put t { f with function := false } with round := .before tasks }
      | _ => none
  | .endRound =>
      match r.round with
      | .before [] => some { r with round := .out }
      | _ => none
  | .complete t => r.frames[t]?.bind fun f => if f.inFlight then some (r.complete t f) else none

/-- No destroyed frame was resumed, and the frames that are destroyed have run to their ends. -/
def Outlives (r : SpawnRun) : Prop :=
  r.strays = [] ∧ ∀ (t : Nat) f, r.frames[t]? = some f → f.live = false → f.state = .completed

/-- When the last owner of a task lets it go, its body waits for no operation. -/
def Unsuspended (r : SpawnRun) : SpawnEvent → Prop
  | .spawned t => ∀ f, r.frames[t]? = some f → f.function = false → f.inFlight = false
  | .pop => ∀ t tasks f, r.round = .behind t tasks → r.frames[t]? = some f → f.sharedTask = false → f.inFlight = false
  | _ => True

end SpawnRun

namespace SpawnedFrame

structure Sound (f : SpawnedFrame) : Prop where
  created : f.state = .created → f.function = true ∧ f.inFlight = false
  running : f.state = .running → f.live = true → f.inFlight = true
  completed : f.state = .completed → f.inFlight = false
  states : f.state = .created ∨ f.state = .running ∨ f.state = .completed

theorem Sound.running_of_inFlight {f : SpawnedFrame} (h : f.Sound) (hf : f.inFlight = true) : f.state = .running := by
  rcases h.states with hs | hs | hs
  · exact absurd (hf.symm.trans (h.created hs).2) (by decide)
  · exact hs
  · exact absurd (hf.symm.trans (h.completed hs)) (by decide)

theorem Sound.completed_iff {f : SpawnedFrame} (h : f.Sound) (hl : f.live = true) (hc : f.state ≠ .created) :
    f.state = .completed ↔ f.inFlight = false := by
  refine ⟨h.completed, fun hf => ?_⟩
  rcases h.states with hs | hs | hs
  · exact absurd hs hc
  · exact absurd ((h.running hs hl).symm.trans hf) (by decide)
  · exact hs

theorem resume_zero {f : SpawnedFrame} (h : f.suspensions = 0) :
    f.resume = { f with state := .completed, inFlight := false } := by
  simp only [resume, h]

theorem resume_succ {f : SpawnedFrame} {n : Nat} (h : f.suspensions = n + 1) :
    f.resume = { f with suspensions := n, inFlight := true } := by
  simp only [resume, h]

theorem resume_live (f : SpawnedFrame) : f.resume.live = f.live := by
  cases h : f.suspensions with
  | zero => rw [resume_zero h, live, live]
  | succ n => rw [resume_succ h, live, live]

theorem resume_sound {f : SpawnedFrame} (hs : f.state = .running) : f.resume.Sound ∧ f.resume.state ≠ .created := by
  cases h : f.suspensions with
  | zero =>
      rw [resume_zero h]
      exact ⟨⟨by simp, by simp, fun _ => rfl, .inr (.inr rfl)⟩, by simp⟩
  | succ n =>
      rw [resume_succ h]
      exact ⟨⟨by simp [hs], fun _ _ => rfl, by simp [hs], .inr (.inl hs)⟩, by simp [hs]⟩

theorem start_created {f : SpawnedFrame} (h : f.state = .created) : f.start = resume { f with state := .running } :=
  if_pos h

theorem start_begun {f : SpawnedFrame} (h : f.state ≠ .created) : f.start = f := if_neg h

theorem start_live (f : SpawnedFrame) : f.start.live = f.live := by
  by_cases h : f.state = .created
  · rw [start_created h, resume_live]
    rfl
  · rw [start_begun h]

theorem Sound.start {f : SpawnedFrame} (h : f.Sound) : f.start.Sound := by
  by_cases hc : f.state = .created
  · rw [start_created hc]
    exact (resume_sound rfl).1
  · rw [start_begun hc]
    exact h

theorem start_state (f : SpawnedFrame) : f.start.state ≠ .created := by
  by_cases hc : f.state = .created
  · rw [start_created hc]
    exact (resume_sound rfl).2
  · rw [start_begun hc]
    exact hc

theorem Sound.spawned {f : SpawnedFrame} (h : f.Sound) : Sound { f with sharedTask := false } := by
  refine ⟨h.created, fun hs hl => h.running hs ?_, h.completed, h.states⟩
  simpa [live] using Or.inr hl

theorem Sound.pop {f : SpawnedFrame} (h : f.Sound) (hc : f.state ≠ .created) :
    Sound { f with function := false } := by
  refine ⟨fun hs => absurd hs hc, fun hs hl => h.running hs ?_, h.completed, h.states⟩
  simp only [live, Bool.or_false] at hl
  simp [live, hl]

end SpawnedFrame

namespace SpawnRun

theorem frames_put {r : SpawnRun} {t u : Nat} {f g : SpawnedFrame} (h : (r.put t g).frames[u]? = some f) :
    u = t ∧ f = g ∨ u ≠ t ∧ r.frames[u]? = some f := by
  by_cases hu : u = t
  · subst hu
    obtain ⟨hlt, hf⟩ := List.getElem?_eq_some_iff.mp h
    refine .inl ⟨rfl, ?_⟩
    rw [← hf]
    exact List.getElem_set_self hlt
  · exact .inr ⟨hu, (List.getElem?_set_ne (Ne.symm hu)).symm.trans h⟩

theorem frames_put_self {r : SpawnRun} {t : Nat} {f : SpawnedFrame} (h : r.frames[t]? = some f) (g : SpawnedFrame) :
    (r.put t g).frames[t]? = some g := by
  obtain ⟨hlt, -⟩ := List.getElem?_eq_some_iff.mp h
  exact List.getElem?_set_self hlt

theorem frames_spawn {r : SpawnRun} {t : Nat} {f g : SpawnedFrame} (h : (r.frames ++ [g])[t]? = some f) :
    r.frames[t]? = some f ∨ t = r.frames.length ∧ f = g := by
  rcases Nat.lt_or_ge t r.frames.length with hlt | hge
  · exact .inl ((List.getElem?_append_left hlt).symm.trans h)
  · rw [List.getElem?_append_right hge] at h
    obtain ⟨hlt, hf⟩ := List.getElem?_eq_some_iff.mp h
    rw [List.length_singleton] at hlt
    refine .inr ⟨by omega, ?_⟩
    rw [← hf]
    exact List.getElem_singleton _

structure Sound (r : SpawnRun) : Prop where
  frames : ∀ (t : Nat) f, r.frames[t]? = some f → f.Sound
  called : ∀ t tasks, r.round = .behind t tasks → ∃ f, r.frames[t]? = some f ∧ f.state ≠ .created

theorem Sound.called_frame {r : SpawnRun} (h : r.Sound) {t : Nat} {tasks : List Nat} {f : SpawnedFrame}
    (hround : r.round = .behind t tasks) (hf : r.frames[t]? = some f) : f.state ≠ .created := by
  obtain ⟨f', hf', hs⟩ := h.called t tasks hround
  rw [hf] at hf'
  cases hf'
  exact hs

theorem Sound.put {r : SpawnRun} (h : r.Sound) {t : Nat} {f g : SpawnedFrame} (hf : r.frames[t]? = some f)
    (hg : g.Sound) (hc : g.state = .created → f.state = .created) : (r.put t g).Sound := by
  refine ⟨fun u f' hu => ?_, fun u tasks hround => ?_⟩
  · rcases frames_put hu with ⟨-, rfl⟩ | ⟨-, hu⟩
    · exact hg
    · exact h.frames u f' hu
  · obtain ⟨f', hf', hs⟩ := h.called u tasks hround
    by_cases hu : u = t
    · subst hu
      rw [hf] at hf'
      cases hf'
      exact ⟨g, frames_put_self hf g, fun hs' => hs (hc hs')⟩
    · exact ⟨f', (List.getElem?_set_ne (Ne.symm hu)).trans hf', hs⟩

theorem Sound.complete {r : SpawnRun} (h : r.Sound) {t : Nat} {f : SpawnedFrame} (hf : r.frames[t]? = some f)
    (hi : f.inFlight = true) : (r.complete t f).Sound := by
  have hs := (h.frames t f hf).running_of_inFlight hi
  by_cases hl : f.live = true
  · simp only [SpawnRun.complete, hl, if_true]
    obtain ⟨hsound, hc⟩ := SpawnedFrame.resume_sound hs
    exact h.put hf hsound fun hc' => absurd hc' hc
  · simp only [SpawnRun.complete, hl, if_false, Bool.false_eq_true]
    have hg : SpawnedFrame.Sound { f with inFlight := false } :=
      ⟨by simp [hs], fun _ hl' => absurd hl' hl, fun _ => rfl, .inr (.inl hs)⟩
    have hput := h.put hf hg id
    exact ⟨hput.frames, hput.called⟩

theorem outlives_put_iff {r : SpawnRun} (hP : r.Outlives) {t : Nat} {f : SpawnedFrame} (hf : r.frames[t]? = some f)
    (g : SpawnedFrame) : (r.put t g).Outlives ↔ (g.live = false → g.state = .completed) := by
  constructor
  · intro h
    exact h.2 t g (frames_put_self hf g)
  · intro h
    refine ⟨hP.1, fun u f' hu hl => ?_⟩
    rcases frames_put hu with ⟨-, rfl⟩ | ⟨-, hu⟩
    · exact h hl
    · exact hP.2 u f' hu hl

theorem outlives_complete {r : SpawnRun} (h : r.Sound) (hP : r.Outlives) {t : Nat} {f : SpawnedFrame}
    (hf : r.frames[t]? = some f) (hi : f.inFlight = true) : (r.complete t f).Outlives := by
  have hl : f.live = true := by
    by_contra hn
    have hc := hP.2 t f hf (Bool.eq_false_iff.mpr hn)
    exact absurd (hi.symm.trans ((h.frames t f hf).completed hc)) (by decide)
  simp only [SpawnRun.complete, hl, if_true]
  refine (outlives_put_iff hP hf _).mpr fun hn => ?_
  rw [SpawnedFrame.resume_live, hl] at hn
  cases hn

theorem Sound.pop_iff {r : SpawnRun} (h : r.Sound) (hP : r.Outlives) {t : Nat} {tasks : List Nat} {f : SpawnedFrame}
    (hround : r.round = .behind t tasks) (hf : r.frames[t]? = some f) :
    (r.put t { f with function := false }).Outlives ↔ r.Unsuspended .pop := by
  have hsound := h.frames t f hf
  refine (outlives_put_iff hP hf _).trans ⟨fun hend u tasks' f' hu hf' hst => ?_, fun hC hl => ?_⟩
  · cases hround.symm.trans hu
    rw [hf] at hf'
    cases hf'
    exact hsound.completed (hend (by simp [SpawnedFrame.live, hst]))
  · have hst : f.sharedTask = false := by simpa [SpawnedFrame.live] using hl
    by_cases hlive : f.live = true
    · exact (hsound.completed_iff hlive (h.called_frame hround hf)).mpr (hC t tasks f hround hf hst)
    · exact hP.2 t f hf (Bool.eq_false_iff.mpr hlive)

theorem Sound.spawned_iff {r : SpawnRun} (h : r.Sound) (hP : r.Outlives) {t : Nat} {f : SpawnedFrame}
    (hf : r.frames[t]? = some f) (hshared : f.sharedTask = true) :
    (r.put t { f with sharedTask := false }).Outlives ↔ r.Unsuspended (.spawned t) := by
  have hsound := h.frames t f hf
  refine (outlives_put_iff hP hf _).trans ⟨fun hend f' hf' hfn => ?_, fun hC hfn => ?_⟩
  · rw [hf] at hf'
    cases hf'
    exact hsound.completed (hend hfn)
  · have hc : f.state ≠ .created := fun hc => absurd ((hsound.created hc).1.symm.trans hfn) (by decide)
    exact (hsound.completed_iff (by simp [SpawnedFrame.live, hshared]) hc).mpr (hC f hf hfn)

theorem Sound.step {r s : SpawnRun} {e : SpawnEvent} (h : r.Sound) (hs : r.step e = some s) :
    s.Sound ∧ (r.Outlives → (s.Outlives ↔ r.Unsuspended e)) := by
  cases e with
  | spawn suspensions =>
      cases hs
      refine ⟨⟨fun t f hf => ?_, fun t tasks hround => ?_⟩, fun hP => ?_⟩
      · rcases frames_spawn hf with hf | ⟨-, rfl⟩
        · exact h.frames t f hf
        · exact ⟨fun _ => ⟨rfl, rfl⟩, by simp, fun _ => rfl, .inl rfl⟩
      · obtain ⟨f, hf, hc⟩ := h.called t tasks hround
        obtain ⟨hlt, -⟩ := List.getElem?_eq_some_iff.mp hf
        exact ⟨f, (List.getElem?_append_left hlt).trans hf, hc⟩
      · refine iff_of_true ⟨hP.1, fun t f hf hl => ?_⟩ trivial
        rcases frames_spawn hf with hf | ⟨-, rfl⟩
        · exact hP.2 t f hf hl
        · cases hl
  | spawned t =>
      obtain ⟨f, hf, hs⟩ := Option.bind_eq_some_iff.mp hs
      split at hs
      · rename_i hshared
        cases hs
        exact ⟨h.put hf (h.frames t f hf).spawned id, fun hP => h.spawned_iff hP hf hshared⟩
      · cases hs
  | swap =>
      simp only [SpawnRun.step] at hs
      split at hs
      · cases hs
        exact ⟨⟨h.frames, by simp⟩, fun hP => iff_of_true hP trivial⟩
      · cases hs
  | call =>
      simp only [SpawnRun.step] at hs
      split at hs
      · rename_i t tasks hround
        obtain ⟨f, hf, rfl⟩ := Option.map_eq_some_iff.mp hs
        have hput := h.put hf (h.frames t f hf).start fun hc => absurd hc f.start_state
        refine ⟨⟨hput.frames, fun u tasks' hround' => ?_⟩, fun hP => ?_⟩
        · cases hround'
          exact ⟨f.start, frames_put_self hf _, f.start_state⟩
        · refine iff_of_true ((outlives_put_iff hP hf f.start).mpr fun hl => ?_) trivial
          have hend := hP.2 t f hf (f.start_live.symm.trans hl)
          rw [SpawnedFrame.start_begun (by simp [hend])]
          exact hend
      · cases hs
  | pop =>
      simp only [SpawnRun.step] at hs
      split at hs
      · rename_i t tasks hround
        obtain ⟨f, hf, rfl⟩ := Option.map_eq_some_iff.mp hs
        have hput := h.put hf ((h.frames t f hf).pop (h.called_frame hround hf)) id
        exact ⟨⟨hput.frames, by simp⟩, fun hP => h.pop_iff hP hround hf⟩
      · cases hs
  | endRound =>
      simp only [SpawnRun.step] at hs
      split at hs
      · cases hs
        exact ⟨⟨h.frames, by simp⟩, fun hP => iff_of_true hP trivial⟩
      · cases hs
  | complete t =>
      obtain ⟨f, hf, hs⟩ := Option.bind_eq_some_iff.mp hs
      split at hs
      · rename_i hi
        cases hs
        exact ⟨h.complete hf hi, fun hP => iff_of_true (outlives_complete h hP hf hi) trivial⟩
      · cases hs

end SpawnRun

/-- A spawned task outlives its suspensions if and only if no operation of its body is in flight when
both `spawn` has returned and the round has dropped the function that ran it. -/
theorem spawn_outlives_iff (evs : List SpawnEvent) (r : SpawnRun) (h : run SpawnRun.step {} evs = some r) :
    Throughout SpawnRun.step SpawnRun.Outlives {} evs ↔ EachStep SpawnRun.step SpawnRun.Unsuspended {} evs := by
  refine throughout_iff (I := SpawnRun.Sound) (fun _ _ _ hI hs => (hI.step hs).1)
    (fun _ _ _ hI hP hs => (hI.step hs).2 hP) ⟨by simp, by simp⟩ ⟨rfl, by simp⟩ h

/-- A body that suspends once, whose operation is complete before `spawn` has returned. -/
theorem spawn_outlives_returnedLast :
    ∃ r, run SpawnRun.step {} [.spawn 1, .swap, .call, .pop, .endRound, .complete 0, .spawned 0] = some r ∧
      r.frames.map SpawnedFrame.live = [false] ∧ r.Outlives := by
  have hC : EachStep SpawnRun.step SpawnRun.Unsuspended {}
      [.spawn 1, .swap, .call, .pop, .endRound, .complete 0, .spawned 0] := by
    iterate 3 refine (eachStep_cons rfl).mpr ⟨trivial, ?_⟩
    refine (eachStep_cons rfl).mpr ⟨fun t tasks f ht hf hshared => ?_, ?_⟩
    · cases ht
      cases hf
      cases hshared
    · iterate 2 refine (eachStep_cons rfl).mpr ⟨trivial, ?_⟩
      refine (eachStep_cons rfl).mpr ⟨fun f hf _ => ?_, eachStep_nil⟩
      cases hf
      rfl
  exact ⟨_, rfl, rfl, (spawn_outlives_iff _ _ rfl).mpr hC _ _ List.prefix_rfl rfl⟩

/-- A body that suspends once: the round destroys its frame, and the completion resumes it. -/
theorem spawn_strays :
    ∃ r, run SpawnRun.step {} [.spawn 1, .spawned 0, .swap, .call, .pop, .endRound, .complete 0] = some r ∧
      r.strays = [0] ∧ ¬r.Outlives := by
  refine ⟨_, rfl, rfl, fun h => ?_⟩
  exact absurd h.1 (List.cons_ne_nil 0 [])

end CoroRpc.Io

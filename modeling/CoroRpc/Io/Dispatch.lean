import CoroRpc.Lib.Trace
import Mathlib.Algebra.GroupWithZero.Nat
import Mathlib.Data.List.AList
import Mathlib.Data.List.FinRange
import Mathlib.Logic.Function.Basic

namespace CoroRpc.Io

open Trace

/-- Where a worker stands in `process_tasks`: not in it, behind the loop over `pending_tasks_`, or with the
tasks it has moved out of `task_queue_`. -/
inductive Round
  | out
  | drained
  | running (tasks : List Nat)

/-- Where a `dispatch_to_worker` stands: the worker is chosen, the task has its id, it is in `pending_tasks_`,
the submission threw, it is erased again, or the call has returned, after so many drains of the table by the
worker. -/
inductive DispatchPhase
  | uncalled
  | chosen
  | numbered (id : UInt64)
  | inserted (id : UInt64)
  | thrown (id : UInt64)
  | erased
  | returned (drains : Nat)

-- The tasks of one worker. Its dispatches are numbered, and a task is the number of its dispatch; `ran` lists
-- the tasks that have run.
structure WorkerRun where
  nextTaskId : UInt64 := 1
  pendingTasks : AList fun _ : UInt64 => Nat := ∅
  taskQueue : List Nat := []
  connectionCount : UInt64 := 0
  round : Round := .out
  drains : Nat := 0
  swaps : Nat := 0
  rounds : Nat := 0
  called : Nat := 0
  phase : Nat → DispatchPhase := fun _ => .uncalled
  ran : List Nat := []

inductive WorkerEvent
  | number (d : Nat)
  | insert (d : Nat)
  | submit (d : Nat) (throws : Bool)
  | erase (d : Nat)
  | post (d : Nat)
  | drain
  | swap
  | runTask
  | endRound

namespace WorkerRun

def enter (r : WorkerRun) (d : Nat) (p : DispatchPhase) : WorkerRun := { r with phase := Function.update r.phase d p }

def call (r : WorkerRun) : WorkerRun :=
  enter { r with connectionCount := r.connectionCount + 1, called := r.called + 1 } r.called .chosen

def step (r : WorkerRun) : WorkerEvent → Option WorkerRun
  | .number d =>
      match r.phase d with
      | .chosen => some (enter { r with nextTaskId := r.nextTaskId + 1 } d (.numbered r.nextTaskId))
      | _ => none
  | .insert d =>
      match r.phase d with
      | .numbered id => some (enter { r with pendingTasks := r.pendingTasks.insert id d } d (.inserted id))
      | _ => none
  | .submit d throws =>
      match r.phase d with
      | .inserted id => some (r.enter d (if throws then .thrown id else .returned r.drains))
      | _ => none
  | .erase d =>
      match r.phase d with
      | .thrown id => some (enter { r with pendingTasks := r.pendingTasks.erase id } d .erased)
      | _ => none
  | .post d =>
      match r.phase d with
      | .erased => some (enter { r with taskQueue := r.taskQueue ++ [d] } d (.returned r.drains))
      | _ => none
  | .drain =>
      match r.round with
      | .out =>
          some
            { r with
              ran := r.ran ++ r.pendingTasks.entries.map Sigma.snd
              pendingTasks := ∅
              round := .drained
              drains := r.drains + 1 }
      | _ => none
  | .swap =>
      match r.round with
      | .drained => some { r with round := .running r.taskQueue, taskQueue := [], swaps := r.swaps + 1 }
      | _ => none
  | .runTask =>
      match r.round with
      | .running (d :: tasks) => some { r with ran := r.ran ++ [d], round := .running tasks }
      | _ => none
  | .endRound =>
      match r.round with
      | .running [] => some { r with round := .out, rounds := r.rounds + 1 }
      | _ => none

section Inversion

variable {r s : WorkerRun} {d : Nat}

theorem step_number (hs : r.step (.number d) = some s) :
    r.phase d = .chosen ∧ s = enter { r with nextTaskId := r.nextTaskId + 1 } d (.numbered r.nextTaskId) := by
  simp only [step] at hs
  split at hs
  · next hp => exact ⟨hp, (Option.some.inj hs).symm⟩
  · cases hs

theorem step_insert (hs : r.step (.insert d) = some s) :
    ∃ id, r.phase d = .numbered id ∧
      s = enter { r with pendingTasks := r.pendingTasks.insert id d } d (.inserted id) := by
  simp only [step] at hs
  split at hs
  · next id hp => exact ⟨id, hp, (Option.some.inj hs).symm⟩
  · cases hs

theorem step_submit {throws : Bool} (hs : r.step (.submit d throws) = some s) :
    ∃ id, r.phase d = .inserted id ∧ s = r.enter d (if throws then .thrown id else .returned r.drains) := by
  simp only [step] at hs
  split at hs
  · next id hp => exact ⟨id, hp, (Option.some.inj hs).symm⟩
  · cases hs

theorem step_erase (hs : r.step (.erase d) = some s) :
    ∃ id, r.phase d = .thrown id ∧ s = enter { r with pendingTasks := r.pendingTasks.erase id } d .erased := by
  simp only [step] at hs
  split at hs
  · next id hp => exact ⟨id, hp, (Option.some.inj hs).symm⟩
  · cases hs

theorem step_post (hs : r.step (.post d) = some s) :
    r.phase d = .erased ∧ s = enter { r with taskQueue := r.taskQueue ++ [d] } d (.returned r.drains) := by
  simp only [step] at hs
  split at hs
  · next hp => exact ⟨hp, (Option.some.inj hs).symm⟩
  · cases hs

theorem step_drain (hs : r.step .drain = some s) :
    r.round = .out ∧
      s =
        { r with
          ran := r.ran ++ r.pendingTasks.entries.map Sigma.snd
          pendingTasks := ∅
          round := .drained
          drains := r.drains + 1 } := by
  simp only [step] at hs
  split at hs
  · next hround => exact ⟨hround, (Option.some.inj hs).symm⟩
  · cases hs

theorem step_swap (hs : r.step .swap = some s) :
    r.round = .drained ∧ s = { r with round := .running r.taskQueue, taskQueue := [], swaps := r.swaps + 1 } := by
  simp only [step] at hs
  split at hs
  · next hround => exact ⟨hround, (Option.some.inj hs).symm⟩
  · cases hs

theorem step_runTask (hs : r.step .runTask = some s) :
    ∃ d tasks, r.round = .running (d :: tasks) ∧ s = { r with ran := r.ran ++ [d], round := .running tasks } := by
  simp only [step] at hs
  split at hs
  · next d tasks hround => exact ⟨d, tasks, hround, (Option.some.inj hs).symm⟩
  · cases hs

theorem step_endRound (hs : r.step .endRound = some s) :
    r.round = .running [] ∧ s = { r with round := .out, rounds := r.rounds + 1 } := by
  simp only [step] at hs
  split at hs
  · next hround => exact ⟨hround, (Option.some.inj hs).symm⟩
  · cases hs

end Inversion

/-- A dispatch runs at most once, and has run once when the worker has completed a round that it
began after the dispatch returned. -/
def Once (r : WorkerRun) : Prop :=
  ∀ d, r.ran.count d ≤ 1 ∧ ∀ drains, r.phase d = .returned drains → drains < r.rounds → r.ran.count d = 1

/-- A dispatch that erases its task finds it in the table: the worker has not taken it. And the id of
a task that is inserted is not in use. -/
def Unclaimed (r : WorkerRun) : WorkerEvent → Prop
  | .insert d => ∀ id, r.phase d = .numbered id → id ∉ r.pendingTasks
  | .erase d => ∀ id, r.phase d = .thrown id → r.pendingTasks.lookup id = some d
  | _ => True

def pending (r : WorkerRun) (d : Nat) : Nat := (r.pendingTasks.entries.map Sigma.snd).count d

def taken (r : WorkerRun) (d : Nat) : Nat :=
  match r.round with
  | .running tasks => tasks.count d
  | _ => 0

def Filed (r : WorkerRun) (d : Nat) : DispatchPhase → Prop
  | .uncalled | .chosen | .numbered _ | .erased =>
      r.ran.count d = 0 ∧ r.pending d = 0 ∧ r.taskQueue.count d = 0 ∧ r.taken d = 0
  | .inserted _ | .thrown _ => r.ran.count d + r.pending d = 1 ∧ r.taskQueue.count d = 0 ∧ r.taken d = 0
  | .returned drains =>
      r.ran.count d + r.pending d + r.taskQueue.count d + r.taken d = 1 ∧
        (0 < r.pending d → r.drains ≤ drains) ∧ (0 < r.taskQueue.count d → r.swaps ≤ drains) ∧
          (0 < r.taken d → r.rounds ≤ drains)

structure Tidy (r : WorkerRun) : Prop where
  filed : ∀ d, r.Filed d (r.phase d)
  uncalled : ∀ d, r.called ≤ d → r.phase d = .uncalled
  counts : r.rounds ≤ r.swaps ∧ r.swaps ≤ r.drains ∧
    match r.round with
    | .out => r.drains = r.rounds
    | .drained => r.drains = r.rounds + 1 ∧ r.swaps = r.rounds
    | .running _ => r.drains = r.rounds + 1 ∧ r.swaps = r.rounds + 1

theorem Tidy.once {r : WorkerRun} (h : r.Tidy) : r.Once := by
  intro d
  have hfiled := h.filed d
  obtain ⟨hrs, hsd, -⟩ := h.counts
  constructor
  · cases hp : r.phase d with
    | returned drains =>
        rw [hp] at hfiled
        have := hfiled.1
        omega
    | inserted id | thrown id =>
        rw [hp] at hfiled
        have := hfiled.1
        omega
    | uncalled | chosen | numbered id | erased =>
        rw [hp] at hfiled
        have := hfiled.1
        omega
  · intro drains hp hlt
    rw [hp] at hfiled
    obtain ⟨hsum, hpend, hqueue, htaken⟩ := hfiled
    omega

theorem pending_insert {r : WorkerRun} {id : UInt64} (hid : id ∉ r.pendingTasks) (d d' : Nat) :
    pending { r with pendingTasks := r.pendingTasks.insert id d } d' = r.pending d' + if d = d' then 1 else 0 := by
  simp only [pending, AList.entries_insert_of_notMem hid, List.map_cons, List.count_cons, beq_iff_eq]

theorem pending_erase {r : WorkerRun} {id : UInt64} {d : Nat} (hid : r.pendingTasks.lookup id = some d) (d' : Nat) :
    r.pending d' =
      pending { r with pendingTasks := r.pendingTasks.erase id } d' + if d = d' then 1 else 0 := by
  have hmem : id ∈ r.pendingTasks := by
    by_contra hnot
    rw [AList.lookup_eq_none.mpr hnot] at hid
    cases hid
  obtain ⟨b, l₁, l₂, -, hl, he⟩ := List.exists_of_kerase (AList.mem_keys.mp hmem)
  have hb : d = b := by
    have hin : (⟨id, b⟩ : Sigma fun _ : UInt64 => Nat) ∈ r.pendingTasks.entries := by
      rw [hl]
      simp
    have hlook := AList.mem_lookup_iff.mpr hin
    rw [hid] at hlook
    exact Option.some.inj hlook
  subst hb
  have herase : (r.pendingTasks.erase id).entries = l₁ ++ l₂ := he
  simp only [pending]
  rw [herase, hl]
  simp only [List.map_append, List.map_cons, List.count_append, List.count_cons, beq_iff_eq]
  omega

structure SameCounts (r s : WorkerRun) (d : Nat) : Prop where
  ran : s.ran.count d = r.ran.count d
  pending : s.pending d = r.pending d
  queue : s.taskQueue.count d = r.taskQueue.count d

theorem filed_congr {r s : WorkerRun} {d : Nat} (h : SameCounts r s d) (hround : s.round = r.round)
    (hdrains : s.drains = r.drains) (hswaps : s.swaps = r.swaps) (hrounds : s.rounds = r.rounds)
    (p : DispatchPhase) : s.Filed d p ↔ r.Filed d p := by
  cases p <;> simp only [Filed, taken, h.ran, h.pending, h.queue, hround, hdrains, hswaps, hrounds]

theorem Tidy.entered {r s : WorkerRun} (h : r.Tidy) {d : Nat} {p : DispatchPhase} (hd : r.phase d ≠ .uncalled)
    (hsame : ∀ d', d' ≠ d → SameCounts r s d') (hround : s.round = r.round) (hdrains : s.drains = r.drains)
    (hswaps : s.swaps = r.swaps) (hrounds : s.rounds = r.rounds) (hcalled : s.called = r.called)
    (hphase : s.phase = Function.update r.phase d p) (hfiled : s.Filed d p) : s.Tidy := by
  refine ⟨fun d' => ?_, fun d' hd' => ?_, ?_⟩
  · rw [hphase]
    by_cases heq : d' = d
    · subst heq
      rw [Function.update_self]
      exact hfiled
    · rw [Function.update_of_ne heq, filed_congr (hsame d' heq) hround hdrains hswaps hrounds]
      exact h.filed d'
  · rw [hcalled] at hd'
    have hun := h.uncalled d' hd'
    have hne : d' ≠ d := by
      rintro rfl
      exact hd hun
    rw [hphase, Function.update_of_ne hne]
    exact hun
  · rw [hround, hdrains, hswaps, hrounds]
    exact h.counts

theorem Tidy.number {r s : WorkerRun} (h : r.Tidy) {d : Nat} (hs : r.step (.number d) = some s) : s.Tidy := by
  obtain ⟨hp, rfl⟩ := step_number hs
  have hfiled := h.filed d
  rw [hp] at hfiled
  exact h.entered (by simp [hp]) (fun _ _ => ⟨rfl, rfl, rfl⟩) rfl rfl rfl rfl rfl rfl hfiled

theorem Tidy.insert {r s : WorkerRun} (h : r.Tidy) {d : Nat} (hC : r.Unclaimed (.insert d))
    (hs : r.step (.insert d) = some s) : s.Tidy := by
  obtain ⟨id, hp, rfl⟩ := step_insert hs
  have hpend := pending_insert (hC id hp) d
  obtain ⟨hran, hzero, hqueue, htaken⟩ : r.Filed d (.numbered id) := hp ▸ h.filed d
  refine h.entered (by simp [hp]) (fun d' hne => ⟨rfl, ?_, rfl⟩) rfl rfl rfl rfl rfl rfl ⟨?_, hqueue, htaken⟩
  · exact (hpend d').trans (by rw [if_neg (Ne.symm hne), Nat.add_zero])
  · have hone := hpend d
    rw [if_pos rfl, hzero] at hone
    show r.ran.count d + pending { r with pendingTasks := r.pendingTasks.insert id d } d = 1
    omega

theorem Tidy.submit {r s : WorkerRun} (h : r.Tidy) {d : Nat} {throws : Bool}
    (hs : r.step (.submit d throws) = some s) : s.Tidy := by
  obtain ⟨id, hp, rfl⟩ := step_submit hs
  obtain ⟨hsum, hqueue, htaken⟩ : r.Filed d (.inserted id) := hp ▸ h.filed d
  refine h.entered (by simp [hp]) (fun _ _ => ⟨rfl, rfl, rfl⟩) rfl rfl rfl rfl rfl rfl ?_
  cases throws with
  | true => exact ⟨hsum, hqueue, htaken⟩
  | false =>
      refine ⟨?_, fun _ => le_rfl, fun hpos => ?_, fun hpos => ?_⟩
      · show r.ran.count d + r.pending d + r.taskQueue.count d + r.taken d = 1
        omega
      · exact absurd hqueue (Nat.ne_of_gt hpos)
      · exact absurd htaken (Nat.ne_of_gt hpos)

theorem Tidy.erase {r s : WorkerRun} (h : r.Tidy) {d : Nat} (hC : r.Unclaimed (.erase d))
    (hs : r.step (.erase d) = some s) : s.Tidy := by
  obtain ⟨id, hp, rfl⟩ := step_erase hs
  have hpend := pending_erase (hC id hp)
  obtain ⟨hsum, hqueue, htaken⟩ : r.Filed d (.thrown id) := hp ▸ h.filed d
  refine h.entered (by simp [hp]) (fun d' hne => ⟨rfl, ?_, rfl⟩) rfl rfl rfl rfl rfl rfl ?_
  · have heq := hpend d'
    rw [if_neg (Ne.symm hne), Nat.add_zero] at heq
    exact heq.symm
  · have hone := hpend d
    rw [if_pos rfl] at hone
    refine ⟨?_, ?_, hqueue, htaken⟩
    · show r.ran.count d = 0
      omega
    · show pending { r with pendingTasks := r.pendingTasks.erase id } d = 0
      omega

theorem Tidy.post {r s : WorkerRun} (h : r.Tidy) {d : Nat} (hs : r.step (.post d) = some s) : s.Tidy := by
  obtain ⟨hp, rfl⟩ := step_post hs
  obtain ⟨hran, hpend, hqueue, htaken⟩ : r.Filed d .erased := hp ▸ h.filed d
  refine h.entered (by simp [hp]) (fun d' hne => ⟨rfl, rfl, ?_⟩) rfl rfl rfl rfl rfl rfl ?_
  · have : [d].count d' = 0 := List.count_eq_zero.mpr (by simpa using hne)
    simp only [enter, List.count_append, this, Nat.add_zero]
  · refine ⟨?_, fun _ => le_rfl, fun _ => h.counts.2.1, fun hpos => ?_⟩
    · show r.ran.count d + r.pending d + (r.taskQueue ++ [d]).count d + r.taken d = 1
      rw [List.count_append, List.count_singleton_self]
      omega
    · exact absurd htaken (Nat.ne_of_gt hpos)

/-- A step of the worker moves every task on, if at all, from the table or the queue to `ran`. -/
theorem Tidy.worked {r s : WorkerRun} (h : r.Tidy) (hphase : s.phase = r.phase) (hcalled : s.called = r.called)
    (hsum : ∀ d, s.ran.count d + s.pending d + s.taskQueue.count d + s.taken d =
      r.ran.count d + r.pending d + r.taskQueue.count d + r.taken d)
    (hpend : ∀ d, s.pending d ≤ r.pending d ∧ (0 < s.pending d → s.drains = r.drains))
    (hqueue : ∀ d, s.taskQueue.count d ≤ r.taskQueue.count d ∧ (0 < s.taskQueue.count d → s.swaps = r.swaps))
    (htaken : ∀ d, s.taken d ≤ r.taken d + r.taskQueue.count d ∧ (0 < s.taken d → s.rounds = r.rounds))
    (hcounts : s.rounds ≤ s.swaps ∧ s.swaps ≤ s.drains ∧
      match s.round with
      | .out => s.drains = s.rounds
      | .drained => s.drains = s.rounds + 1 ∧ s.swaps = s.rounds
      | .running _ => s.drains = s.rounds + 1 ∧ s.swaps = s.rounds + 1) : s.Tidy := by
  refine ⟨fun d => ?_, fun d hd => ?_, hcounts⟩
  · have hfiled := h.filed d
    have h₁ := hsum d
    have h₂ := hpend d
    have h₃ := hqueue d
    have h₄ := htaken d
    have hle := h.counts.1
    rw [hphase]
    cases hp : r.phase d with
    | uncalled | chosen | numbered id | erased =>
        rw [hp] at hfiled
        simp only [Filed] at hfiled ⊢
        omega
    | inserted id | thrown id =>
        rw [hp] at hfiled
        simp only [Filed] at hfiled ⊢
        omega
    | returned drains =>
        rw [hp] at hfiled
        simp only [Filed] at hfiled ⊢
        refine ⟨by omega, fun hpos => ?_, fun hpos => ?_, fun hpos => ?_⟩
        · rw [h₂.2 hpos]
          exact hfiled.2.1 (by omega)
        · rw [h₃.2 hpos]
          exact hfiled.2.2.1 (by omega)
        · rw [h₄.2 hpos]
          by_cases htake : 0 < r.taken d
          · exact hfiled.2.2.2 htake
          · exact hle.trans (hfiled.2.2.1 (by omega))
  · rw [hphase]
    exact h.uncalled d (hcalled ▸ hd)

theorem Tidy.drain {r s : WorkerRun} (h : r.Tidy) (hs : r.step .drain = some s) : s.Tidy := by
  obtain ⟨hround, rfl⟩ := step_drain hs
  have hcounts := h.counts
  simp only [hround] at hcounts
  refine h.worked rfl rfl (fun d => ?_) (fun d => ?_) (fun d => ?_) (fun d => ?_) ?_
  · simp [pending, taken, hround, List.count_append]
  · simp [pending]
  · simp
  · simp [taken]
  · dsimp only
    omega

theorem Tidy.swap {r s : WorkerRun} (h : r.Tidy) (hs : r.step .swap = some s) : s.Tidy := by
  obtain ⟨hround, rfl⟩ := step_swap hs
  have hcounts := h.counts
  simp only [hround] at hcounts
  refine h.worked rfl rfl (fun d => ?_) (fun d => ?_) (fun d => ?_) (fun d => ?_) ?_
  · simp [pending, taken, hround]
  · simp [pending]
  · simp
  · simp [taken, hround]
  · dsimp only
    omega

theorem Tidy.runTask {r s : WorkerRun} (h : r.Tidy) (hs : r.step .runTask = some s) : s.Tidy := by
  obtain ⟨x, tasks, hround, rfl⟩ := step_runTask hs
  have hcounts := h.counts
  simp only [hround] at hcounts
  refine h.worked rfl rfl (fun d => ?_) (fun d => ?_) (fun d => ?_) (fun d => ?_) hcounts
  · simp only [pending, taken, hround, List.count_append, List.count_cons, List.count_nil]
    omega
  · simp [pending]
  · simp
  · refine ⟨?_, fun _ => rfl⟩
    simp only [taken, hround, List.count_cons]
    omega

theorem Tidy.endRound {r s : WorkerRun} (h : r.Tidy) (hs : r.step .endRound = some s) : s.Tidy := by
  obtain ⟨hround, rfl⟩ := step_endRound hs
  have hcounts := h.counts
  simp only [hround] at hcounts
  refine h.worked rfl rfl (fun d => ?_) (fun d => ?_) (fun d => ?_) (fun d => ?_) ?_
  · simp [pending, taken, hround]
  · simp [pending]
  · simp
  · simp [taken]
  · dsimp only
    omega

theorem Tidy.step {r s : WorkerRun} {e : WorkerEvent} (h : r.Tidy) (hC : r.Unclaimed e) (hs : r.step e = some s) :
    s.Tidy := by
  cases e with
  | number d => exact h.number hs
  | insert d => exact h.insert hC hs
  | submit d throws => exact h.submit hs
  | erase d => exact h.erase hC hs
  | post d => exact h.post hs
  | drain => exact h.drain hs
  | swap => exact h.swap hs
  | runTask => exact h.runTask hs
  | endRound => exact h.endRound hs

theorem Tidy.call {r : WorkerRun} (h : r.Tidy) : r.call.Tidy := by
  have hun := h.uncalled r.called le_rfl
  refine ⟨fun d => ?_, fun d hd => ?_, h.counts⟩
  · by_cases heq : d = r.called
    · subst heq
      have hfiled := h.filed r.called
      rw [hun] at hfiled
      show r.Filed r.called (Function.update r.phase r.called .chosen r.called)
      rw [Function.update_self]
      exact hfiled
    · show r.Filed d (Function.update r.phase r.called .chosen d)
      rw [Function.update_of_ne heq]
      exact h.filed d
  · have hlt : r.called + 1 ≤ d := hd
    show Function.update r.phase r.called .chosen d = .uncalled
    rw [Function.update_of_ne (by omega)]
    exact h.uncalled d (by omega)

theorem tidy_start : Tidy {} := by
  refine ⟨fun d => ?_, fun _ _ => rfl, by simp⟩
  simp [Filed, pending, taken]

end WorkerRun

structure PoolDispatch (n : Nat) where
  nextWorker : UInt32 := 0
  workers : Fin n → WorkerRun := fun _ => {}

/-- `call` is the part of `dispatch_to_worker` up to the choice of the worker, by the least connections or in
turn. -/
inductive PoolDispatchEvent (n : Nat)
  | call (leastConnections : Bool)
  | worker (w : Fin n) (e : WorkerEvent)

namespace PoolDispatch

variable {n : Nat} [NeZero n]

def selectWorkerLeastConnections (p : PoolDispatch n) : Fin n :=
  (List.finRange n).foldl
    (fun best i => if (p.workers i).connectionCount < (p.workers best).connectionCount then i else best) 0

def selectWorkerRoundRobin (p : PoolDispatch n) : Fin n × PoolDispatch n :=
  (Fin.ofNat n p.nextWorker.toNat, { p with nextWorker := p.nextWorker + 1 })

def step (p : PoolDispatch n) : PoolDispatchEvent n → Option (PoolDispatch n)
  | .call leastConnections =>
      let c := if leastConnections then (p.selectWorkerLeastConnections, p) else p.selectWorkerRoundRobin
      some { c.2 with workers := Function.update c.2.workers c.1 (c.2.workers c.1).call }
  | .worker w e => ((p.workers w).step e).map fun t => { p with workers := Function.update p.workers w t }

def Once (p : PoolDispatch n) : Prop := ∀ w, (p.workers w).Once

def Unclaimed (p : PoolDispatch n) : PoolDispatchEvent n → Prop
  | .call _ => True
  | .worker w e => (p.workers w).Unclaimed e

def Tidy (p : PoolDispatch n) : Prop := ∀ w, (p.workers w).Tidy

omit [NeZero n] in
theorem Tidy.update {p : PoolDispatch n} (h : p.Tidy) {w : Fin n} {t : WorkerRun} (ht : t.Tidy) (w' : Fin n) :
    (Function.update p.workers w t w').Tidy := by
  by_cases hw : w' = w
  · subst hw
    rw [Function.update_self]
    exact ht
  · rw [Function.update_of_ne hw]
    exact h w'

theorem Tidy.step {p q : PoolDispatch n} {e : PoolDispatchEvent n} (h : p.Tidy) (hC : p.Unclaimed e)
    (hs : p.step e = some q) : q.Tidy := by
  cases e with
  | call leastConnections =>
      cases hs
      intro w
      cases leastConnections with
      | true => exact h.update (h _).call w
      | false => exact h.update (h _).call w
  | worker w e =>
      obtain ⟨t, ht, rfl⟩ := Option.map_eq_some_iff.mp hs
      exact h.update ((h w).step hC ht)

end PoolDispatch

/-- In a run in which no worker takes the task of a dispatch before that dispatch erases it again,
every dispatch runs at most once, and once when its worker has completed a round begun after it. -/
theorem dispatch_once {n : Nat} [NeZero n] (evs : List (PoolDispatchEvent n))
    (hC : EachStep PoolDispatch.step PoolDispatch.Unclaimed ({} : PoolDispatch n) evs) :
    Throughout PoolDispatch.step PoolDispatch.Once ({} : PoolDispatch n) evs := by
  intro fs p hfs hp w
  have hstart : PoolDispatch.Tidy ({} : PoolDispatch n) := fun _ => WorkerRun.tidy_start
  have htidy := throughout_of_eachStep (fun _ _ _ h hC hs => PoolDispatch.Tidy.step h hC hs) hstart hC fs p hfs hp
  exact (htidy w).once

def only : Fin 1 := ⟨0, Nat.one_pos⟩

def bothPaths : List (PoolDispatchEvent 1) :=
  [.call false, .worker only (.number 0), .worker only (.insert 0), .worker only (.submit 0 true),
    .worker only (.erase 0), .worker only (.post 0), .call true, .worker only (.number 1), .worker only (.insert 1),
    .worker only (.submit 1 false), .worker only .drain, .worker only .swap, .worker only .runTask,
    .worker only .endRound]

theorem dispatch_once_both_paths :
    ∃ p, run PoolDispatch.step ({} : PoolDispatch 1) bothPaths = some p ∧
      (p.workers 0).ran = [1, 0] ∧ p.Once := by
  have hC : EachStep PoolDispatch.step PoolDispatch.Unclaimed ({} : PoolDispatch 1) bothPaths := by
    iterate 2 refine (eachStep_cons rfl).mpr ⟨trivial, ?_⟩
    refine (eachStep_cons rfl).mpr ⟨fun _ h => by cases h; decide, ?_⟩
    refine (eachStep_cons rfl).mpr ⟨trivial, ?_⟩
    refine (eachStep_cons rfl).mpr ⟨fun _ h => by cases h; decide, ?_⟩
    iterate 3 refine (eachStep_cons rfl).mpr ⟨trivial, ?_⟩
    refine (eachStep_cons rfl).mpr ⟨fun _ h => by cases h; decide, ?_⟩
    iterate 5 refine (eachStep_cons rfl).mpr ⟨trivial, ?_⟩
    exact eachStep_nil
  exact ⟨_, rfl, by decide, dispatch_once bothPaths hC bothPaths _ List.prefix_rfl rfl⟩

/-- The worker takes the task before the submission throws, and the fallback posts it again. -/
theorem dispatch_twice :
    ∃ p, run PoolDispatch.step ({} : PoolDispatch 1)
        [.call false, .worker 0 (.number 0), .worker 0 (.insert 0), .worker 0 .drain, .worker 0 (.submit 0 true),
          .worker 0 (.erase 0), .worker 0 (.post 0), .worker 0 .swap, .worker 0 .runTask] = some p ∧
      (p.workers 0).ran = [0, 0] ∧ ¬p.Once := by
  refine ⟨_, rfl, by decide, fun h => ?_⟩
  exact absurd (h 0 0).1 (by decide)

end CoroRpc.Io

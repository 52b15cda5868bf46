import CoroRpc.Io.Dispatch

namespace CoroRpc.Io

open Trace

def DispatchPhase.isReturned : DispatchPhase → Bool
  | .returned _ => true
  | _ => false

def DispatchPhase.isPlaced : DispatchPhase → Bool
  | .inserted _ | .returned _ => true
  | _ => false

theorem DispatchPhase.isPlaced_of_isReturned {p : DispatchPhase} (h : p.isReturned = true) : p.isPlaced = true := by
  cases p with
  | returned drains => rfl
  | uncalled | chosen | numbered id | inserted id | thrown id | erased => cases h

namespace WorkerRun

def postTask (r : WorkerRun) : WorkerRun :=
  enter { r with taskQueue := r.taskQueue ++ [r.called], called := r.called + 1 } r.called (.returned r.drains)

def table (r : WorkerRun) : List Nat := r.pendingTasks.entries.map Sigma.snd

def batch (r : WorkerRun) : List Nat :=
  match r.round with
  | .running tasks => tasks
  | _ => []

def ahead (r : WorkerRun) : List Nat :=
  match r.round with
  | .out => r.table ++ r.taskQueue
  | .drained => r.taskQueue
  | .running tasks => tasks

def Waits (r : WorkerRun) (d : Nat) : Prop := d ∈ r.table ∨ d ∈ r.taskQueue ∨ d ∈ r.batch

/-- No dispatch writes over the task of another, or erases it, under an id that both were given. -/
def Unshared (r : WorkerRun) : WorkerEvent → Prop
  | .insert d => ∀ id, r.phase d = .numbered id → id ∉ r.pendingTasks
  | .erase d => ∀ id d', r.phase d = .thrown id → r.pendingTasks.lookup id = some d' → d' = d
  | _ => True

structure Kept (r : WorkerRun) : Prop where
  filed : ∀ d, (r.phase d).isPlaced = true → d ∈ r.ran ∨ r.Waits d
  fresh : ∀ d, r.called ≤ d → r.phase d = .uncalled

structure Progress (r s : WorkerRun) : Prop where
  kept : s.Kept
  ran : ∀ d ∈ r.ran, d ∈ s.ran
  returned : ∀ d, (r.phase d).isReturned = true → (s.phase d).isReturned = true
  ahead : ∀ d, (r.phase d).isReturned = true → d ∈ r.ahead → d ∈ s.ran ∨ d ∈ s.ahead

variable {r s : WorkerRun} {e : WorkerEvent} {d : Nat}

theorem mem_table : d ∈ r.table ↔ ∃ id, r.pendingTasks.lookup id = some d := by
  constructor
  · intro h
    obtain ⟨⟨id, _⟩, hmem, rfl⟩ := List.mem_map.mp h
    exact ⟨id, AList.mem_lookup_iff.mpr hmem⟩
  · rintro ⟨id, h⟩
    exact List.mem_map.mpr ⟨⟨id, d⟩, AList.mem_lookup_iff.mp h, rfl⟩

theorem mem_table_insert {id : UInt64} (hid : id ∉ r.pendingTasks) {d' : Nat} :
    d' ∈ table { r with pendingTasks := r.pendingTasks.insert id d } ↔ d' = d ∨ d' ∈ r.table := by
  simp only [table, AList.entries_insert_of_notMem hid, List.map_cons, List.mem_cons]

theorem mem_table_erase {id : UInt64} {d' : Nat} (hne : d' ≠ d)
    (hid : ∀ x, r.pendingTasks.lookup id = some x → x = d) (h : d' ∈ r.table) :
    d' ∈ table { r with pendingTasks := r.pendingTasks.erase id } := by
  obtain ⟨id', h'⟩ := mem_table.mp h
  have hne' : id' ≠ id := by
    rintro rfl
    exact hne (hid d' h')
  exact mem_table.mpr ⟨id', (AList.lookup_erase_ne hne').trans h'⟩

theorem kept_start : Kept {} := by
  refine ⟨fun d h => ?_, fun _ _ => rfl⟩
  cases h

theorem mem_ahead (ht : d ∈ r.table → d ∈ s.table) (hq : d ∈ r.taskQueue → d ∈ s.taskQueue)
    (hround : s.round = r.round) (hd : d ∈ r.ahead) : d ∈ s.ahead := by
  rw [ahead] at hd ⊢
  rw [hround]
  cases hr : r.round with
  | out =>
      rw [hr] at hd
      rcases List.mem_append.mp hd with h | h
      · exact List.mem_append_left _ (ht h)
      · exact List.mem_append_right _ (hq h)
  | drained =>
      rw [hr] at hd
      exact hq hd
  | running tasks =>
      rw [hr] at hd
      exact hd

theorem Progress.entered (h : r.Kept) {p : DispatchPhase} (hd : (r.phase d).isReturned = false)
    (hphase : s.phase = Function.update r.phase d p) (hran : s.ran = r.ran) (hround : s.round = r.round)
    (hcalled : ∀ x, s.called ≤ x → r.called ≤ x ∧ x ≠ d) (htable : ∀ x, x ≠ d → x ∈ r.table → x ∈ s.table)
    (hqueue : ∀ x ∈ r.taskQueue, x ∈ s.taskQueue) (hp : p.isPlaced = true → d ∈ s.ran ∨ s.Waits d) :
    Progress r s := by
  have hne : ∀ x, (r.phase x).isReturned = true → x ≠ d := by
    rintro x hx rfl
    rw [hd] at hx
    cases hx
  refine ⟨⟨fun x hx => ?_, fun x hx => ?_⟩, fun x hx => hran ▸ hx, fun x hx => ?_, fun x hx hahead => ?_⟩
  · rw [hphase] at hx
    by_cases heq : x = d
    · subst heq
      rw [Function.update_self] at hx
      exact hp hx
    · rw [Function.update_of_ne heq] at hx
      rw [hran]
      refine (h.filed x hx).imp_right (Or.imp (htable x heq) (Or.imp (hqueue x) fun hbatch => ?_))
      rw [batch, hround]
      exact hbatch
  · obtain ⟨hx, heq⟩ := hcalled x hx
    rw [hphase, Function.update_of_ne heq]
    exact h.fresh x hx
  · rw [hphase, Function.update_of_ne (hne x hx)]
    exact hx
  · exact .inr (mem_ahead (htable x (hne x hx)) (hqueue x) hround hahead)

theorem Progress.worked (h : r.Kept) (hphase : s.phase = r.phase) (hcalled : s.called = r.called)
    (hran : ∀ d ∈ r.ran, d ∈ s.ran) (hwaits : ∀ d, r.Waits d → d ∈ s.ran ∨ s.Waits d)
    (hahead : ∀ d ∈ r.ahead, d ∈ s.ran ∨ d ∈ s.ahead) : Progress r s := by
  refine ⟨⟨fun d hd => ?_, fun d hd => ?_⟩, hran, fun d hd => hphase ▸ hd, fun d _ hd => hahead d hd⟩
  · rw [hphase] at hd
    rcases h.filed d hd with hdone | hw
    · exact .inl (hran d hdone)
    · exact hwaits d hw
  · rw [hphase]
    exact h.fresh d (hcalled ▸ hd)

theorem Kept.ne_of_fresh (h : r.Kept) (hd : r.phase d ≠ .uncalled) (x : Nat) (hx : r.called ≤ x) :
    r.called ≤ x ∧ x ≠ d := by
  refine ⟨hx, ?_⟩
  rintro rfl
  exact hd (h.fresh x hx)

theorem Kept.number (h : r.Kept) (hs : r.step (.number d) = some s) : Progress r s := by
  obtain ⟨hp, rfl⟩ := step_number hs
  refine .entered h (by rw [hp]; rfl) rfl rfl rfl (h.ne_of_fresh (by simp [hp])) ?_ ?_ ?_
  · exact fun _ _ ht => ht
  · exact fun _ hq => hq
  · intro hnumbered
    cases hnumbered

theorem Kept.insert (h : r.Kept) (hC : r.Unshared (.insert d)) (hs : r.step (.insert d) = some s) :
    Progress r s := by
  obtain ⟨id, hp, rfl⟩ := step_insert hs
  have htable (x : Nat) := @mem_table_insert r d id (hC id hp) x
  refine .entered h (by rw [hp]; rfl) rfl rfl rfl (h.ne_of_fresh (by simp [hp])) ?_ ?_ ?_
  · exact fun x _ ht => (htable x).mpr (.inr ht)
  · exact fun _ hq => hq
  · exact fun _ => .inr (.inl ((htable d).mpr (.inl rfl)))

theorem Kept.submit (h : r.Kept) {throws : Bool} (hs : r.step (.submit d throws) = some s) : Progress r s := by
  obtain ⟨id, hp, rfl⟩ := step_submit hs
  refine .entered h (by rw [hp]; rfl) rfl rfl rfl (h.ne_of_fresh (by simp [hp])) ?_ ?_ ?_
  · exact fun _ _ ht => ht
  · exact fun _ hq => hq
  · exact fun _ => h.filed d (by rw [hp]; rfl)

theorem Kept.erase (h : r.Kept) (hC : r.Unshared (.erase d)) (hs : r.step (.erase d) = some s) :
    Progress r s := by
  obtain ⟨id, hp, rfl⟩ := step_erase hs
  refine .entered h (by rw [hp]; rfl) rfl rfl rfl (h.ne_of_fresh (by simp [hp])) ?_ ?_ ?_
  · exact fun x hne ht => mem_table_erase hne (fun y hy => hC id y hp hy) ht
  · exact fun _ hq => hq
  · intro herased
    cases herased

theorem Kept.post (h : r.Kept) (hs : r.step (.post d) = some s) : Progress r s := by
  obtain ⟨hp, rfl⟩ := step_post hs
  refine .entered h (by rw [hp]; rfl) rfl rfl rfl (h.ne_of_fresh (by simp [hp])) ?_ ?_ ?_
  · exact fun _ _ ht => ht
  · exact fun _ hq => List.mem_append_left [d] hq
  · exact fun _ => .inr (.inr (.inl (List.mem_append_right r.taskQueue (List.mem_singleton_self d))))

theorem Kept.drain (h : r.Kept) (hs : r.step .drain = some s) : Progress r s := by
  obtain ⟨hround, rfl⟩ := step_drain hs
  refine .worked h rfl rfl (fun _ hd => List.mem_append_left _ hd) (fun x hx => ?_) (fun x hx => ?_)
  · rcases hx with htable | hqueue | hbatch
    · exact .inl (List.mem_append_right _ htable)
    · exact .inr (.inr (.inl hqueue))
    · rw [batch, hround] at hbatch
      cases hbatch
  · rw [WorkerRun.ahead, hround] at hx
    rcases List.mem_append.mp hx with htable | hqueue
    · exact .inl (List.mem_append_right _ htable)
    · exact .inr hqueue

theorem Kept.swap (h : r.Kept) (hs : r.step .swap = some s) : Progress r s := by
  obtain ⟨hround, rfl⟩ := step_swap hs
  refine .worked h rfl rfl (fun _ hd => hd) (fun x hx => .inr ?_) (fun x hx => ?_)
  · rcases hx with htable | hqueue | hbatch
    · exact .inl htable
    · exact .inr (.inr hqueue)
    · rw [batch, hround] at hbatch
      cases hbatch
  · rw [WorkerRun.ahead, hround] at hx
    exact .inr hx

theorem Kept.runTask (h : r.Kept) (hs : r.step .runTask = some s) : Progress r s := by
  obtain ⟨task, tasks, hround, rfl⟩ := step_runTask hs
  have hnext : ∀ x ∈ task :: tasks, x ∈ r.ran ++ [task] ∨ x ∈ tasks := by
    intro x hx
    rcases List.mem_cons.mp hx with rfl | hrest
    · exact .inl (List.mem_append_right _ (List.mem_singleton_self x))
    · exact .inr hrest
  refine .worked h rfl rfl (fun _ hd => List.mem_append_left _ hd) (fun x hx => ?_) (fun x hx => ?_)
  · rcases hx with htable | hqueue | hbatch
    · exact .inr (.inl htable)
    · exact .inr (.inr (.inl hqueue))
    · rw [batch, hround] at hbatch
      exact (hnext x hbatch).imp_right fun hrest => .inr (.inr hrest)
  · rw [WorkerRun.ahead, hround] at hx
    exact hnext x hx

theorem Kept.endRound (h : r.Kept) (hs : r.step .endRound = some s) : Progress r s := by
  obtain ⟨hround, rfl⟩ := step_endRound hs
  refine .worked h rfl rfl (fun _ hd => hd) (fun x hx => .inr ?_) (fun x hx => ?_)
  · rcases hx with htable | hqueue | hbatch
    · exact .inl htable
    · exact .inr (.inl hqueue)
    · rw [batch, hround] at hbatch
      cases hbatch
  · rw [WorkerRun.ahead, hround] at hx
    cases hx

theorem Kept.step (h : r.Kept) (hC : r.Unshared e) (hs : r.step e = some s) : Progress r s := by
  cases e with
  | number d => exact h.number hs
  | insert d => exact h.insert hC hs
  | submit d throws => exact h.submit hs
  | erase d => exact h.erase hC hs
  | post d => exact h.post hs
  | drain => exact h.drain hs
  | swap => exact h.swap hs
  | runTask => exact h.runTask hs
  | endRound => exact h.endRound hs

theorem Kept.isReturned_called (h : r.Kept) : (r.phase r.called).isReturned = false := by
  rw [h.fresh r.called le_rfl]
  rfl

theorem Kept.call (h : r.Kept) : Progress r r.call := by
  refine .entered h h.isReturned_called rfl rfl rfl ?_ ?_ ?_ ?_
  · intro x hx
    have hlt : r.called + 1 ≤ x := hx
    omega
  · exact fun _ _ ht => ht
  · exact fun _ hq => hq
  · intro hchosen
    cases hchosen

theorem Kept.postTask (h : r.Kept) : Progress r r.postTask := by
  refine .entered h h.isReturned_called rfl rfl rfl ?_ ?_ ?_ ?_
  · intro x hx
    have hlt : r.called + 1 ≤ x := hx
    omega
  · exact fun _ _ ht => ht
  · exact fun _ hq => List.mem_append_left [r.called] hq
  · exact fun _ => .inr (.inr (.inl (List.mem_append_right r.taskQueue (List.mem_singleton_self r.called))))

theorem ahead_of_endRound (hs : r.step .endRound = some s) : r.ahead = [] := by
  obtain ⟨hround, -⟩ := step_endRound hs
  rw [ahead, hround]

end WorkerRun

end CoroRpc.Io

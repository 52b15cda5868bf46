import CoroRpc.Net.PoolRun

namespace CoroRpc.Net

open Trace

variable {κ : Type}

namespace PoolRun

def Ready (r : PoolRun κ) : Prop := r.idle ≠ [] ∨ r.total < r.config.maxConnections

instance (r : PoolRun κ) : Decidable r.Ready := inferInstanceAs (Decidable (_ ∨ _))

def notifies (r : PoolRun κ) : PoolEvent κ → Bool
  | .release _ x => r.connected x && decide (r.idle.length < r.config.maxIdle)
  | _ => false

def isRelease : PoolEvent κ → Bool
  | .release _ _ => true
  | _ => false

theorem takeIdle_none {connected : Nat → Bool} {idle rest : List Nat} {dropped : Nat}
    (h : takeIdle connected idle = (none, rest, dropped)) : rest = [] := by
  induction idle generalizing rest dropped with
  | nil =>
      cases h
      rfl
  | cons x idle ih =>
      by_cases hx : connected x
      · simp [takeIdle, hx] at h
      · simp only [takeIdle, hx, if_false, Bool.false_eq_true, Prod.mk.injEq] at h
        obtain ⟨hnone, rfl, -⟩ := h
        exact ih (Prod.ext hnone (Prod.ext rfl rfl))

theorem acquire_waiting (r : PoolRun κ) (k : κ) :
    (r.acquire k).waiting = r.waiting ∨ ¬(r.acquire k).Ready := by
  rcases ht : takeIdle r.connected r.idle with ⟨taken, rest, dropped⟩
  simp only [acquire, ht]
  cases taken with
  | some x => exact .inl rfl
  | none =>
      dsimp only
      split
      · exact .inl rfl
      · next hge =>
          right
          simp only [Ready, takeIdle_none ht, ne_eq, not_true_eq_false, false_or]
          exact hge

theorem step_waiting [DecidableEq κ] {r r' : PoolRun κ} {e : PoolEvent κ} (hs : r.step e = some r')
    (hw : r.waiting = []) (hready : r'.Ready) : r'.waiting = [] := by
  cases e with
  | acquire k =>
      cases hs
      obtain heq | hnot := acquire_waiting r k
      · rw [heq]
        exact hw
      · exact absurd hready hnot
  | wake k =>
      cases step_moves hs
      simp only [hw, List.erase_nil]
  | create | countActive | countTotal | release | die => cases step_moves hs <;> exact hw

end PoolRun

structure WaiterRun (κ : Type) where
  pool : PoolRun κ
  unannounced : Bool := false

namespace WaiterRun

open PoolRun

/-- No client waits in `acquire` for a notification that is missing. -/
def NotStranded (w : WaiterRun κ) : Prop := w.unannounced → w.pool.waiting = []

/-- A connection that is released while a client waits at a pool that is exactly full is alive and
may be kept. -/
def Kept (w : WaiterRun κ) : PoolEvent κ → Prop
  | .release _ x =>
      w.pool.waiting ≠ [] → w.pool.idle = [] → w.pool.total = w.pool.config.maxConnections →
        w.pool.connected x ∧ 0 < w.pool.config.maxIdle
  | _ => True

variable [DecidableEq κ]

def step (w : WaiterRun κ) (e : PoolEvent κ) : Option (WaiterRun κ) :=
  (w.pool.step e).map fun pool =>
    { pool
      unannounced := decide pool.Ready && !w.pool.notifies e &&
        (w.unannounced || (isRelease e && !decide w.pool.Ready)) }

variable {w w' : WaiterRun κ} {e : PoolEvent κ}

theorem step_unannounced (hs : w.step e = some w') :
    w.pool.step e = some w'.pool ∧
      (w'.unannounced ↔ w'.pool.Ready ∧ w.pool.notifies e = false ∧
        (w.unannounced ∨ isRelease e ∧ ¬w.pool.Ready)) := by
  obtain ⟨pool, hp, rfl⟩ := Option.map_eq_some_iff.mp hs
  refine ⟨hp, ?_⟩
  simp [and_assoc]

theorem NotStranded.other (h : w.NotStranded) (hs : w.step e = some w') (he : isRelease e = false) :
    w'.NotStranded := by
  obtain ⟨hp, hiff⟩ := step_unannounced hs
  intro hu
  obtain ⟨hready, -, hun | ⟨hrel, -⟩⟩ := hiff.mp hu
  · exact step_waiting hp (h hun) hready
  · rw [he] at hrel
    cases hrel

theorem notStranded_release_iff {k : κ} {x : Nat} (h : w.NotStranded) (hs : w.step (.release k x) = some w') :
    w'.NotStranded ↔ w.Kept (.release k x) := by
  obtain ⟨hp, hiff⟩ := step_unannounced hs
  simp only [PoolRun.step, Option.ite_none_right_eq_some, Option.some.injEq] at hp
  obtain ⟨-, hp⟩ := hp
  by_cases hkeep : w.pool.connected x ∧ w.pool.idle.length < w.pool.config.maxIdle
  · refine iff_of_true (fun hu => ?_) (fun _ hidle _ => ?_)
    · have hnot := (hiff.mp hu).2.1
      simp [notifies, hkeep] at hnot
    · rw [hidle, List.length_nil] at hkeep
      exact hkeep
  · have hnot : w.pool.notifies (.release k x) = false := by
      simpa [notifies] using hkeep
    have hwait : w'.pool.waiting = w.pool.waiting := by
      rw [← hp]
      simp only [release, if_neg hkeep]
    have hready : w'.pool.Ready ↔ w.pool.idle ≠ [] ∨ w.pool.total - 1 < w.pool.config.maxConnections := by
      rw [← hp]
      simp only [release, if_neg hkeep, Ready]
    constructor
    · intro hns hw hidle htotal
      refine absurd (hwait.symm.trans (hns (hiff.mpr ⟨hready.mpr ?_, hnot, .inr ⟨rfl, ?_⟩⟩))) hw
      · omega
      · simp only [Ready, hidle, ne_eq, not_true_eq_false, false_or]
        omega
    · intro hkept hu
      rw [hwait]
      obtain ⟨hr, -, hun | ⟨-, hnr⟩⟩ := hiff.mp hu
      · exact h hun
      · by_contra hw
        simp only [Ready, not_or, not_not] at hnr
        have hlt : w.pool.total - 1 < w.pool.config.maxConnections := by
          simpa [hnr.1] using hready.mp hr
        have hfull := hkept hw hnr.1 (by omega)
        rw [hnr.1, List.length_nil] at hkeep
        exact hkeep hfull

theorem notStranded_step_iff (h : w.NotStranded) (hs : w.step e = some w') : w'.NotStranded ↔ w.Kept e := by
  cases e with
  | release k x => exact notStranded_release_iff h hs
  | acquire | wake | create | countActive | countTotal | die => exact iff_of_true (h.other hs rfl) trivial

end WaiterRun

/-- A release that closes the connection notifies nobody: no waiter is stranded throughout a run exactly
when every connection that comes back to a full pool with a waiter is kept. -/
theorem waiters_notStranded_iff [DecidableEq κ] (config : ConnectionPoolConfig) (evs : List (PoolEvent κ))
    (w : WaiterRun κ) (h : run WaiterRun.step { pool := { config } } evs = some w) :
    Throughout WaiterRun.step WaiterRun.NotStranded { pool := { config } } evs ↔
      EachStep WaiterRun.step WaiterRun.Kept { pool := { config } } evs := by
  refine throughout_iff (I := fun _ => True) (fun _ _ _ _ _ => trivial)
    (fun _ _ _ _ hns hs => WaiterRun.notStranded_step_iff hns hs) trivial ?_ h
  intro hu
  cases hu

def waitForOne : List (PoolEvent Nat) :=
  [.acquire 0, .create 0 true, .countActive 0 0, .countTotal 0 0, .acquire 1]

theorem waiters_notStranded_kept :
    Throughout WaiterRun.step WaiterRun.NotStranded { pool := { config := { maxConnections := 1 } } }
      (waitForOne ++ [.release 0 0]) := by
  refine (waiters_notStranded_iff { maxConnections := 1 } (waitForOne ++ [.release 0 0]) _ rfl).mpr ?_
  refine (eachStep_cons rfl).mpr ⟨trivial, (eachStep_cons rfl).mpr ⟨trivial, ?_⟩⟩
  refine (eachStep_cons rfl).mpr ⟨trivial, (eachStep_cons rfl).mpr ⟨trivial, ?_⟩⟩
  refine (eachStep_cons rfl).mpr ⟨trivial, (eachStep_cons rfl).mpr ⟨?_, eachStep_nil⟩⟩
  exact fun _ _ _ => ⟨rfl, by decide⟩

/-- The connection has died when it is released: there is room for another, and the waiter sleeps on. -/
theorem waiter_stranded :
    ∃ w, run WaiterRun.step { pool := { config := { maxConnections := 1 } } }
        (waitForOne ++ [.die 0, .release 0 0]) = some w ∧
      w.pool.waiting = [1] ∧ w.pool.Ready ∧ ¬w.NotStranded := by
  refine ⟨_, rfl, rfl, by decide, fun hns => ?_⟩
  exact absurd (hns rfl) (by decide)

end CoroRpc.Net

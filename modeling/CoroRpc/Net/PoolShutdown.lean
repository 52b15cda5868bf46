import CoroRpc.Net.PoolRun

namespace CoroRpc.Net

open Trace

variable {κ : Type}

namespace PoolRun

def shutdown (r : PoolRun κ) : PoolRun κ :=
  { r with
    idle := []
    connected := fun x => r.connected x && !decide (x ∈ r.idle)
    closed := r.closed + r.idle.length
    total := 0
    active := 0 }

def outstanding (r : PoolRun κ) : Int := r.held.length + r.counted.length

structure Counted (r : PoolRun κ) : Prop where
  total_nonneg : 0 ≤ r.total
  active_nonneg : 0 ≤ r.active
  active_le : r.active ≤ r.outstanding

def debt (r : PoolRun κ) : Int := r.outstanding - r.active

theorem Balanced.counted_ok {r : PoolRun κ} (h : r.Balanced) : r.Counted := by
  have hact := h.active
  have htot := h.total
  refine ⟨by omega, by omega, ?_⟩
  rw [hact]
  exact Int.le_refl _

theorem Balanced.shutdown {r : PoolRun κ} (h : r.Balanced) (hout : r.outstanding = 0) : r.shutdown.Balanced := by
  simp only [outstanding] at hout
  have hcir := h.circulating
  refine h.moved rfl (fun x => ?_) (Nat.zero_le _) ?_ ?_ ?_
  · simp only [copies, PoolRun.shutdown, List.count_nil]
    omega
  all_goals
    simp only [PoolRun.shutdown, List.length_nil]
    omega

theorem debt_shutdown (r : PoolRun κ) : r.shutdown.debt = r.outstanding := Int.sub_zero _

theorem debt_step [DecidableEq κ] {r s : PoolRun κ} {e : PoolEvent κ} (hs : r.step e = some s) : s.debt = r.debt := by
  simp only [debt, outstanding]
  cases step_moves hs with
  | countsActive k x hx | countsTotal k x hx | keeps k x hx | closes k x hx =>
      have hlen := length_erase hx
      simp only [List.length_cons]
      omega
  | reuses =>
      simp only [List.length_cons]
      omega
  | opens | waits | wakes | creates | fails | dies => rfl

end PoolRun

structure ManagerRun (κ : Type) where
  pools : List (String × Nat) := []
  pool : Nat → PoolRun κ := fun _ => {}
  created : Nat := 0

inductive ManagerEvent (κ : Type)
  | getPool (host : String) (port : UInt16) (config : ConnectionPoolConfig)
  | use (i : Nat) (e : PoolEvent κ)
  | shutdown (i : Nat)
  | removePool (host : String) (port : UInt16)
  | shutdownAll

namespace ManagerRun

def key (host : String) (port : UInt16) : String := host ++ ":" ++ toString port.toNat

variable [DecidableEq κ]

def setPool (m : ManagerRun κ) (i : Nat) (r : PoolRun κ) : ManagerRun κ :=
  { m with pool := Function.update m.pool i r }

def shutdownAll (m : ManagerRun κ) : ManagerRun κ :=
  { m with
    pools := []
    pool := fun i => if i ∈ m.pools.map Prod.snd then (m.pool i).shutdown else m.pool i }

def step (m : ManagerRun κ) : ManagerEvent κ → Option (ManagerRun κ)
  | .getPool host port config =>
      match m.pools.lookup (key host port) with
      | some _ => some m
      | none =>
          some
            { (m.setPool m.created { config }) with
              pools := (key host port, m.created) :: m.pools
              created := m.created + 1 }
  | .use i e => if i < m.created then ((m.pool i).step e).map (m.setPool i) else none
  | .shutdown i => if i < m.created then some (m.setPool i (m.pool i).shutdown) else none
  | .removePool host port =>
      match m.pools.lookup (key host port) with
      | some i =>
          some
            { (m.setPool i (m.pool i).shutdown) with
              pools := m.pools.filter fun entry => entry.1 != key host port }
      | none => some m
  | .shutdownAll => some m.shutdownAll

def ShutsDown (m : ManagerRun κ) (i : Nat) : ManagerEvent κ → Prop
  | .shutdown j => j = i
  | .removePool host port => m.pools.lookup (key host port) = some i
  | .shutdownAll => i ∈ m.pools.map Prod.snd
  | _ => False

/-- A pool that is shut down has no connection outstanding. -/
def Quiet (m : ManagerRun κ) (e : ManagerEvent κ) : Prop := ∀ i, m.ShutsDown i e → (m.pool i).outstanding = 0

def AllCounted (m : ManagerRun κ) : Prop := ∀ i, (m.pool i).Counted

def AllReleased (m : ManagerRun κ) : Prop := ∀ i, (m.pool i).outstanding = 0

structure Numbered (m : ManagerRun κ) : Prop where
  unused : ∀ i, m.created ≤ i → m.pool i = {}
  known : ∀ i, i ∈ m.pools.map Prod.snd → i < m.created

variable {m m' : ManagerRun κ} {e : ManagerEvent κ}

inductive PoolMoves (m : ManagerRun κ) (e : ManagerEvent κ) (i : Nat) : PoolRun κ → Prop
  | kept (h : ¬m.ShutsDown i e) : PoolMoves m e i (m.pool i)
  | used (h : ¬m.ShutsDown i e) (f : PoolEvent κ) (r : PoolRun κ) (hr : (m.pool i).step f = some r) :
      PoolMoves m e i r
  | made (h : ¬m.ShutsDown i e) (hnew : m.pool i = {}) (config : ConnectionPoolConfig) : PoolMoves m e i { config }
  | shut (h : m.ShutsDown i e) : PoolMoves m e i (m.pool i).shutdown

theorem step_poolMoves (hn : m.Numbered) (hs : m.step e = some m') (i : Nat) : PoolMoves m e i (m'.pool i) := by
  cases e with
  | getPool host port config =>
      simp only [step] at hs
      split at hs
      · cases hs
        exact .kept id
      · cases hs
        by_cases hi : i = m.created
        · subst hi
          simp only [setPool, Function.update_self]
          exact .made id (hn.unused _ (Nat.le_refl _)) config
        · simp only [setPool, Function.update_of_ne hi]
          exact .kept id
  | use j f =>
      simp only [step] at hs
      split at hs
      · obtain ⟨r, hr, rfl⟩ := Option.map_eq_some_iff.mp hs
        by_cases hi : i = j
        · subst hi
          simp only [setPool, Function.update_self]
          exact .used id f r hr
        · simp only [setPool, Function.update_of_ne hi]
          exact .kept id
      · cases hs
  | shutdown j =>
      simp only [step] at hs
      split at hs
      · cases hs
        by_cases hi : i = j
        · subst hi
          simp only [setPool, Function.update_self]
          exact .shut rfl
        · simp only [setPool, Function.update_of_ne hi]
          exact .kept (Ne.symm hi)
      · cases hs
  | removePool host port =>
      simp only [step] at hs
      split at hs
      · next j hj =>
          cases hs
          by_cases hi : i = j
          · subst hi
            simp only [setPool, Function.update_self]
            exact .shut hj
          · simp only [setPool, Function.update_of_ne hi]
            refine .kept fun h => hi ?_
            exact Option.some.inj (h.symm.trans hj)
      · next hj =>
          cases hs
          refine .kept fun h => ?_
          cases hj.symm.trans h
  | shutdownAll =>
      cases hs
      simp only [shutdownAll]
      split
      · next hi => exact .shut hi
      · next hi => exact .kept hi

omit [DecidableEq κ] in
theorem numbered_start : Numbered ({} : ManagerRun κ) := ⟨fun _ _ => rfl, fun _ h => by simp at h⟩

omit [DecidableEq κ] in
theorem mem_of_lookup {name : String} {i : Nat} (h : m.pools.lookup name = some i) : (name, i) ∈ m.pools := by
  obtain ⟨front, back, hpools, -⟩ := List.lookup_eq_some_iff.mp h
  simp [hpools]

omit [DecidableEq κ] in
theorem Numbered.lookup_lt (hn : m.Numbered) {name : String} {i : Nat} (h : m.pools.lookup name = some i) :
    i < m.created :=
  hn.known i (List.mem_map_of_mem (mem_of_lookup h))

omit [DecidableEq κ] in
theorem Numbered.setPool (hn : m.Numbered) {i : Nat} (hi : i < m.created) (r : PoolRun κ) :
    (m.setPool i r).Numbered := by
  refine ⟨fun j hj => ?_, hn.known⟩
  have hne : j ≠ i := Nat.ne_of_gt (Nat.lt_of_lt_of_le hi hj)
  simp only [ManagerRun.setPool, Function.update_of_ne hne]
  exact hn.unused j hj

theorem step_numbered (hn : m.Numbered) (hs : m.step e = some m') : m'.Numbered := by
  cases e with
  | getPool host port config =>
      simp only [step] at hs
      split at hs
      · cases hs
        exact hn
      · cases hs
        refine ⟨fun i hi => ?_, fun i hi => ?_⟩
        · have hne : i ≠ m.created := Nat.ne_of_gt hi
          simp only [setPool, Function.update_of_ne hne]
          exact hn.unused i (Nat.le_of_succ_le hi)
        · simp only [List.map_cons, List.mem_cons] at hi
          obtain rfl | hi := hi
          · exact Nat.lt_succ_self _
          · exact Nat.lt_succ_of_lt (hn.known i hi)
  | use j f =>
      simp only [step] at hs
      split at hs
      · next hj =>
          obtain ⟨r, -, rfl⟩ := Option.map_eq_some_iff.mp hs
          exact hn.setPool hj r
      · cases hs
  | shutdown j =>
      simp only [step] at hs
      split at hs
      · next hj =>
          cases hs
          exact hn.setPool hj _
      · cases hs
  | removePool host port =>
      simp only [step] at hs
      split at hs
      · next j hj =>
          cases hs
          refine ⟨(hn.setPool (hn.lookup_lt hj) _).unused, fun i hi => hn.known i ?_⟩
          exact List.map_subset Prod.snd (List.filter_subset_self _) hi
      · cases hs
        exact hn
  | shutdownAll =>
      cases hs
      refine ⟨fun i hi => ?_, fun i hi => by simp [shutdownAll] at hi⟩
      have hnot : i ∉ m.pools.map Prod.snd := fun h => Nat.not_lt.mpr hi (hn.known i h)
      simp only [shutdownAll, if_neg hnot]
      exact hn.unused i hi

theorem step_balanced (hn : m.Numbered) (hb : ∀ i, (m.pool i).Balanced) (hq : m.Quiet e) (hs : m.step e = some m') :
    ∀ i, (m'.pool i).Balanced := by
  intro i
  have hmoves := step_poolMoves hn hs i
  generalize m'.pool i = r at hmoves
  cases hmoves with
  | kept => exact hb i
  | used _ f r hr => exact (hb i).step hr
  | made _ _ config => exact PoolRun.balanced_start config
  | shut h => exact (hb i).shutdown (hq i h)

theorem step_debt (hn : m.Numbered) (hc : m.AllCounted) (hs : m.step e = some m') (i : Nat) :
    (m.pool i).debt ≤ (m'.pool i).debt := by
  have hmoves := step_poolMoves hn hs i
  generalize m'.pool i = r at hmoves
  cases hmoves with
  | kept => exact Int.le_refl _
  | used _ f r hr => rw [PoolRun.debt_step hr]
  | made _ hnew config =>
      rw [hnew]
      exact Int.le_refl _
  | shut =>
      rw [PoolRun.debt_shutdown, PoolRun.debt]
      have hact := (hc i).active_nonneg
      omega

end ManagerRun

/-- A shutdown of a pool with connections outstanding breaks the counters once they are given back. -/
theorem shutdown_counted [DecidableEq κ] (evs : List (ManagerEvent κ)) (m : ManagerRun κ)
    (h : run ManagerRun.step {} evs = some m) :
    (EachStep ManagerRun.step ManagerRun.Quiet {} evs → Throughout ManagerRun.step ManagerRun.AllCounted {} evs) ∧
      (m.AllReleased → Throughout ManagerRun.step ManagerRun.AllCounted {} evs →
        EachStep ManagerRun.step ManagerRun.Quiet {} evs) := by
  constructor
  · intro hquiet fs t hfs ht
    have hinv := throughout_of_eachStep (P := fun m : ManagerRun κ => m.Numbered ∧ ∀ i, (m.pool i).Balanced)
      (fun _ _ _ hb hq hs => ⟨ManagerRun.step_numbered hb.1 hs, ManagerRun.step_balanced hb.1 hb.2 hq hs⟩)
      ⟨ManagerRun.numbered_start, fun _ => PoolRun.balanced_start _⟩ hquiet fs t hfs ht
    exact fun i => (hinv.2 i).counted_ok
  · intro hrel hcount fs e t hfs ht i hshut
    obtain ⟨rest, rfl⟩ := hfs
    have hnum : t.Numbered :=
      run_inv (fun _ _ _ hn hs => ManagerRun.step_numbered hn hs) ManagerRun.numbered_start ht
    rw [List.append_assoc] at h hcount
    obtain ⟨t', ht', hrun⟩ := run_split h
    rw [ht] at ht'
    cases ht'
    obtain ⟨u, hu, hrest⟩ := run_cons.mp hrun
    have hfrom := (throughout_cons hu).mp (throughout_append ht hcount)
    have hmono : (u.pool i).debt ≤ (m.pool i).debt :=
      le_of_throughout (f := fun m : ManagerRun κ => (m.pool i).debt)
        (fun _ _ _ hn hs => ManagerRun.step_numbered hn hs)
        (fun _ _ _ hn hc hs => ManagerRun.step_debt hn hc hs i) (ManagerRun.step_numbered hnum hu) hfrom.2 hrest
    have hdebt : (u.pool i).debt = (t.pool i).outstanding := by
      have hmoves := ManagerRun.step_poolMoves hnum hu i
      generalize u.pool i = r at hmoves
      cases hmoves with
      | kept hnot | used hnot | made hnot => exact absurd hshut hnot
      | shut => exact PoolRun.debt_shutdown _
    have hend := (hcount _ m List.prefix_rfl h i).active_nonneg
    have hzero := hrel i
    rw [hdebt] at hmono
    simp only [PoolRun.debt, hzero] at hmono
    simp only [PoolRun.outstanding] at hmono ⊢
    omega

def acquireOne : List (ManagerEvent Nat) :=
  [.getPool "localhost" 8080 {}, .use 0 (.acquire 0), .use 0 (.create 0 true), .use 0 (.countActive 0 0),
    .use 0 (.countTotal 0 0)]

theorem shutdown_counted_released :
    Throughout ManagerRun.step ManagerRun.AllCounted {} (acquireOne ++ [.use 0 (.release 0 0), .shutdown 0]) := by
  refine (shutdown_counted (acquireOne ++ [.use 0 (.release 0 0), .shutdown 0]) _ rfl).1 ?_
  refine (eachStep_cons rfl).mpr ⟨fun _ => False.elim, (eachStep_cons rfl).mpr ⟨fun _ => False.elim, ?_⟩⟩
  refine (eachStep_cons rfl).mpr ⟨fun _ => False.elim, (eachStep_cons rfl).mpr ⟨fun _ => False.elim, ?_⟩⟩
  refine (eachStep_cons rfl).mpr ⟨fun _ => False.elim, (eachStep_cons rfl).mpr ⟨fun _ => False.elim, ?_⟩⟩
  refine (eachStep_cons rfl).mpr ⟨?_, eachStep_nil⟩
  rintro i rfl
  rfl

/-- The connection is still held when the pools are shut down. -/
theorem shutdown_wraps_active :
    ∃ m, run ManagerRun.step {} (acquireOne ++ [.shutdownAll, .use 0 (.release 0 0)]) = some m ∧
      (m.pool 0).active = -1 ∧ ¬m.AllCounted := by
  refine ⟨_, rfl, rfl, fun h => ?_⟩
  exact absurd (h 0).active_nonneg (by decide)

end CoroRpc.Net

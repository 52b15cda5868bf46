import CoroRpc.Net.PoolRun

namespace CoroRpc.Rpc

open Net Trace

variable {κ : Type}

inductive CallOp
  | send | recvHeader | recvBody
  deriving DecidableEq

inductive CallStage
  | ready (op : CallOp)
  | acquiring (op : CallOp)
  | using (op : CallOp) (x : Nat)
  | over
  deriving DecidableEq

-- Calls `κ` over one pool. `sentOn` is the connection that a call has sent its request on, `recvs` are the
-- connections that calls have received on.
structure CallsRun (κ : Type) where
  pool : PoolRun κ
  stage : κ → CallStage := fun _ => .ready .send
  sentOn : κ → Option Nat := fun _ => none
  recvs : List (κ × Nat) := []

/-- `move` is a step of the pool other than a release; `release` ends the use of a connection, after which the
call goes on to its next operation or is over. -/
inductive CallsEvent (κ : Type)
  | move (e : PoolEvent κ)
  | release (k : κ) (x : Nat) (goesOn : Bool)

def CallOp.next : CallOp → CallStage
  | .send => .ready .recvHeader
  | .recvHeader => .ready .recvBody
  | .recvBody => .over

def CallStage.early : CallStage → Bool
  | .ready .send | .acquiring .send => true
  | _ => false

namespace CallsRun

variable [DecidableEq κ]

def enter (r : CallsRun κ) (k : κ) (s : CallStage) : CallsRun κ := { r with stage := Function.update r.stage k s }

def use (r : CallsRun κ) (k : κ) (op : CallOp) (x : Nat) : CallsRun κ :=
  let r := r.enter k (.using op x)
  if op = .send then { r with sentOn := Function.update r.sentOn k (some x) }
  else { r with recvs := (k, x) :: r.recvs }

def step (r : CallsRun κ) : CallsEvent κ → Option (CallsRun κ)
  | .move (.acquire k) =>
      match r.stage k with
      | .ready op =>
          let s := { r with pool := r.pool.acquire k }
          match (PoolRun.takeIdle r.pool.connected r.pool.idle).1 with
          | some x => some (s.use k op x)
          | none => some (s.enter k (.acquiring op))
      | _ => none
  | .move (.wake k) =>
      match r.stage k with
      | .acquiring op => (r.pool.step (.wake k)).map fun pool => enter { r with pool } k (.ready op)
      | _ => none
  | .move (.create k opens) =>
      match r.stage k with
      | .acquiring op =>
          -- the null pointer is followed at once
          (r.pool.step (.create k opens)).map fun pool =>
            enter { r with pool } k (if opens then .acquiring op else .over)
      | _ => none
  | .move (.countActive k x) => (r.pool.step (.countActive k x)).map fun pool => { r with pool }
  | .move (.countTotal k x) =>
      match r.stage k with
      | .acquiring op => (r.pool.step (.countTotal k x)).map fun pool => use { r with pool } k op x
      | _ => none
  | .move (.release _ _) => none
  | .move (.die x) => (r.pool.step (.die x)).map fun pool => { r with pool }
  | .release k x goesOn =>
      match r.stage k with
      | .using op y =>
          if x = y then
            (r.pool.step (.release k x)).map fun pool => enter { r with pool } k (if goesOn then op.next else .over)
          else none
      | _ => none

/-- Every recv was made on the connection of its call's send. -/
def Affine (r : CallsRun κ) : Prop := ∀ k x, (k, x) ∈ r.recvs → r.sentOn k = some x

/-- The connection released last among those still connected is the call's own when it acquires for
a recv, and a recv gets no new connection. -/
def OwnOnTop (r : CallsRun κ) : CallsEvent κ → Prop
  | .move (.acquire k) => ∀ op x, r.stage k = .ready op → op ≠ .send →
      r.pool.idle.find? r.pool.connected = some x → r.sentOn k = some x
  | .move (.countTotal k _) => r.stage k = .acquiring .send
  | _ => True

@[simp] theorem use_pool (r : CallsRun κ) (k : κ) (op : CallOp) (x : Nat) : (r.use k op x).pool = r.pool := by
  by_cases hop : op = .send <;> simp [use, enter, hop]

inductive Effect (r s : CallsRun κ) (e : CallsEvent κ) : Prop
  | quiet (hrecvs : s.recvs = r.recvs) (hsent : s.sentOn = r.sentOn)
      (hearly : ∀ k, (s.stage k).early = true → (r.stage k).early = true) (hown : r.OwnOnTop e)
  | reuses (k : κ) (op : CallOp) (x : Nat) (he : e = .move (.acquire k)) (hk : r.stage k = .ready op)
      (hx : r.pool.idle.find? r.pool.connected = some x) (hheld : (k, x) ∈ s.pool.held)
      (hs : s = use { r with pool := s.pool } k op x)
  | opens (k : κ) (op : CallOp) (x : Nat) (he : e = .move (.countTotal k x)) (hk : r.stage k = .acquiring op)
      (hx : (k, x) ∈ r.pool.counted) (hheld : (k, x) ∈ s.pool.held)
      (hs : s = use { r with pool := s.pool } k op x)

theorem early_enter {r : CallsRun κ} {k : κ} {st : CallStage} (h : st.early = true → (r.stage k).early = true)
    (l : κ) (hl : ((r.enter k st).stage l).early = true) : (r.stage l).early = true := by
  by_cases hlk : l = k
  · subst hlk
    exact h (by simpa [enter] using hl)
  · simpa [enter, hlk] using hl

omit [DecidableEq κ] in
theorem mem_held_acquire {p : PoolRun κ} {x : Nat} (h : (PoolRun.takeIdle p.connected p.idle).1 = some x) (k : κ) :
    (k, x) ∈ (p.acquire k).held := by
  simp [PoolRun.acquire, h]

/-- A step of the calls is a step of the pool, with its effect. -/
theorem step_effect {r s : CallsRun κ} {e : CallsEvent κ} (hs : r.step e = some s) :
    (∃ e', r.pool.step e' = some s.pool) ∧ Effect r s e := by
  cases e with
  | move e =>
      cases e with
      | acquire k =>
          simp only [step] at hs
          split at hs
          · rename_i op hk
            have hfst := PoolRun.takeIdle_fst r.pool.connected r.pool.idle
            split at hs
            · rename_i x hx
              cases hs
              rw [use_pool]
              refine ⟨⟨.acquire k, rfl⟩, .reuses k op x rfl hk (hfst ▸ hx) ?_ ?_⟩
              · rw [use_pool]
                exact mem_held_acquire hx k
              · rw [use_pool]
            · rename_i hx
              cases hs
              refine ⟨⟨.acquire k, rfl⟩, .quiet rfl rfl ?_ ?_⟩
              · apply early_enter (r := { r with pool := r.pool.acquire k })
                intro h
                cases op <;> simp [CallStage.early, hk] at h ⊢
              · intro op' x _ _ hfind
                rw [← hfst, hx] at hfind
                cases hfind
          · cases hs
      | wake k =>
          simp only [step] at hs
          split at hs
          · rename_i op hk
            obtain ⟨pool, hpool, rfl⟩ := Option.map_eq_some_iff.mp hs
            refine ⟨⟨_, hpool⟩, .quiet rfl rfl (early_enter (r := { r with pool }) fun h => ?_) trivial⟩
            cases op <;> simp [CallStage.early, hk] at h ⊢
          · cases hs
      | create k opens =>
          simp only [step] at hs
          split at hs
          · rename_i op hk
            obtain ⟨pool, hpool, rfl⟩ := Option.map_eq_some_iff.mp hs
            refine ⟨⟨_, hpool⟩, .quiet rfl rfl (early_enter (r := { r with pool }) fun h => ?_) trivial⟩
            cases opens <;> cases op <;> simp [CallStage.early, hk] at h ⊢
          · cases hs
      | countTotal k x =>
          simp only [step] at hs
          split at hs
          · rename_i op hk
            obtain ⟨pool, hpool, rfl⟩ := Option.map_eq_some_iff.mp hs
            rw [use_pool]
            refine ⟨⟨_, hpool⟩, ?_⟩
            cases PoolRun.step_moves hpool with
            | countsTotal _ _ hx =>
                refine .opens k op x rfl hk hx ?_ ?_
                · rw [use_pool]
                  exact List.mem_cons_self
                · rw [use_pool]
          · cases hs
      | release k x => cases hs
      | countActive k x | die x =>
          obtain ⟨pool, hpool, rfl⟩ := Option.map_eq_some_iff.mp hs
          exact ⟨⟨_, hpool⟩, .quiet rfl rfl (fun _ h => h) trivial⟩
  | release k x goesOn =>
      simp only [step] at hs
      split at hs
      · rename_i op y hk
        split at hs
        · obtain ⟨pool, hpool, rfl⟩ := Option.map_eq_some_iff.mp hs
          refine ⟨⟨_, hpool⟩, .quiet rfl rfl (early_enter (r := { r with pool }) fun h => ?_) trivial⟩
          cases goesOn <;> cases op <;> simp [CallStage.early, CallOp.next] at h
        · cases hs
      · cases hs

structure Sound (r : CallsRun κ) : Prop where
  balanced : r.pool.Balanced
  recvs : ∀ k x, (k, x) ∈ r.recvs → (r.stage k).early = false
  sent : ∀ k x, r.sentOn k = some x → x < r.pool.created ∧ r.pool.uncounted x = 0

theorem use_stage (r : CallsRun κ) (k : κ) (op : CallOp) (x : Nat) :
    (r.use k op x).stage = Function.update r.stage k (.using op x) := by
  by_cases hop : op = .send <;> simp [use, enter, hop]

theorem use_sentOn (r : CallsRun κ) (k : κ) (op : CallOp) (x : Nat) :
    (r.use k op x).sentOn = if op = .send then Function.update r.sentOn k (some x) else r.sentOn := by
  by_cases hop : op = .send <;> simp [use, enter, hop]

theorem use_recvs (r : CallsRun κ) (k : κ) (op : CallOp) (x : Nat) :
    (r.use k op x).recvs = if op = .send then r.recvs else (k, x) :: r.recvs := by
  by_cases hop : op = .send <;> simp [use, enter, hop]

theorem Sound.use {r : CallsRun κ} (h : r.Sound) {k : κ} {op : CallOp} {x : Nat} (hx : x < r.pool.created)
    (hun : r.pool.uncounted x = 0) : (r.use k op x).Sound := by
  refine ⟨by simpa using h.balanced, fun l y hy => ?_, fun l y hy => ?_⟩
  · rw [use_stage]
    by_cases hl : l = k
    · simp [hl, CallStage.early]
    · rw [use_recvs] at hy
      rw [Function.update_of_ne hl]
      split at hy
      · exact h.recvs l y hy
      · rcases List.mem_cons.mp hy with heq | hmem
        · exact absurd (congrArg Prod.fst heq) hl
        · exact h.recvs l y hmem
  · rw [use_pool]
    rw [use_sentOn] at hy
    split at hy
    · by_cases hl : l = k
      · rw [hl, Function.update_self] at hy
        cases hy
        exact ⟨hx, hun⟩
      · rw [Function.update_of_ne hl] at hy
        exact h.sent l y hy
    · exact h.sent l y hy

theorem Sound.step {r s : CallsRun κ} {e : CallsEvent κ} (h : r.Sound) (hs : r.step e = some s) : s.Sound := by
  obtain ⟨⟨e', he'⟩, heffect⟩ := step_effect hs
  have hbal := h.balanced.step he'
  have hmoved : Sound { r with pool := s.pool } := by
    refine ⟨hbal, h.recvs, fun k x hx => ?_⟩
    obtain ⟨hlt, hun⟩ := h.sent k x hx
    exact PoolRun.uncounted_step he' hlt hun
  cases heffect with
  | quiet hrecvs hsent hearly hown =>
      refine ⟨hbal, fun k x hx => ?_, fun k x hx => hmoved.sent k x (hsent ▸ hx)⟩
      have hlate := h.recvs k x (hrecvs ▸ hx)
      by_contra hne
      rw [hearly k (Bool.eq_true_of_not_eq_false hne)] at hlate
      cases hlate
  | reuses k op x he hk hx hheld hs | opens k op x he hk hx hheld hs =>
      obtain ⟨hlt, hun⟩ := hbal.held_counted hheld
      rw [hs]
      exact hmoved.use hlt hun

theorem affine_use_iff {r : CallsRun κ} (h : r.Sound) (ha : r.Affine) {k : κ} {op : CallOp}
    (hk : r.stage k = .ready op ∨ r.stage k = .acquiring op) (pool : PoolRun κ) (x : Nat) :
    (use { r with pool } k op x).Affine ↔ (op ≠ .send → r.sentOn k = some x) := by
  rw [Affine, use_recvs, use_sentOn]
  by_cases hop : op = .send
  · subst hop
    simp only [if_true, ne_eq, not_true_eq_false, false_imp_iff, iff_true]
    intro l y hy
    have hl : l ≠ k := by
      rintro rfl
      have hlate := h.recvs l y hy
      rcases hk with hk | hk <;> simp [hk, CallStage.early] at hlate
    rw [Function.update_of_ne hl]
    exact ha l y hy
  · simp only [hop, if_false, ne_eq, not_false_eq_true, forall_const]
    constructor
    · intro hall
      exact hall k x List.mem_cons_self
    · intro hown l y hy
      rcases List.mem_cons.mp hy with heq | hmem
      · cases heq
        exact hown
      · exact ha l y hmem

theorem affine_step_iff {r s : CallsRun κ} {e : CallsEvent κ} (h : r.Sound) (ha : r.Affine)
    (hs : r.step e = some s) : s.Affine ↔ r.OwnOnTop e := by
  cases (step_effect hs).2 with
  | quiet hrecvs hsent hearly hown =>
      refine iff_of_true (fun k x hx => ?_) hown
      rw [hsent]
      exact ha k x (hrecvs ▸ hx)
  | reuses k op x he hk hx hheld hs =>
      rw [hs, he, affine_use_iff h ha (.inl hk)]
      constructor
      · intro hown op' y hk' hop hy
        rw [hk] at hk'
        cases hk'
        rw [hx] at hy
        cases hy
        exact hown hop
      · intro hown hop
        exact hown op x hk hop hx
  | opens k op x he hk hx hheld hs =>
      rw [hs, he, affine_use_iff h ha (.inr hk)]
      -- the new connection is not the one that was sent on
      have hnew : r.sentOn k ≠ some x := by
        intro hsent
        have hun := (h.sent k x hsent).2
        have hin : 0 < (r.pool.counted.map Prod.snd).count x :=
          List.count_pos_iff.mpr (List.mem_map_of_mem hx)
        simp only [PoolRun.uncounted] at hun
        omega
      show (op ≠ .send → r.sentOn k = some x) ↔ r.stage k = .acquiring .send
      rw [hk]
      constructor
      · intro hown
        by_contra hne
        exact hnew (hown fun hop => hne (by rw [hop]))
      · intro heq hop
        cases heq
        exact absurd rfl hop

def start (config : ConnectionPoolConfig) : CallsRun κ := { pool := { config } }

omit [DecidableEq κ] in
theorem sound_start (config : ConnectionPoolConfig) : Sound (start config : CallsRun κ) := by
  refine ⟨PoolRun.balanced_start config, fun k x hx => ?_, fun k x hx => ?_⟩
  · cases hx
  · cases hx

end CallsRun

/-- In every run of calls over one pool, every recv is made on the connection of its call's send
exactly when each acquire for a recv finds that connection on top of the live idle ones. -/
theorem recv_affine_iff [DecidableEq κ] (config : ConnectionPoolConfig) (evs : List (CallsEvent κ))
    (r : CallsRun κ) (h : run CallsRun.step (.start config) evs = some r) :
    Throughout CallsRun.step CallsRun.Affine (.start config) evs ↔
      EachStep CallsRun.step CallsRun.OwnOnTop (.start config) evs := by
  apply throughout_iff (I := CallsRun.Sound)
  · exact fun _ _ _ hsound hs => hsound.step hs
  · exact fun _ _ _ hsound ha hs => CallsRun.affine_step_iff hsound ha hs
  · exact CallsRun.sound_start config
  · intro k x hx
    cases hx
  · exact h

theorem recv_affine_alone :
    Throughout CallsRun.step CallsRun.Affine (.start {} : CallsRun Nat)
      [.move (.acquire 0), .move (.create 0 true), .move (.countActive 0 0), .move (.countTotal 0 0),
        .release 0 0 true, .move (.acquire 0), .release 0 0 false] := by
  refine (recv_affine_iff {} [.move (.acquire 0), .move (.create 0 true), .move (.countActive 0 0),
    .move (.countTotal 0 0), .release 0 0 true, .move (.acquire 0), .release 0 0 false] _ rfl).mpr ?_
  refine (eachStep_cons rfl).mpr ⟨fun op x hk hop _ => ?_, (eachStep_cons rfl).mpr ⟨trivial, ?_⟩⟩
  · cases hk
    exact absurd rfl hop
  refine (eachStep_cons rfl).mpr ⟨trivial, (eachStep_cons rfl).mpr ⟨?_, ?_⟩⟩
  · exact (rfl : CallStage.acquiring .send = .acquiring .send)
  refine (eachStep_cons rfl).mpr ⟨trivial, (eachStep_cons rfl).mpr ⟨fun op x _ _ hx => ?_, ?_⟩⟩
  · cases hx
    rfl
  · exact (eachStep_cons rfl).mpr ⟨trivial, eachStep_nil⟩

/-- Two calls send at the same time; the first one then receives on the connection of the second,
which was released last. -/
theorem recv_on_other_connection :
    ∃ r, run CallsRun.step (.start {} : CallsRun Nat)
        [.move (.acquire 0), .move (.create 0 true), .move (.countActive 0 0), .move (.countTotal 0 0),
          .move (.acquire 1), .move (.create 1 true), .move (.countActive 1 1), .move (.countTotal 1 1),
          .release 0 0 true, .release 1 1 true, .move (.acquire 0)] = some r ∧
      r.sentOn 0 = some 0 ∧ r.recvs = [(0, 1)] ∧ ¬r.Affine := by
  refine ⟨_, rfl, rfl, rfl, fun ha => ?_⟩
  exact absurd (ha 0 1 List.mem_cons_self) (by decide)

end CoroRpc.Rpc

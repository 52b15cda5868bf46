import CoroRpc.Lib.Trace
import CoroRpc.Net.ConnectionPool
import Mathlib.Data.List.Nodup
import Mathlib.Data.List.Perm.Basic
import Mathlib.Logic.Function.Basic

namespace CoroRpc.Net

open Trace

variable {κ : Type}

-- A pool with its clients `κ` at the granularity of its critical sections. Connections are numbered in the
-- order of their creation and the back of `idle` comes first. A client is in `opening` once it has left the
-- lock to create a connection, in `made` once it has one, in `counted` once that is in `active`, and in `held`
-- from the return of `acquire` to its `release`. The counters are integers, so that a decrement at zero shows.
structure PoolRun (κ : Type) where
  config : ConnectionPoolConfig := {}
  idle : List Nat := []
  total : Int := 0
  active : Int := 0
  connected : Nat → Bool := fun _ => false
  created : Nat := 0
  closed : Nat := 0
  waiting : List κ := []
  opening : List κ := []
  made : List (κ × Nat) := []
  counted : List (κ × Nat) := []
  held : List (κ × Nat) := []

/-- `acquire` is the locked section, `wake` the end of a wait, after which the client acquires again; `create`,
`countActive` and `countTotal` are what a client does outside the lock. -/
inductive PoolEvent (κ : Type)
  | acquire (k : κ)
  | wake (k : κ)
  | create (k : κ) (opens : Bool)
  | countActive (k : κ) (x : Nat)
  | countTotal (k : κ) (x : Nat)
  | release (k : κ) (x : Nat)
  | die (x : Nat)

namespace PoolRun

def takeIdle (connected : Nat → Bool) : List Nat → Option Nat × List Nat × Nat
  | [] => (none, [], 0)
  | x :: idle =>
      if connected x then (some x, idle, 0)
      else
        let t := takeIdle connected idle
        (t.1, t.2.1, t.2.2 + 1)

variable [DecidableEq κ]

def acquire (r : PoolRun κ) (k : κ) : PoolRun κ :=
  let t := takeIdle r.connected r.idle
  let r := { r with idle := t.2.1, total := r.total - t.2.2, closed := r.closed + t.2.2 }
  match t.1 with
  | some x => { r with active := r.active + 1, held := (k, x) :: r.held }
  | none =>
      if r.total < r.config.maxConnections then { r with opening := k :: r.opening }
      else { r with waiting := k :: r.waiting }

def release (r : PoolRun κ) (k : κ) (x : Nat) : PoolRun κ :=
  let r := { r with active := r.active - 1, held := r.held.erase (k, x) }
  if r.connected x ∧ r.idle.length < r.config.maxIdle then { r with idle := x :: r.idle }
  else
    { r with
      connected := Function.update r.connected x false
      closed := r.closed + 1
      total := r.total - 1 }

def step (r : PoolRun κ) : PoolEvent κ → Option (PoolRun κ)
  | .acquire k => some (r.acquire k)
  | .wake k =>
      if k ∈ r.waiting ∧ (r.idle ≠ [] ∨ r.total < r.config.maxConnections) then
        some { r with waiting := r.waiting.erase k }
      else none
  | .create k opens =>
      if k ∈ r.opening then
        let r := { r with opening := r.opening.erase k }
        if opens then
          some
            { r with
              made := (k, r.created) :: r.made
              connected := Function.update r.connected r.created true
              created := r.created + 1 }
        else some r
      else none
  | .countActive k x =>
      if (k, x) ∈ r.made then
        some { r with made := r.made.erase (k, x), active := r.active + 1, counted := (k, x) :: r.counted }
      else none
  | .countTotal k x =>
      if (k, x) ∈ r.counted then
        some { r with counted := r.counted.erase (k, x), total := r.total + 1, held := (k, x) :: r.held }
      else none
  | .release k x => if (k, x) ∈ r.held then some (r.release k x) else none
  | .die x =>
      if x < r.created then some { r with connected := Function.update r.connected x false } else none

structure Accounted (r : PoolRun κ) : Prop where
  one_holder : ∀ k l x, (k, x) ∈ r.held → (l, x) ∈ r.held → k = l
  held_once : (r.held.map Prod.snd).Nodup
  not_idle : ∀ k x, (k, x) ∈ r.held → x ∉ r.idle
  idle_once : r.idle.Nodup
  idle_le : r.idle.length ≤ r.config.maxIdle
  active_nonneg : 0 ≤ r.active
  total_nonneg : 0 ≤ r.total
  settled : r.opening = [] → r.made = [] → r.counted = [] →
    r.total = r.active + r.idle.length ∧ r.active = r.held.length

def copies (r : PoolRun κ) (x : Nat) : Nat :=
  r.idle.count x + (r.made.map Prod.snd).count x + (r.counted.map Prod.snd).count x +
    (r.held.map Prod.snd).count x

structure Balanced (r : PoolRun κ) : Prop where
  once : ∀ x, r.copies x ≤ 1
  fresh : ∀ x, r.created ≤ x → r.copies x = 0
  idle_le : r.idle.length ≤ r.config.maxIdle
  active : r.active = r.held.length + r.counted.length
  total : r.total = r.held.length + r.idle.length
  circulating : (r.created : Int) - r.closed =
    r.idle.length + r.made.length + r.counted.length + r.held.length

omit [DecidableEq κ] in
theorem takeIdle_spec (connected : Nat → Bool) (idle : List Nat) :
    ∃ dead, (takeIdle connected idle).2.2 = dead.length ∧
      idle = dead ++ ((takeIdle connected idle).1.toList ++ (takeIdle connected idle).2.1) := by
  induction idle with
  | nil => exact ⟨[], rfl, rfl⟩
  | cons x idle ih =>
      by_cases hx : connected x
      · exact ⟨[], by simp [takeIdle, hx], by simp [takeIdle, hx]⟩
      · obtain ⟨dead, hd, hi⟩ := ih
        refine ⟨x :: dead, by simp [takeIdle, hx, hd], ?_⟩
        simp only [takeIdle, hx, if_false, Bool.false_eq_true, List.cons_append]
        rw [← hi]

omit [DecidableEq κ] in
theorem takeIdle_fst (connected : Nat → Bool) (idle : List Nat) :
    (takeIdle connected idle).1 = idle.find? connected := by
  induction idle with
  | nil => rfl
  | cons x idle ih =>
      by_cases hx : connected x
      · simp [takeIdle, hx]
      · simp only [takeIdle, hx, if_false, Bool.false_eq_true, List.find?_cons]
        exact ih

theorem count_erase {l : List (κ × Nat)} {k : κ} {x : Nat} (h : (k, x) ∈ l) (y : Nat) :
    (l.map Prod.snd).count y = ((l.erase (k, x)).map Prod.snd).count y + if x = y then 1 else 0 := by
  have hp := (List.perm_cons_erase h).map Prod.snd
  rw [hp.count_eq, List.map_cons, List.count_cons]
  simp

theorem length_erase {l : List (κ × Nat)} {k : κ} {x : Nat} (h : (k, x) ∈ l) :
    l.length = (l.erase (k, x)).length + 1 := (List.length_erase_add_one h).symm

omit [DecidableEq κ] in
theorem balanced_start (config : ConnectionPoolConfig) : Balanced ({ config } : PoolRun κ) := by
  constructor <;> simp [copies]

omit [DecidableEq κ] in
/-- Connections may be moved about and dropped, not doubled. -/
theorem Balanced.moved {r s : PoolRun κ} (h : r.Balanced) (hcreated : s.created = r.created)
    (hcopies : ∀ x, s.copies x ≤ r.copies x) (hidle : s.idle.length ≤ s.config.maxIdle)
    (hactive : s.active = s.held.length + s.counted.length) (htotal : s.total = s.held.length + s.idle.length)
    (hcirc : (s.created : Int) - s.closed =
      s.idle.length + s.made.length + s.counted.length + s.held.length) : s.Balanced where
  once x := (hcopies x).trans (h.once x)
  fresh x hx := Nat.le_zero.mp ((hcopies x).trans (h.fresh x (hcreated ▸ hx)).le)
  idle_le := hidle
  active := hactive
  total := htotal
  circulating := hcirc

inductive Moves (r : PoolRun κ) : PoolEvent κ → PoolRun κ → Prop
  | reuses (k : κ) (x : Nat) (rest : List Nat) (dropped : Nat)
      (ht : takeIdle r.connected r.idle = (some x, rest, dropped)) :
      Moves r (.acquire k)
        { r with
          idle := rest, total := r.total - dropped, closed := r.closed + dropped
          active := r.active + 1, held := (k, x) :: r.held }
  | opens (k : κ) (rest : List Nat) (dropped : Nat) (ht : takeIdle r.connected r.idle = (none, rest, dropped))
      (hlt : r.total - dropped < r.config.maxConnections) :
      Moves r (.acquire k)
        { r with
          idle := rest, total := r.total - dropped, closed := r.closed + dropped, opening := k :: r.opening }
  | waits (k : κ) (rest : List Nat) (dropped : Nat) (ht : takeIdle r.connected r.idle = (none, rest, dropped)) :
      Moves r (.acquire k)
        { r with
          idle := rest, total := r.total - dropped, closed := r.closed + dropped, waiting := k :: r.waiting }
  | wakes (k : κ) : Moves r (.wake k) { r with waiting := r.waiting.erase k }
  | creates (k : κ) (hk : k ∈ r.opening) :
      Moves r (.create k true)
        { r with
          opening := r.opening.erase k
          made := (k, r.created) :: r.made
          connected := Function.update r.connected r.created true
          created := r.created + 1 }
  | fails (k : κ) (hk : k ∈ r.opening) : Moves r (.create k false) { r with opening := r.opening.erase k }
  | countsActive (k : κ) (x : Nat) (hx : (k, x) ∈ r.made) :
      Moves r (.countActive k x)
        { r with made := r.made.erase (k, x), active := r.active + 1, counted := (k, x) :: r.counted }
  | countsTotal (k : κ) (x : Nat) (hx : (k, x) ∈ r.counted) :
      Moves r (.countTotal k x)
        { r with counted := r.counted.erase (k, x), total := r.total + 1, held := (k, x) :: r.held }
  | keeps (k : κ) (x : Nat) (hx : (k, x) ∈ r.held) (hroom : r.idle.length < r.config.maxIdle) :
      Moves r (.release k x)
        { r with active := r.active - 1, held := r.held.erase (k, x), idle := x :: r.idle }
  | closes (k : κ) (x : Nat) (hx : (k, x) ∈ r.held) :
      Moves r (.release k x)
        { r with
          active := r.active - 1, held := r.held.erase (k, x)
          connected := Function.update r.connected x false, closed := r.closed + 1, total := r.total - 1 }
  | dies (x : Nat) : Moves r (.die x) { r with connected := Function.update r.connected x false }

theorem moves_acquire (r : PoolRun κ) (k : κ) : Moves r (.acquire k) (r.acquire k) := by
  rcases ht : takeIdle r.connected r.idle with ⟨taken, rest, dropped⟩
  simp only [acquire, ht]
  cases taken with
  | some x => exact .reuses k x rest dropped ht
  | none =>
      dsimp only
      split
      · rename_i hlt
        exact .opens k rest dropped ht hlt
      · exact .waits k rest dropped ht

theorem moves_release {r : PoolRun κ} {k : κ} {x : Nat} (hx : (k, x) ∈ r.held) :
    Moves r (.release k x) (r.release k x) := by
  simp only [release]
  split
  · rename_i hkeep
    exact .keeps k x hx hkeep.2
  · exact .closes k x hx

theorem step_moves {r s : PoolRun κ} {e : PoolEvent κ} (hs : r.step e = some s) : Moves r e s := by
  cases e with
  | acquire k =>
      cases hs
      exact moves_acquire r k
  | create k opens =>
      simp only [step] at hs
      split at hs
      · rename_i hk
        cases opens with
        | true =>
            cases hs
            exact .creates k hk
        | false =>
            cases hs
            exact .fails k hk
      · cases hs
  | wake k =>
      simp only [step] at hs
      split at hs
      · cases hs
        exact .wakes k
      · cases hs
  | countActive k x =>
      simp only [step] at hs
      split at hs
      · rename_i hx
        cases hs
        exact .countsActive k x hx
      · cases hs
  | countTotal k x =>
      simp only [step] at hs
      split at hs
      · rename_i hx
        cases hs
        exact .countsTotal k x hx
      · cases hs
  | release k x =>
      simp only [step] at hs
      split at hs
      · rename_i hx
        cases hs
        exact moves_release hx
      · cases hs
  | die x =>
      simp only [step] at hs
      split at hs
      · cases hs
        exact .dies x
      · cases hs

omit [DecidableEq κ] in
theorem takeIdle_counts {r : PoolRun κ} {taken : Option Nat} {rest : List Nat} {dropped : Nat}
    (ht : takeIdle r.connected r.idle = (taken, rest, dropped)) :
    r.idle.length = dropped + taken.toList.length + rest.length ∧
      ∀ y, taken.toList.count y + rest.count y ≤ r.idle.count y := by
  obtain ⟨dead, hd, hi⟩ := takeIdle_spec r.connected r.idle
  rw [ht] at hd hi
  refine ⟨?_, fun y => ?_⟩
  · rw [hi, List.length_append, List.length_append, ← hd, Nat.add_assoc]
  · rw [hi, List.count_append, List.count_append]
    exact Nat.le_add_left _ _

theorem Balanced.create {r : PoolRun κ} (h : r.Balanced) (k : κ) :
    Balanced
      { r with
        opening := r.opening.erase k
        made := (k, r.created) :: r.made
        connected := Function.update r.connected r.created true
        created := r.created + 1 } := by
  have hcir := h.circulating
  refine ⟨fun y => ?_, fun y hy => ?_, h.idle_le, h.active, h.total, ?_⟩
  · have honce := h.once y
    have hfresh := h.fresh y
    simp only [copies, List.map_cons, List.count_cons, beq_iff_eq] at honce hfresh ⊢
    split
    · have := hfresh (by omega)
      omega
    · omega
  · have hle : r.created + 1 ≤ y := hy
    have hfresh := h.fresh y (by omega)
    simp only [copies, List.map_cons, List.count_cons, beq_iff_eq] at hfresh ⊢
    rw [if_neg (by omega)]
    omega
  · simp only [List.length_cons]
    omega

theorem Balanced.step {r s : PoolRun κ} {e : PoolEvent κ} (h : r.Balanced) (hs : r.step e = some s) :
    s.Balanced := by
  have hle := h.idle_le
  have hact := h.active
  have htot := h.total
  have hcir := h.circulating
  cases step_moves hs with
  | reuses k x rest dropped ht =>
      obtain ⟨hlen, hcount⟩ := takeIdle_counts ht
      simp only [Option.toList_some, List.length_singleton] at hlen
      refine h.moved rfl (fun y => ?_) ?_ ?_ ?_ ?_
      · have hc := hcount y
        simp only [copies, Option.toList_some, List.map_cons, List.count_cons, List.count_nil] at hc ⊢
        omega
      all_goals
        simp only [List.length_cons]
        omega
  | opens k rest dropped ht | waits k rest dropped ht =>
      obtain ⟨hlen, hcount⟩ := takeIdle_counts ht
      simp only [Option.toList_none, List.length_nil] at hlen
      refine h.moved rfl (fun y => ?_) ?_ ?_ ?_ ?_
      · have hc := hcount y
        simp only [copies, Option.toList_none, List.count_nil] at hc ⊢
        omega
      all_goals
        dsimp only
        omega
  | creates k hk => exact h.create k
  | countsActive k x hx | countsTotal k x hx =>
      have hlen := length_erase hx
      refine h.moved rfl (fun y => ?_) hle ?_ ?_ ?_
      · have hc := count_erase hx y
        simp only [copies, List.map_cons, List.count_cons, beq_iff_eq]
        omega
      all_goals
        simp only [List.length_cons]
        omega
  | keeps k x hx hroom =>
      have hlen := length_erase hx
      refine h.moved rfl (fun y => ?_) hroom ?_ ?_ ?_
      · have hc := count_erase hx y
        simp only [copies, List.count_cons, beq_iff_eq]
        omega
      all_goals
        simp only [List.length_cons]
        omega
  | closes k x hx =>
      have hlen := length_erase hx
      refine h.moved rfl (fun y => ?_) hle ?_ ?_ ?_
      · have hc := count_erase hx y
        simp only [copies]
        omega
      all_goals
        dsimp only
        omega
  | wakes k | fails k hk | dies x => exact ⟨h.once, h.fresh, hle, hact, htot, hcir⟩

def uncounted (r : PoolRun κ) (x : Nat) : Nat := (r.made.map Prod.snd).count x + (r.counted.map Prod.snd).count x

omit [DecidableEq κ] in
theorem Balanced.held_counted {r : PoolRun κ} (h : r.Balanced) {k : κ} {x : Nat} (hx : (k, x) ∈ r.held) :
    x < r.created ∧ r.uncounted x = 0 := by
  have hin : 0 < (r.held.map Prod.snd).count x := List.count_pos_iff.mpr (List.mem_map_of_mem hx)
  have honce := h.once x
  have hfresh := h.fresh x
  simp only [copies] at honce hfresh
  constructor
  · by_contra hle
    have := hfresh (Nat.not_lt.mp hle)
    omega
  · rw [uncounted]
    omega

theorem uncounted_step {r s : PoolRun κ} {e : PoolEvent κ} (hs : r.step e = some s) {x : Nat}
    (hlt : x < r.created) (hx : r.uncounted x = 0) : x < s.created ∧ s.uncounted x = 0 := by
  simp only [uncounted] at hx ⊢
  cases step_moves hs with
  | creates k hk =>
      refine ⟨Nat.lt_succ_of_lt hlt, ?_⟩
      simp only [List.map_cons, List.count_cons, beq_iff_eq]
      rw [if_neg (by omega)]
      exact hx
  | countsActive k y hy | countsTotal k y hy =>
      have hc := count_erase hy x
      refine ⟨hlt, ?_⟩
      simp only [List.map_cons, List.count_cons, beq_iff_eq]
      omega
  | reuses | opens | waits | wakes | fails | keeps | closes | dies => exact ⟨hlt, hx⟩

theorem run_balanced {config : ConnectionPoolConfig} {evs : List (PoolEvent κ)} {r : PoolRun κ}
    (h : run step { config } evs = some r) : r.Balanced :=
  run_inv (fun _ _ _ hb hs => Balanced.step hb hs) (balanced_start config) h

omit [DecidableEq κ] in
theorem Balanced.accounted {r : PoolRun κ} (h : r.Balanced) : r.Accounted := by
  have honce (x : Nat) := h.once x
  simp only [copies] at honce
  have hheld : (r.held.map Prod.snd).Nodup := List.nodup_iff_count_le_one.mpr fun x => by
    have := honce x
    omega
  have hact := h.active
  have htot := h.total
  refine ⟨fun k l x hk hl => ?_, hheld, fun k x hk hx => ?_, ?_, h.idle_le, by omega, by omega, ?_⟩
  · exact congrArg Prod.fst (List.inj_on_of_nodup_map hheld hk hl rfl)
  · have hidle := List.count_pos_iff.mpr hx
    have hin : 0 < (r.held.map Prod.snd).count x := List.count_pos_iff.mpr (List.mem_map_of_mem hk)
    have := honce x
    omega
  · refine List.nodup_iff_count_le_one.mpr fun x => ?_
    have := honce x
    omega
  · intro _ _ hcounted
    rw [hcounted] at hact
    simp only [List.length_nil] at hact
    omega

def inFlight (r : PoolRun κ) : Nat := r.opening.length + r.made.length + r.counted.length

def Within (r : PoolRun κ) : Prop :=
  r.total ≤ r.config.maxConnections ∧ (r.created : Int) - r.closed ≤ r.config.maxConnections

/-- An acquire passes the limit check only if there is room beside those in flight. -/
def Room (r : PoolRun κ) : PoolEvent κ → Prop
  | .acquire _ =>
      let t := takeIdle r.connected r.idle
      t.1 = none → r.total - t.2.2 < r.config.maxConnections →
        r.total - t.2.2 + r.inFlight < r.config.maxConnections
  | _ => True

structure Reserved (r : PoolRun κ) : Prop extends r.Balanced where
  reserved : r.total + r.inFlight ≤ r.config.maxConnections

omit [DecidableEq κ] in
theorem Reserved.within {r : PoolRun κ} (h : r.Reserved) : r.Within := by
  have hres := h.reserved
  have htot := h.total
  have hcir := h.circulating
  rw [inFlight] at hres
  constructor <;> omega

theorem Reserved.step {r s : PoolRun κ} {e : PoolEvent κ} (h : r.Reserved) (hroom : r.Room e)
    (hs : r.step e = some s) : s.Reserved := by
  refine ⟨h.toBalanced.step hs, ?_⟩
  have hres := h.reserved
  simp only [inFlight] at hres ⊢
  cases step_moves hs with
  | opens k rest dropped ht hlt =>
      simp only [Room, ht, inFlight, forall_const] at hroom
      have hfree := hroom hlt
      simp only [List.length_cons]
      omega
  | creates k hk | fails k hk =>
      have hlen := List.length_erase_add_one hk
      simp only [List.length_cons]
      omega
  | countsActive k x hx | countsTotal k x hx =>
      have hlen := length_erase hx
      simp only [List.length_cons]
      omega
  | reuses | waits | closes =>
      dsimp only
      omega
  | wakes | keeps | dies => exact hres

end PoolRun

/-- However acquires, releases and deaths of connections interleave, nothing is held twice or held
and idle, no counter goes below zero, and the counters agree with the lists once no acquire is
between its unlock and its counts. -/
theorem pool_accounted [DecidableEq κ] (config : ConnectionPoolConfig) (evs : List (PoolEvent κ)) (r : PoolRun κ)
    (h : run PoolRun.step { config } evs = some r) : r.Accounted := (PoolRun.run_balanced h).accounted

theorem pool_accounted_two_clients :
    ∃ r, run PoolRun.step ({} : PoolRun Nat)
        [.acquire 0, .acquire 1, .create 1 true, .countActive 1 0, .create 0 true, .countTotal 1 0,
          .countActive 0 1, .countTotal 0 1, .die 0, .release 1 0, .release 0 1, .acquire 1] = some r ∧
      r.held = [(1, 1)] ∧ r.Accounted :=
  ⟨_, rfl, rfl, pool_accounted {} [.acquire 0, .acquire 1, .create 1 true, .countActive 1 0, .create 0 true,
    .countTotal 1 0, .countActive 0 1, .countTotal 0 1, .die 0, .release 1 0, .release 0 1, .acquire 1] _ rfl⟩

/-- A run in which no acquire passes the limit check without room beside those that have passed it
and are not counted yet stays within the limit throughout. -/
theorem pool_capacity [DecidableEq κ] (config : ConnectionPoolConfig) (evs : List (PoolEvent κ))
    (hroom : EachStep PoolRun.step PoolRun.Room { config } evs) :
    Throughout PoolRun.step PoolRun.Within { config } evs := by
  have hstart : PoolRun.Reserved ({ config } : PoolRun κ) :=
    ⟨PoolRun.balanced_start config, by simp [PoolRun.inFlight]⟩
  intro fs t hfs ht
  exact (throughout_of_eachStep (fun _ _ _ h hC hs => PoolRun.Reserved.step h hC hs) hstart hroom fs t hfs ht).within

theorem pool_capacity_in_turn :
    Throughout PoolRun.step PoolRun.Within ({ config := { maxConnections := 1 } } : PoolRun Nat)
      [.acquire 0, .create 0 true, .countActive 0 0, .countTotal 0 0, .acquire 1] := by
  refine pool_capacity { maxConnections := 1 } _ ?_
  refine (eachStep_cons rfl).mpr ⟨fun _ _ => by decide, (eachStep_cons rfl).mpr ⟨trivial, ?_⟩⟩
  refine (eachStep_cons rfl).mpr ⟨trivial, (eachStep_cons rfl).mpr ⟨trivial, ?_⟩⟩
  refine (eachStep_cons rfl).mpr ⟨fun _ hlt => absurd hlt (by decide), eachStep_nil⟩

/-- Two clients pass the check of a pool for one connection before either is counted. -/
theorem pool_over_capacity :
    ∃ r, run PoolRun.step ({ config := { maxConnections := 1 } } : PoolRun Nat)
        [.acquire 0, .acquire 1, .create 0 true, .create 1 true, .countActive 0 0, .countTotal 0 0,
          .countActive 1 1, .countTotal 1 1] = some r ∧
      r.total = 2 ∧ (r.created : Int) - r.closed = 2 ∧ ¬r.Within := by
  refine ⟨_, rfl, by decide, by decide, fun h => ?_⟩
  exact absurd h.1 (by decide)

end CoroRpc.Net

import CoroRpc.Io.Dispatch
import CoroRpc.Lib.Turns

namespace CoroRpc.Io

open Turns

namespace PoolDispatch

variable {n : Nat} [NeZero n]

def counting (p : PoolDispatch n) (c : Nat) : PoolDispatch n := { p with nextWorker := p.nextWorker + .ofNat c }

theorem selectWorkerRoundRobin_counting (p : PoolDispatch n) (c : Nat) :
    (p.counting c).selectWorkerRoundRobin =
      (Fin.ofNat n ((p.nextWorker.toNat + c) % 2 ^ 32), p.counting (c + 1)) := by
  rw [selectWorkerRoundRobin, counting, UInt32.toNat_add, UInt32.toNat_ofNat', Nat.add_mod_mod, counting,
    UInt32.ofNat_add, ← UInt32.add_assoc]
  rfl

omit [NeZero n] in
theorem counting_zero (p : PoolDispatch n) : p.counting 0 = p := by
  obtain ⟨nextWorker, workers⟩ := p
  exact congrArg (PoolDispatch.mk · workers) (UInt32.add_zero nextWorker)

theorem window_selectWorkerRoundRobin (p : PoolDispatch n) (k : Nat) :
    (window selectWorkerRoundRobin k n p).map Fin.val =
      (List.range n).map fun j => (p.nextWorker.toNat + k + j) % 2 ^ 32 % n := by
  have hwindow := window_eq p.selectWorkerRoundRobin_counting k n
  rw [counting_zero] at hwindow
  rw [hwindow, List.map_map]
  apply List.map_congr_left
  intro j _
  show (p.nextWorker.toNat + (k + j)) % 2 ^ 32 % n = _
  rw [Nat.add_assoc]

/-- The `n` calls behind the first `k` choose each worker once. -/
def FairTurn (p : PoolDispatch n) (k : Nat) : Prop :=
  (window selectWorkerRoundRobin k n p).Perm (List.finRange n)

theorem fairTurn_iff (p : PoolDispatch n) (hn : n < 2 ^ 32) (k : Nat) :
    p.FairTurn k ↔ (p.nextWorker.toNat + k) % 2 ^ 32 + n ≤ 2 ^ 32 ∨ n ∣ 2 ^ 32 := by
  have hpos : 0 < n := Nat.pos_of_ne_zero (NeZero.ne n)
  rw [← perm_mod_mod_iff hpos (Nat.le_of_lt hn), ← window_selectWorkerRoundRobin p k,
    ← List.map_coe_finRange_eq_range]
  exact (List.map_perm_map_iff Fin.val_injective).symm

end PoolDispatch

/-- The workers of a pool come in turns for ever exactly when their number divides `2 ^ 32`, and in one
window of the calls also where the counter does not start again within it. -/
theorem worker_turns_iff {n : Nat} [NeZero n] (hn : n < 2 ^ 32) (p : PoolDispatch n) :
    (∀ k, p.FairTurn k ↔ (p.nextWorker.toNat + k) % 2 ^ 32 + n ≤ 2 ^ 32 ∨ n ∣ 2 ^ 32) ∧
      ((∀ k, p.FairTurn k) ↔ n ∣ 2 ^ 32) := by
  refine ⟨p.fairTurn_iff hn, fun h => ?_, fun h k => (p.fairTurn_iff hn k).mpr (.inr h)⟩
  by_contra hdvd
  -- The last value of the counter comes, and with one worker it would divide.
  have hlt := p.nextWorker.toNat_lt
  have hlast := ((p.fairTurn_iff hn (2 ^ 32 - 1 - p.nextWorker.toNat)).mp (h _)).resolve_right hdvd
  have hsum : p.nextWorker.toNat + (2 ^ 32 - 1 - p.nextWorker.toNat) = 2 ^ 32 - 1 := by omega
  rw [hsum, Nat.mod_eq_of_lt (by omega)] at hlast
  have hone : n = 1 := by
    have := NeZero.ne n
    omega
  exact hdvd (hone ▸ Nat.one_dvd _)

theorem worker_turns_of_two : 2 ∣ 2 ^ 32 ∧ ∀ k, ({} : PoolDispatch 2).FairTurn k := by
  have hdvd : 2 ∣ 2 ^ 32 := by decide
  exact ⟨hdvd, (worker_turns_iff (by decide) {}).2.mpr hdvd⟩

/-- With three workers the first is chosen twice in a row where the counter starts again. -/
theorem worker_turns_of_three : ¬∀ k, ({} : PoolDispatch 3).FairTurn k := by
  intro h
  have hturn := h (2 ^ 32 - 1)
  have hval := hturn.map Fin.val
  rw [PoolDispatch.window_selectWorkerRoundRobin] at hval
  exact absurd (hval.nodup_iff.mpr (by decide)) (by decide)

end CoroRpc.Io

import Mathlib.Algebra.BigOperators.Group.Finset.Basic
import Mathlib.Data.Fintype.BigOperators

namespace CoroRpc.Shares

open Finset Function

variable {ι α M : Type} [Fintype ι] [DecidableEq ι] [AddCommMonoid M]

def total (share : α → M) (place : ι → α) : M := ∑ i, share (place i)

theorem total_update (share : α → M) (place : ι → α) (i : ι) (a : α) :
    total share (update place i a) = share a + ∑ j ∈ univ.erase i, share (place j) := by
  rw [total, ← add_sum_erase univ _ (mem_univ i), update_self]
  congr 1
  apply sum_congr rfl
  intro j hj
  rw [update_of_ne (ne_of_mem_erase hj)]

theorem total_split (share : α → M) (place : ι → α) (i : ι) :
    total share place = share (place i) + ∑ j ∈ univ.erase i, share (place j) := by
  rw [← total_update, update_eq_self]

theorem total_gain {share : α → M} {place : ι → α} {i : ι} {a : α} {x : M} (h : share a = share (place i) + x) :
    total share (update place i a) = total share place + x := by
  rw [total_update, total_split share place i, h, add_right_comm]

theorem total_loss {share : α → M} {place : ι → α} {i : ι} {a : α} {x : M} (h : share (place i) = share a + x) :
    total share place = total share (update place i a) + x := by
  rw [total_update, total_split share place i, h, add_right_comm]

theorem total_keep {share : α → M} {place : ι → α} {i : ι} {a : α} (h : share a = share (place i)) :
    total share (update place i a) = total share place := by
  rw [total_update, total_split share place i, h]

omit [DecidableEq ι] in
theorem total_zero {share : α → M} {a : α} (h : share a = 0) : total share (fun _ : ι => a) = 0 := by
  rw [total, sum_congr rfl fun _ _ => h, sum_const_zero]

end CoroRpc.Shares

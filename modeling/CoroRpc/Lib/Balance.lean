import Mathlib.Logic.Function.Basic
import Mathlib.Order.Basic
import Mathlib.Order.Lattice

namespace CoroRpc.Balance

variable {ι α : Type}

def Least [LE α] (load : ι → α) (i : ι) : Prop := ∀ j, load i ≤ load j

def Balanced (load : ι → Nat) : Prop := ∀ i j, load i ≤ load j + 1

/-- The loop that keeps the first place of the least load it has seen. -/
theorem foldl_least [LinearOrder α] (load : ι → α) (places : List ι) (best : ι) :
    load (places.foldl (fun best i => if load i < load best then i else best) best) ≤ load best ∧
      ∀ i ∈ places, load (places.foldl (fun best i => if load i < load best then i else best) best) ≤ load i := by
  induction places generalizing best with
  | nil => exact ⟨le_rfl, fun _ => nofun⟩
  | cons p places ih =>
      obtain ⟨hstart, hrest⟩ := ih (if load p < load best then p else best)
      have hp : load (if load p < load best then p else best) ≤ load p ∧
          load (if load p < load best then p else best) ≤ load best := by
        split
        · next hlt => exact ⟨le_rfl, hlt.le⟩
        · next hle => exact ⟨not_lt.mp hle, le_rfl⟩
      refine ⟨hstart.trans hp.2, List.forall_mem_cons.mpr ⟨hstart.trans hp.1, hrest⟩⟩

variable [DecidableEq ι]

theorem Balanced.add {load : ι → Nat} {i : ι} (h : Balanced load) (hi : Least load i) :
    Balanced (Function.update load i (load i + 1)) := by
  intro a b
  by_cases ha : a = i
  · subst ha
    rw [Function.update_self]
    by_cases hb : b = a
    · subst hb
      rw [Function.update_self]
      exact Nat.le_succ _
    · rw [Function.update_of_ne hb]
      exact Nat.succ_le_succ (hi b)
  · rw [Function.update_of_ne ha]
    by_cases hb : b = i
    · subst hb
      rw [Function.update_self]
      exact Nat.le_succ_of_le (h a b)
    · rw [Function.update_of_ne hb]
      exact h a b

end CoroRpc.Balance

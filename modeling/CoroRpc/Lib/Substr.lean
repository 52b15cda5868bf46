import CoroRpc.Lib.Scan
import Mathlib.Algebra.Group.Nat.Defs

namespace CoroRpc.Scan

variable {α : Type}

/-- What goes wrong with a string: `substr` from beyond its end throws, an access outside of it is not defined,
and a loop may not end. -/
inductive Fault
  | outOfRange
  | badAccess
  | unfinished
  deriving DecidableEq

/-- Strings are at most half as long as the addresses allow. -/
def Short (s : List α) : Prop := s.length < 2 ^ 63

def npos : UInt64 := 0 - 1

def index : Option Nat → UInt64
  | none => npos
  | some i => UInt64.ofNat i

def substr (s : List α) (pos count : UInt64) : Except Fault (List α) :=
  if s.length < pos.toNat then .error .outOfRange else .ok ((s.drop pos.toNat).take count.toNat)

def charAt (s : List α) (pos : UInt64) : Except Fault α :=
  match s[pos.toNat]? with
  | none => .error .badAccess
  | some c => .ok c

def back (s : List α) : Except Fault α :=
  match s.getLast? with
  | none => .error .badAccess
  | some c => .ok c

def popBack (s : List α) : Except Fault (List α) := if s = [] then .error .badAccess else .ok s.dropLast

def findFirstNotOf (p : α → Bool) (s : List α) : Option Nat := s.findIdx? fun c => !p c

def findLastNotOf (p : α → Bool) (s : List α) : Option Nat :=
  (s.reverse.findIdx? fun c => !p c).map fun i => s.length - (i + 1)

def findText [DecidableEq α] (text : List α) : List α → Option Nat
  | [] => if text = [] then some 0 else none
  | c :: s => if text.isPrefixOf (c :: s) then some 0 else (findText text s).map (· + 1)

section Index

theorem Short.mono {s t : List α} (h : Short s) (hle : t.length ≤ s.length) : Short t := Nat.lt_of_le_of_lt hle h

theorem toNat_npos : npos.toNat = 2 ^ 64 - 1 := rfl

theorem toNat_index {i : Nat} (h : i < 2 ^ 63) : (index (some i)).toNat = i := by
  have hi : i < 2 ^ 64 := by omega
  exact UInt64.toNat_ofNat_of_lt' hi

theorem index_ne_npos {i : Nat} (h : i < 2 ^ 63) : index (some i) ≠ npos := by
  intro heq
  have hnat := congrArg UInt64.toNat heq
  rw [toNat_index h, toNat_npos] at hnat
  omega

theorem index_add (i n : Nat) : index (some i) + UInt64.ofNat n = index (some (i + n)) :=
  (UInt64.ofNat_add i n).symm

theorem toNat_index_sub {i j : Nat} (hij : i ≤ j) (hj : j < 2 ^ 63) :
    (index (some j) - index (some i)).toNat = j - i := by
  have hi : i < 2 ^ 63 := Nat.lt_of_le_of_lt hij hj
  have hle : index (some i) ≤ index (some j) := by
    rw [UInt64.le_iff_toNat_le, toNat_index hi, toNat_index hj]
    exact hij
  rw [UInt64.toNat_sub_of_le _ _ hle, toNat_index hi, toNat_index hj]

/-- A difference that wraps around is larger than any string. -/
theorem toNat_index_wrap {i j : Nat} (hij : j ≤ i) (hi : i < 2 ^ 63) :
    2 ^ 63 ≤ (index (some j) - index (some i) - 1).toNat := by
  have hj : j < 2 ^ 63 := Nat.lt_of_le_of_lt hij hi
  have hone : (1 : UInt64).toNat = 1 := rfl
  rw [UInt64.toNat_sub, UInt64.toNat_sub, toNat_index hi, toNat_index hj, hone]
  omega

variable {s : List α} (hs : Short s)
include hs

theorem substr_index {i : Nat} (hi : i ≤ s.length) (count : UInt64) :
    substr s (index (some i)) count = .ok ((s.drop i).take count.toNat) := by
  rw [substr, toNat_index (Nat.lt_of_le_of_lt hi hs), if_neg (Nat.not_lt.mpr hi)]

/-- A count that is larger than any string takes the rest. -/
theorem substr_rest {i : Nat} (hi : i ≤ s.length) {count : UInt64} (hcount : 2 ^ 63 ≤ count.toNat) :
    substr s (index (some i)) count = .ok (s.drop i) := by
  rw [substr_index hs hi, List.take_of_length_le]
  have hlt : s.length < 2 ^ 63 := hs
  rw [List.length_drop]
  omega

end Index

section Results

variable {β : Type}

@[simp] theorem ok_bind (a : α) (f : α → Except Fault β) : (Except.ok a >>= f) = f a := rfl

@[simp] theorem pure_ok (a : α) : (pure a : Except Fault α) = .ok a := rfl

end Results

section Searches

theorem findIdx?_lt {p : α → Bool} {s : List α} {i : Nat} (h : s.findIdx? p = some i) : i < s.length :=
  (List.findIdx?_eq_some_iff_findIdx_eq.mp h).1

theorem find_lt [DecidableEq α] {c : α} {s : List α} {i : Nat} (h : find c s = some i) : i < s.length := by
  obtain ⟨hi, -⟩ := List.idxOf?_eq_some_iff.mp h
  exact hi

theorem findLast_lt [DecidableEq α] {c : α} {s : List α} {i : Nat} (h : findLast c s = some i) :
    i < s.length := by
  obtain ⟨j, hj, rfl⟩ := Option.map_eq_some_iff.mp h
  have hlt := find_lt hj
  rw [List.length_reverse] at hlt
  omega

theorem find_prefix [DecidableEq α] {c : α} {pre s : List α} {i : Nat} (hpre : pre <+: s) (hc : c ∉ pre)
    (h : find c s = some i) : pre.length ≤ i := by
  obtain ⟨t, rfl⟩ := hpre
  obtain ⟨hi, hget, -⟩ := List.idxOf?_eq_some_iff.mp h
  by_contra hlt
  rw [List.getElem_append_left (Nat.not_le.mp hlt)] at hget
  exact hc (hget ▸ List.getElem_mem _)

theorem findText_prefix [DecidableEq α] {text s : List α} (h : text <+: s) : findText text s = some 0 := by
  cases s with
  | nil => rw [findText, if_pos (List.prefix_nil.mp h)]
  | cons c s => rw [findText, if_pos (List.isPrefixOf_iff_prefix.mpr h)]

/-- Both searches fail together, and then nothing is left of the string. -/
theorem trim_of_findFirst_none {p : α → Bool} {s : List α} (h : findFirstNotOf p s = none) : trim p s = [] := by
  rw [findFirstNotOf, List.findIdx?_eq_none_iff] at h
  have hall : ∀ c ∈ s, p c := fun c hc => by simpa using h c hc
  rw [trim, List.dropWhile_eq_nil_iff.mpr hall, List.rdropWhile_nil]

theorem findLast_of_findFirst {p : α → Bool} {s : List α} {i : Nat} (h : findFirstNotOf p s = some i) :
    ∃ j, findLastNotOf p s = some j ∧ i ≤ j ∧ j < s.length ∧ trim p s = (s.drop i).take (j - i + 1) := by
  obtain ⟨hi, hnot, -⟩ := List.findIdx?_eq_some_iff_getElem.mp h
  have hmem : s[i] ∈ s.reverse := List.mem_reverse.mpr (List.getElem_mem hi)
  obtain ⟨k, hk⟩ : ∃ k, (s.reverse.findIdx? fun c => !p c) = some k := by
    apply Option.ne_none_iff_exists'.mp
    intro hnone
    rw [List.findIdx?_eq_none_iff] at hnone
    exact absurd hnot (by simpa using hnone _ hmem)
  have hidx := (List.findIdx?_eq_some_iff_findIdx_eq.mp hk).2
  have hklt := findIdx?_lt hk
  rw [List.length_reverse] at hklt
  have hle : k ≤ s.length - 1 - i := by
    -- the item at `i` is met from the end as well
    by_contra hgt
    have hbefore := List.not_of_lt_findIdx (hidx ▸ Nat.not_le.mp hgt)
    rw [List.getElem_reverse] at hbefore
    have hsame : s.length - 1 - (s.length - 1 - i) = i := by omega
    simp only [hsame] at hbefore
    exact absurd hnot (by simpa using hbefore)
  refine ⟨s.length - (k + 1), ?_, by omega, by omega, ?_⟩
  · rw [findLastNotOf, hk, Option.map_some]
  · have hdrop : s.dropWhile p = s.drop i := by
      rw [List.dropWhile_eq_drop_findIdx_not, (List.findIdx?_eq_some_iff_findIdx_eq.mp h).2]
    have hrest : ((s.drop i).reverse.findIdx fun c => !p c) = k := by
      rw [List.reverse_drop, List.findIdx_take, hidx]
      omega
    rw [trim, hdrop, List.rdropWhile, List.dropWhile_eq_drop_findIdx_not, hrest, List.reverse_drop,
      List.reverse_reverse, List.length_reverse, List.length_drop]
    congr 1
    omega

theorem length_getlines_le [DecidableEq α] {delim : α} {s line : List α} (h : line ∈ getlines delim s) :
    line.length ≤ s.length := by
  induction s generalizing line with
  | nil => simp [getlines] at h
  | cons c s ih =>
      rw [getlines] at h
      rw [List.length_cons]
      split at h
      · rcases List.mem_cons.mp h with rfl | h
        · exact Nat.zero_le _
        · exact (ih h).trans (Nat.le_succ _)
      · split at h
        · rw [List.mem_singleton.mp h]
          exact Nat.succ_le_succ (Nat.zero_le _)
        · next first lines heq =>
            rcases List.mem_cons.mp h with rfl | h
            · exact Nat.succ_le_succ (ih (heq ▸ List.mem_cons_self))
            · exact (ih (heq ▸ List.mem_cons_of_mem _ h)).trans (Nat.le_succ _)

theorem length_trim_le (p : α → Bool) (s : List α) : (trim p s).length ≤ s.length :=
  (List.IsPrefix.length_le (List.rdropWhile_prefix p _)).trans (List.dropWhile_suffix p).length_le

end Searches

end CoroRpc.Scan

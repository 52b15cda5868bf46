import Mathlib.Data.List.Basic
import Mathlib.Logic.Function.Basic
import Mathlib.Order.Nat

/-! Awaits whose awaiters are temporaries: each stands in its place as long as its coroutine waits, and the
place is used again. -/

namespace CoroRpc.Awaiting

variable {β δ : Type}

structure Await (δ : Type) where
  coroutine : Nat
  place : Nat
  data : δ
  waiting : Bool := true

structure Coroutines (β δ : Type) where
  memory : Nat → β
  awaits : List (Await δ) := []
  strays : Nat := 0

namespace Coroutines

def start (s : Coroutines β δ) (coroutine place : Nat) (b : β) (data : δ) : Option (Coroutines β δ) :=
  if ∀ a ∈ s.awaits, a.waiting = true → a.coroutine ≠ coroutine ∧ a.place ≠ place then
    some
      { s with
        memory := Function.update s.memory place b
        awaits := s.awaits ++ [{ coroutine, place, data }] }
  else none

def reuse (s : Coroutines β δ) (place : Nat) (b : β) : Option (Coroutines β δ) :=
  if ∀ a ∈ s.awaits, a.waiting = true → a.place ≠ place then
    some { s with memory := Function.update s.memory place b }
  else none

def write (s : Coroutines β δ) (place : Nat) (b : β) : Coroutines β δ :=
  { s with memory := Function.update s.memory place b }

def put (s : Coroutines β δ) (k : Nat) (a : Await δ) : Coroutines β δ := { s with awaits := s.awaits.set k a }

def wake (s : Coroutines β δ) (f : β → δ → δ) (a : Await δ) : Await δ :=
  { a with waiting := false, data := f (s.memory a.place) a.data }

def resume (s : Coroutines β δ) (coroutine : Nat) (f : β → δ → δ) : Coroutines β δ :=
  match s.awaits.findIdx? fun a => a.waiting && a.coroutine = coroutine with
  | some k => { s with awaits := s.awaits.modify k (s.wake f) }
  | none => { s with strays := s.strays + 1 }

def Holding (Q : δ → β → Prop) (s : Coroutines β δ) : Prop :=
  ∀ a ∈ s.awaits, a.waiting = true → Q a.data (s.memory a.place)

def Apart (s : Coroutines β δ) : Prop :=
  ∀ (j k : Nat) (a b : Await δ), j ≠ k → s.awaits[j]? = some a → s.awaits[k]? = some b →
    a.waiting = true → b.waiting = true →
    a.coroutine ≠ b.coroutine ∧ a.place ≠ b.place

variable {s t : Coroutines β δ} {k : Nat} {a d : Await δ} {f : β → δ → δ}

theorem put_put (s : Coroutines β δ) (k : Nat) (a d : Await δ) : (s.put k a).put k d = s.put k d := by
  rw [put, put, List.set_set]
  rfl

theorem getElem?_put (h : s.awaits[k]? = some a) (j : Nat) :
    (s.put k d).awaits[j]? = if j = k then some d else s.awaits[j]? := by
  rw [put, List.getElem?_set]
  by_cases hj : j = k
  · subst hj
    rw [if_pos rfl, if_pos rfl, if_pos (List.getElem?_eq_some_iff.mp h).1]
  · rw [if_neg (Ne.symm hj), if_neg hj]

theorem getElem?_start {coroutine place : Nat} {b : β} {data : δ} (h : s.start coroutine place b data = some t)
    (j : Nat) : t.awaits[j]? = some a ↔
      s.awaits[j]? = some a ∨ j = s.awaits.length ∧ a = { coroutine, place, data } := by
  simp only [start, Option.ite_none_right_eq_some, Option.some.injEq] at h
  obtain ⟨-, rfl⟩ := h
  rcases Nat.lt_trichotomy j s.awaits.length with hlt | rfl | hgt
  · rw [List.getElem?_append_left hlt]
    exact (or_iff_left fun h => absurd h.1 hlt.ne).symm
  · rw [List.getElem?_concat_length, List.getElem?_eq_none le_rfl, Option.some_inj]
    simp [eq_comm]
  · rw [List.getElem?_eq_none (by simpa using Nat.succ_le_of_lt hgt), List.getElem?_eq_none hgt.le]
    simp [hgt.ne']

theorem mem_start {coroutine place : Nat} {b : β} {data : δ} (h : s.start coroutine place b data = some t) :
    a ∈ t.awaits ↔ a ∈ s.awaits ∨ a = { coroutine, place, data } := by
  simp only [start, Option.ite_none_right_eq_some, Option.some.injEq] at h
  obtain ⟨-, rfl⟩ := h
  rw [List.mem_append, List.mem_singleton]

theorem strays_start {coroutine place : Nat} {b : β} {data : δ} (h : s.start coroutine place b data = some t) :
    t.strays = s.strays := by
  simp only [start, Option.ite_none_right_eq_some, Option.some.injEq] at h
  obtain ⟨-, rfl⟩ := h
  rfl

theorem awaits_reuse {place : Nat} {b : β} (h : s.reuse place b = some t) :
    t.awaits = s.awaits ∧ t.strays = s.strays := by
  simp only [reuse, Option.ite_none_right_eq_some, Option.some.injEq] at h
  obtain ⟨-, rfl⟩ := h
  exact ⟨rfl, rfl⟩

theorem mem_put {b : Await δ} (h : b ∈ (s.put k d).awaits) : b = d ∨ ∃ j, j ≠ k ∧ s.awaits[j]? = some b := by
  obtain ⟨j, hj⟩ := List.mem_iff_getElem?.mp h
  rw [put, List.getElem?_set] at hj
  split at hj
  · split at hj
    · exact .inl (Option.some.inj hj).symm
    · cases hj
  · next hne => exact .inr ⟨j, Ne.symm hne, hj⟩

theorem forall_put {P : Await δ → Prop} (h : ∀ b ∈ s.awaits, P b) (ha : P d) : ∀ b ∈ (s.put k d).awaits, P b := by
  intro b hb
  rcases mem_put hb with rfl | ⟨j, -, hj⟩
  · exact ha
  · exact h b (List.mem_of_getElem? hj)

theorem mem_put_self (h : s.awaits[k]? = some a) : d ∈ (s.put k d).awaits :=
  List.mem_of_getElem? ((getElem?_put h k).trans (if_pos rfl))

theorem forall_put_iff {P : Await δ → Prop} (hk : s.awaits[k]? = some a) (h : ∀ b ∈ s.awaits, P b) :
    (∀ b ∈ (s.put k d).awaits, P b) ↔ P d :=
  ⟨fun hput => hput d (mem_put_self hk), forall_put h⟩

theorem Apart.of_awaits (h : s.Apart) (hawaits : t.awaits = s.awaits) : t.Apart := by
  rw [Apart, hawaits]
  exact h

theorem Apart.start {coroutine place : Nat} {b : β} {data : δ} (h : s.Apart)
    (hs : s.start coroutine place b data = some t) : t.Apart := by
  have hfree := hs
  simp only [Coroutines.start, Option.ite_none_right_eq_some] at hfree
  obtain ⟨hfree, -⟩ := hfree
  intro j k a b' hjk ha ha' hw hw'
  rcases (getElem?_start hs j).mp ha with ha | ⟨rfl, rfl⟩
  · rcases (getElem?_start hs k).mp ha' with ha' | ⟨rfl, rfl⟩
    · exact h j k a b' hjk ha ha' hw hw'
    · exact hfree a (List.mem_of_getElem? ha) hw
  · rcases (getElem?_start hs k).mp ha' with ha' | ⟨rfl, -⟩
    · obtain ⟨hcoroutine, hplace⟩ := hfree b' (List.mem_of_getElem? ha') hw'
      exact ⟨hcoroutine.symm, hplace.symm⟩
    · exact absurd rfl hjk

theorem Apart.put (h : s.Apart) (hk : s.awaits[k]? = some a) (hcoroutine : d.coroutine = a.coroutine)
    (hplace : d.place = a.place) (hwaiting : d.waiting = true → a.waiting = true) : (s.put k d).Apart := by
  have hold : ∀ (j : Nat) (b : Await δ), (s.put k d).awaits[j]? = some b → b.waiting = true →
      ∃ c, s.awaits[j]? = some c ∧ c.waiting = true ∧ b.coroutine = c.coroutine ∧ b.place = c.place := by
    intro j b hb hw
    rw [getElem?_put hk] at hb
    split at hb
    · next hj =>
        cases hb
        exact ⟨a, hj ▸ hk, hwaiting hw, hcoroutine, hplace⟩
    · exact ⟨b, hb, hw, rfl, rfl⟩
  intro i j b c hij hb hc hwb hwc
  obtain ⟨b', hb', hwb', hcb, hpb⟩ := hold i b hb hwb
  obtain ⟨c', hc', hwc', hcc, hpc⟩ := hold j c hc hwc
  rw [hcb, hpb, hcc, hpc]
  exact h i j b' c' hij hb' hc' hwb' hwc'

/-- A coroutine that waits is resumed there. -/
theorem Apart.resume (h : s.Apart) (hk : s.awaits[k]? = some a) (hw : a.waiting = true) (f : β → δ → δ) :
    s.resume a.coroutine f = s.put k (s.wake f a) := by
  have hlt := (List.getElem?_eq_some_iff.mp hk).1
  have hget : s.awaits[k] = a := (List.getElem?_eq_some_iff.mp hk).2
  have hfind : (s.awaits.findIdx? fun b => b.waiting && b.coroutine = a.coroutine) = some k := by
    rw [List.findIdx?_eq_some_iff_getElem]
    refine ⟨hlt, by simp [hget, hw], fun j hj hp => ?_⟩
    have hjlt := hj.trans hlt
    simp only [Bool.and_eq_true, decide_eq_true_eq] at hp
    exact (h j k _ a hj.ne (List.getElem?_eq_getElem hjlt) hk hp.1 hw).1 hp.2
  rw [Coroutines.resume, hfind]
  show ({ s with awaits := s.awaits.modify k (s.wake f) } : Coroutines β δ) = _
  rw [List.modify_eq_set_getElem?, hk]
  rfl

section Holding

variable {Q : δ → β → Prop}

theorem Holding.start {coroutine place : Nat} {b : β} {data : δ} (h : s.Holding Q)
    (hs : s.start coroutine place b data = some t) (hQ : Q data b) : t.Holding Q := by
  simp only [Coroutines.start, Option.ite_none_right_eq_some, Option.some.injEq] at hs
  obtain ⟨hfree, rfl⟩ := hs
  intro a ha hw
  rcases List.mem_append.mp ha with ha | ha
  · show Q a.data (Function.update s.memory place b a.place)
    rw [Function.update_of_ne (hfree a ha hw).2]
    exact h a ha hw
  · rw [List.mem_singleton.mp ha]
    show Q data (Function.update s.memory place b place)
    rw [Function.update_self]
    exact hQ

theorem Holding.write {place : Nat} {b : β} (h : s.Holding Q)
    (hQ : ∀ a ∈ s.awaits, a.waiting = true → a.place = place → Q a.data b) : (s.write place b).Holding Q := by
  intro a ha hw
  show Q a.data (Function.update s.memory place b a.place)
  by_cases hp : a.place = place
  · rw [hp, Function.update_self]
    exact hQ a ha hw hp
  · rw [Function.update_of_ne hp]
    exact h a ha hw

theorem Holding.reuse {place : Nat} {b : β} (h : s.Holding Q) (hs : s.reuse place b = some t) : t.Holding Q := by
  simp only [Coroutines.reuse, Option.ite_none_right_eq_some, Option.some.injEq] at hs
  obtain ⟨hfree, rfl⟩ := hs
  exact h.write fun a ha hw hp => absurd hp (hfree a ha hw)

theorem Holding.put (h : s.Holding Q) (hQ : d.waiting = true → Q d.data (s.memory d.place)) :
    (s.put k d).Holding Q := forall_put h hQ

/-- What stands in the place of one that waits is only for that one. -/
theorem Holding.put_write {b : β} (h : s.Holding Q) (hapart : s.Apart) (hk : s.awaits[k]? = some a)
    (hw : a.waiting = true) (hplace : d.place = a.place) (hQ : d.waiting = true → Q d.data b) :
    ((s.write a.place b).put k d).Holding Q := by
  intro c hc hwc
  show Q c.data (Function.update s.memory a.place b c.place)
  rcases mem_put hc with rfl | ⟨j, hj, hjc⟩
  · rw [hplace, Function.update_self]
    exact hQ hwc
  · rw [Function.update_of_ne (hapart j k c a hj hjc hk hwc hw).2]
    exact h c (List.mem_of_getElem? hjc) hwc

end Holding

/-- A resumption wakes a coroutine that waits, or none. -/
theorem resume_cases (s : Coroutines β δ) (coroutine : Nat) (f : β → δ → δ) :
    (∃ k a, s.awaits[k]? = some a ∧ a.waiting = true ∧ s.resume coroutine f = s.put k (s.wake f a)) ∨
      s.resume coroutine f = { s with strays := s.strays + 1 } := by
  rw [resume]
  split
  · next k hfind =>
      obtain ⟨hlt, hp, -⟩ := List.findIdx?_eq_some_iff_getElem.mp hfind
      have hk : s.awaits[k]? = some s.awaits[k] := List.getElem?_eq_getElem hlt
      refine .inl ⟨k, s.awaits[k], hk, (Bool.and_eq_true_iff.mp hp).1, ?_⟩
      rw [List.modify_eq_set_getElem?, hk]
      rfl
  · exact .inr rfl

end Coroutines

end CoroRpc.Awaiting

import Mathlib.Algebra.BigOperators.Group.List.Basic
import Mathlib.Algebra.Ring.Int.Defs
import Mathlib.Data.List.Basic

namespace CoroRpc.Brackets

variable {α β : Type} [DecidableEq α]

/-- One more character behind what is open, which is given innermost first as the brackets that would close it.
Every opening bracket of `pairs` comes with the closing one. -/
def track (pairs : List (α × α)) (stack : List α) (c : α) : Option (List α) :=
  match pairs.lookup c with
  | some d => some (d :: stack)
  | none =>
      if pairs.any (·.2 = c) then
        match stack with
        | d :: stack => if c = d then some stack else none
        | [] => none
      else some stack

def scan (pairs : List (α × α)) (stack text : List α) : Option (List α) := text.foldlM (track pairs) stack

def Turns (pairs : List (α × α)) (before text after : List α) : Prop :=
  ∀ below, scan pairs (before ++ below) text = some (after ++ below)

/-- The text closes what it opens and nothing else. -/
def Nested (pairs : List (α × α)) (text : List α) : Prop := Turns pairs [] text []

variable {pairs : List (α × α)} {stack out before mid after text rest : List α} {c d : α}

theorem scan_cons (h : scan pairs stack (c :: text) = some out) :
    ∃ next, track pairs stack c = some next ∧ scan pairs next text = some out := by
  rw [scan, List.foldlM_cons] at h
  exact Option.bind_eq_some_iff.mp h

/-- What a character does: it opens, it closes the innermost bracket, or it is none. -/
theorem track_cases (h : track pairs stack c = some out) :
    (∃ d, pairs.lookup c = some d ∧ out = d :: stack) ∨
      (pairs.lookup c = none ∧ pairs.any (·.2 = c) = true ∧ stack = c :: out) ∨
        (pairs.lookup c = none ∧ pairs.any (·.2 = c) = false ∧ out = stack) := by
  unfold track at h
  split at h
  · next d hopen =>
      cases h
      exact .inl ⟨d, hopen, rfl⟩
  · next hopen =>
      split at h
      · next hclose =>
          split at h
          · split at h
            · next hd =>
                cases h
                exact .inr (.inl ⟨hopen, hclose, by rw [hd]⟩)
            · cases h
          · cases h
      · next hclose =>
          cases h
          exact .inr (.inr ⟨hopen, Bool.eq_false_iff.mpr hclose, rfl⟩)

/-- What is below is not looked at. -/
theorem track_below (h : track pairs stack c = some out) (below : List α) :
    track pairs (stack ++ below) c = some (out ++ below) := by
  obtain ⟨d, hopen, rfl⟩ | ⟨hopen, hclose, rfl⟩ | ⟨hopen, hclose, rfl⟩ := track_cases h
  · simp [track, hopen]
  · simp only [track, hopen, hclose, if_true, List.cons_append]
  · simp only [track, hopen, hclose, Bool.false_eq_true, if_false]

theorem scan_below (h : scan pairs stack text = some out) (below : List α) :
    scan pairs (stack ++ below) text = some (out ++ below) := by
  induction text generalizing stack with
  | nil =>
      cases h
      rfl
  | cons c text ih =>
      obtain ⟨next, hc, hrest⟩ := scan_cons h
      rw [scan, List.foldlM_cons, track_below hc]
      exact ih hrest

theorem turns_iff : Turns pairs before text after ↔ scan pairs before text = some after := by
  constructor
  · intro h
    simpa using h []
  · intro h below
    exact scan_below h below

instance : Decidable (Turns pairs before text after) := decidable_of_iff _ turns_iff.symm

theorem Turns.append (h : Turns pairs before text mid) (hr : Turns pairs mid rest after) :
    Turns pairs before (text ++ rest) after := by
  intro below
  rw [scan, List.foldlM_append]
  exact Option.bind_eq_some_iff.mpr ⟨mid ++ below, h below, hr below⟩

theorem Nested.under (h : Nested pairs text) (before : List α) : Turns pairs before text before :=
  fun below => h (before ++ below)

theorem nested_nil : Nested pairs [] := fun _ => rfl

theorem Nested.flatMap {items : List β} {f : β → List α} (h : ∀ i ∈ items, Nested pairs (f i)) :
    Nested pairs (items.flatMap f) := by
  induction items with
  | nil => exact nested_nil
  | cons i items ih =>
      rw [List.flatMap_cons]
      exact (h i List.mem_cons_self).append (ih fun j hj => h j (List.mem_cons_of_mem i hj))

theorem Nested.intercalate {sep : List α} (hsep : Nested pairs sep) {items : List (List α)}
    (h : ∀ i ∈ items, Nested pairs i) : Nested pairs (sep.intercalate items) := by
  induction items with
  | nil => exact nested_nil
  | cons i items ih =>
      have hi := h i List.mem_cons_self
      have hrest := ih fun j hj => h j (List.mem_cons_of_mem i hj)
      cases items with
      | nil => simpa [List.intercalate] using hi
      | cons j items =>
          rw [List.intercalate_cons_cons]
          exact (hi.append hsep).append hrest

/-- A text as it is written in a program. -/
theorem turns_text {pairs : List (Char × Char)} {before chars after : List Char}
    (h : scan pairs before chars = some after) : Turns pairs before (String.ofList chars).toList after := by
  rw [String.toList_ofList]
  exact turns_iff.mpr h

theorem Nested.between {pairs : List (Char × Char)} {before a mid b after name : List Char}
    (h : Nested pairs name) (ha : scan pairs before a = some mid) (hb : scan pairs mid b = some after) :
    Turns pairs before ((String.ofList a).toList ++ name ++ (String.ofList b).toList) after :=
  ((turns_text ha).append (h.under mid)).append (turns_text hb)

theorem nested_of_plain (h : ∀ c ∈ text, pairs.lookup c = none ∧ pairs.any (·.2 = c) = false) :
    Nested pairs text := by
  induction text with
  | nil => exact nested_nil
  | cons c text ih =>
      intro below
      obtain ⟨hopen, hclose⟩ := h c List.mem_cons_self
      have hc : track pairs below c = some below := by
        simp only [track, hopen, hclose, Bool.false_eq_true, if_false]
      rw [List.nil_append, scan, List.foldlM_cons, hc]
      exact ih (fun d hd => h d (List.mem_cons_of_mem c hd)) below

structure Matches (pairs : List (α × α)) (c d : α) : Prop where
  only : ∀ a, pairs.lookup a = some d ↔ a = c
  closing : pairs.lookup d = none ∧ pairs.any (·.2 = d) = true

theorem track_count {a : α} (hm : Matches pairs c d) (h : track pairs stack a = some out) :
    stack.count d + [a].count c = out.count d + [a].count d := by
  have hc : pairs.lookup c = some d := (hm.only c).mpr rfl
  obtain ⟨e, hopen, rfl⟩ | ⟨hopen, -, rfl⟩ | ⟨hopen, hclose, rfl⟩ := track_cases h
  · have had : a ≠ d := by
      rintro rfl
      rw [hm.closing.1] at hopen
      cases hopen
    have hac : e = d ↔ a = c := by
      rw [← hm.only, hopen, Option.some_inj]
    by_cases he : e = d
    · simp [he, hac.mp he, (hac.mp he) ▸ had]
    · simp [he, mt hac.mpr he, had]
  · have hac : a ≠ c := by
      rintro rfl
      rw [hc] at hopen
      cases hopen
    simp [List.count_cons, hac]
  · have hac : a ≠ c := by
      rintro rfl
      rw [hc] at hopen
      cases hopen
    have had : a ≠ d := by
      rintro rfl
      rw [hm.closing.2] at hclose
      cases hclose
    simp [hac, had]

theorem scan_count (hm : Matches pairs c d) (h : scan pairs stack text = some out) :
    stack.count d + text.count c = out.count d + text.count d := by
  induction text generalizing stack with
  | nil =>
      cases h
      rfl
  | cons a text ih =>
      obtain ⟨next, ha, hrest⟩ := scan_cons h
      have hstep := track_count hm ha
      have hi := ih hrest
      rw [← List.singleton_append, List.count_append, List.count_append]
      omega

theorem Nested.count_eq (hm : Matches pairs c d) (h : Nested pairs text) : text.count c = text.count d := by
  simpa using scan_count hm (turns_iff.mp h)

def excess (c d : α) (text : List α) : Int := text.count c - text.count d

theorem excess_nil : excess c d [] = 0 := by
  simp [excess]

theorem excess_append (text rest : List α) : excess c d (text ++ rest) = excess c d text + excess c d rest := by
  simp only [excess, List.count_append]
  omega

theorem excess_flatMap (items : List β) (f : β → List α) :
    excess c d (items.flatMap f) = (items.map fun i => excess c d (f i)).sum := by
  induction items with
  | nil => exact excess_nil
  | cons i items ih => rw [List.flatMap_cons, excess_append, ih, List.map_cons, List.sum_cons]

theorem excess_of_notMem (hc : c ∉ text) (hd : d ∉ text) : excess c d text = 0 := by
  rw [excess, List.count_eq_zero.mpr hc, List.count_eq_zero.mpr hd]
  rfl

theorem Nested.excess (hm : Matches pairs c d) (h : Nested pairs text) : excess c d text = 0 := by
  rw [Brackets.excess, h.count_eq hm]
  omega

end CoroRpc.Brackets

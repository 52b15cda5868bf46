import Mathlib.Data.List.DropRight

namespace CoroRpc.Scan

variable {α : Type}

def trim (p : α → Bool) (s : List α) : List α := (s.dropWhile p).rdropWhile p

structure Tight (p : α → Bool) (s : List α) : Prop where
  first : ∀ c ∈ s.head?, p c = false
  last : ∀ c ∈ s.getLast?, p c = false

theorem Tight.of_any {p : α → Bool} {s : List α} (h : s.any p = false) : Tight p s := by
  rw [List.any_eq_false] at h
  constructor
  · intro c hc
    exact Bool.eq_false_iff.mpr (h c (List.mem_of_mem_head? hc))
  · intro c hc
    exact Bool.eq_false_iff.mpr (h c (List.mem_of_mem_getLast? hc))

theorem dropWhile_append_self {p : α → Bool} {pre s : List α} (hpre : ∀ c ∈ pre, p c)
    (hs : ∀ c ∈ s.head?, p c = false) : (pre ++ s).dropWhile p = s := by
  rw [List.dropWhile_append_of_pos hpre]
  cases s with
  | nil => rfl
  | cons c s => exact List.dropWhile_cons_of_neg (by simp [hs c rfl])

theorem trim_append {p : α → Bool} {pre s : List α} (hpre : ∀ c ∈ pre, p c) (hs : Tight p s) (post : List α)
    (hpost : ∀ c ∈ post, p c) : trim p (pre ++ (s ++ post)) = s := by
  rw [trim]
  cases s with
  | nil =>
      have hall := dropWhile_append_self (s := []) (fun c hc => (List.mem_append.mp hc).elim (hpre c) (hpost c))
        (by simp)
      rw [List.append_nil] at hall
      rw [List.nil_append, hall, List.rdropWhile_nil]
  | cons c s =>
      have hpost' : ∀ d ∈ post.reverse, p d := fun d hd => hpost d (List.mem_reverse.mp hd)
      have hrev := dropWhile_append_self (s := (c :: s).reverse) hpost'
        (fun d hd => hs.last d (List.head?_reverse ▸ hd))
      have hfront := dropWhile_append_self (s := c :: s ++ post) hpre (fun d hd => hs.first d hd)
      rw [hfront, List.rdropWhile, List.reverse_append, hrev, List.reverse_reverse]

theorem head?_trim {p : α → Bool} {pre : List α} {c : α} (hpre : ∀ c ∈ pre, p c) (hc : p c = false) (s : List α) :
    (trim p (pre ++ c :: s)).head? = some c := by
  have hfront := dropWhile_append_self (s := c :: s) hpre (by simp [hc])
  have hpfx := List.rdropWhile_prefix p (c :: s)
  have hne : (c :: s).rdropWhile p ≠ [] := by
    rw [Ne, List.rdropWhile_eq_nil_iff]
    intro hall
    exact Bool.false_ne_true (hc.symm.trans (hall c List.mem_cons_self))
  rw [trim, hfront, List.head?_eq_some_head hne, hpfx.head hne]
  rfl

theorem Tight.append {p : α → Bool} {s t : List α} (hs : Tight p s) (ht : Tight p t) (hsne : s ≠ [])
    (htne : t ≠ []) (mid : List α) : Tight p (s ++ (mid ++ t)) := by
  constructor
  · intro c hc
    rw [List.head?_append_of_ne_nil _ hsne] at hc
    exact hs.first c hc
  · intro c hc
    rw [← List.append_assoc, List.getLast?_append_of_ne_nil _ htne] at hc
    exact ht.last c hc

theorem not_mem_intercalate {c : α} {sep : List α} {lines : List (List α)} (hsep : c ∉ sep)
    (h : ∀ line ∈ lines, c ∉ line) : c ∉ sep.intercalate lines := by
  induction lines with
  | nil => simp
  | cons line lines ih =>
      have hline := h line List.mem_cons_self
      cases lines with
      | nil => rwa [List.intercalate_singleton]
      | cons line' lines =>
          simp only [List.intercalate_cons_cons, List.mem_append, not_or]
          exact ⟨⟨hline, hsep⟩, ih fun l hl => h l (List.mem_cons_of_mem line hl)⟩

variable [DecidableEq α]

def find (c : α) (s : List α) : Option Nat := s.idxOf? c

def findLast (c : α) (s : List α) : Option Nat := (find c s.reverse).map fun i => s.length - (i + 1)

theorem find_append {c : α} {s : List α} (h : c ∉ s) (t : List α) : find c (s ++ c :: t) = some s.length := by
  induction s with
  | nil => simp [find, List.idxOf?_cons]
  | cons d s ih =>
      rw [List.mem_cons, not_or] at h
      have hd : ¬(d == c) = true := by simpa using Ne.symm h.1
      have ih := ih h.2
      rw [find] at ih ⊢
      rw [List.cons_append, List.idxOf?_cons, if_neg hd, ih, Option.map_some, List.length_cons]

theorem findLast_append {c : α} {t : List α} (h : c ∉ t) (s : List α) :
    findLast c (s ++ c :: t) = some s.length := by
  have hrev : (s ++ c :: t).reverse = t.reverse ++ c :: s.reverse := by simp
  have hlen : (s ++ c :: t).length - (t.reverse.length + 1) = s.length := by
    simp only [List.length_append, List.length_cons, List.length_reverse]
    omega
  rw [findLast, hrev, find_append (fun hc => h (List.mem_reverse.mp hc)), Option.map_some, hlen]

/-- The pieces that reading up to a delimiter returns one after the other, until nothing is left. -/
def getlines (delim : α) : List α → List (List α)
  | [] => []
  | c :: stream =>
      if c = delim then [] :: getlines delim stream
      else
        match getlines delim stream with
        | [] => [[c]]
        | line :: lines => (c :: line) :: lines

theorem getlines_append {delim : α} {line : List α} (h : delim ∉ line) (stream : List α) :
    getlines delim (line ++ delim :: stream) = line :: getlines delim stream := by
  induction line with
  | nil => simp [getlines]
  | cons c line ih =>
      rw [List.mem_cons, not_or] at h
      rw [List.cons_append, getlines, if_neg (Ne.symm h.1), ih h.2]

theorem getlines_last {delim : α} {line : List α} (h : delim ∉ line) (hne : line ≠ []) :
    getlines delim line = [line] := by
  induction line with
  | nil => exact absurd rfl hne
  | cons c line ih =>
      rw [List.mem_cons, not_or] at h
      rw [getlines, if_neg (Ne.symm h.1)]
      cases line with
      | nil => rfl
      | cons d line => rw [ih h.2 (List.cons_ne_nil d line)]

/-- Pieces that are put together come back, but for an empty one at the end. -/
theorem getlines_intercalate {delim : α} {lines : List (List α)} (h : ∀ line ∈ lines, delim ∉ line) :
    getlines delim ([delim].intercalate lines) = lines ∨
      getlines delim ([delim].intercalate lines) ++ [[]] = lines := by
  induction lines with
  | nil => exact Or.inl rfl
  | cons line lines ih =>
      have hline := h line List.mem_cons_self
      cases lines with
      | nil =>
          rw [List.intercalate_singleton]
          by_cases hne : line = []
          · subst hne
            exact Or.inr rfl
          · exact Or.inl (getlines_last hline hne)
      | cons line' lines =>
          rw [List.intercalate_cons_cons, List.append_assoc, List.singleton_append, getlines_append hline]
          refine (ih fun l hl => h l (List.mem_cons_of_mem line hl)).imp ?_ ?_
          · intro heq
            rw [heq]
          · intro heq
            rw [List.cons_append, heq]

end CoroRpc.Scan

import CoroRpc.Lib.Forest
import Mathlib.Data.List.Nodup
import Mathlib.Data.List.Perm.Basic

namespace CoroRpc.Coro

open Forest

-- A `Task`, a `Task<void>` or a `Generator`. It stands outside of every coroutine or, as a local or a
-- temporary, in the frame of one; `handle` is the frame that it owns.
structure TaskObject where
  name : Nat
  place : Option Nat
  handle : Option Nat
  deriving DecidableEq

structure Lifetimes where
  objects : List TaskObject := []
  frames : List Nat := []
  destroyed : List Nat := []
  deriving DecidableEq

inductive TaskOp
  | empty (o : Nat) (place : Option Nat)
  | call (o : Nat) (place : Option Nat)
  | moveFrom (o : Nat) (place : Option Nat) (other : Nat)
  | assign (o other : Nat)
  | drop (o : Nat)

namespace Lifetimes

def find (s : Lifetimes) (o : Nat) : Option TaskObject := s.objects.find? (·.name = o)

def localsOf (s : Lifetimes) (f : Nat) : List Nat := (s.objects.filter (·.place = some f)).map (·.name)

def setHandle (s : Lifetimes) (o : Nat) (handle : Option Nat) : Lifetimes :=
  { s with objects := s.objects.map fun x => if x.name = o then { x with handle } else x }

def dropWith (destroyFrame : Lifetimes → Nat → Option Lifetimes) (s : Lifetimes) (o : Nat) : Option Lifetimes := do
  let x ← s.find o
  let s ← x.handle.elim (some s) (destroyFrame s)
  some { s with objects := s.objects.filter (·.name ≠ o) }

/-- `handle_.destroy()` ends the locals of the frame, the youngest first, and then frees it. `none` when the frame does
not stand any more. -/
def destroyFrame : Nat → Lifetimes → Nat → Option Lifetimes
  | 0, _, _ => none
  | n + 1, s, f =>
      if f ∈ s.frames then
        let unwound := { s with frames := s.frames.erase f }
        ((unwound.localsOf f).foldlM (dropWith (destroyFrame n)) unwound).map fun s =>
          { s with destroyed := f :: s.destroyed }
      else none

def destroy (s : Lifetimes) (o : Nat) : Option Lifetimes := do
  let x ← s.find o
  match x.handle with
  | none => some s
  | some f =>
      let s ← destroyFrame s.frames.length s f
      let _ ← s.find o
      some (s.setHandle o none)

def take (s : Lifetimes) (o other : Nat) : Option Lifetimes := do
  let _ ← s.find o
  let x ← s.find other
  some ((s.setHandle o x.handle).setHandle other none)

def fresh (s : Lifetimes) : Nat := s.frames.length + s.destroyed.length

/-- `none` when an object is touched that does not live any more, or a frame that does not stand. -/
def apply (s : Lifetimes) : TaskOp → Option Lifetimes
  | .empty o place => some { s with objects := ⟨o, place, none⟩ :: s.objects }
  | .call o place =>
      some { s with objects := ⟨o, place, some s.fresh⟩ :: s.objects, frames := s.fresh :: s.frames }
  | .moveFrom o place other => { s with objects := ⟨o, place, none⟩ :: s.objects }.take o other
  | .assign o other => if o = other then some s else (s.destroy o).bind (·.take o other)
  | .drop o => s.dropWith (destroyFrame s.frames.length) o

def Free (s : Lifetimes) (o : Nat) (place : Option Nat) : Prop := s.find o = none ∧ ∀ f ∈ place, f ∈ s.frames

instance (s : Lifetimes) (o : Nat) (place : Option Nat) : Decidable (s.Free o place) :=
  inferInstanceAs (Decidable (_ ∧ ∀ f ∈ place, _))

def Meant (s : Lifetimes) : TaskOp → Prop
  | .empty o place | .call o place => s.Free o place
  | .moveFrom o place other => s.Free o place ∧ (s.find other).isSome
  | .assign o other => (s.find o).isSome ∧ (s.find other).isSome
  | .drop o => (s.find o).isSome

instance (s : Lifetimes) : (op : TaskOp) → Decidable (s.Meant op)
  | .empty o place | .call o place => inferInstanceAs (Decidable (s.Free o place))
  | .moveFrom o place other => inferInstanceAs (Decidable (s.Free o place ∧ (s.find other).isSome))
  | .assign o other => inferInstanceAs (Decidable ((s.find o).isSome ∧ (s.find other).isSome))
  | .drop o => inferInstanceAs (Decidable ((s.find o).isSome))

end Lifetimes

-- `running` are the frames whose bodies run, which is to say that they are not suspended.
structure Executing where
  lifetimes : Lifetimes := {}
  running : List Nat := []
  deriving DecidableEq

inductive FrameEvent
  | op (op : TaskOp)
  | resume (f : Nat)
  | suspend (f : Nat)

def Executing.step : Option Executing → FrameEvent → Option (Option Executing)
  | none, _ => none
  | some s, .op op =>
      if s.lifetimes.Meant op then
        some ((s.lifetimes.apply op).bind fun t =>
          if ∀ f ∈ s.running, f ∈ t.frames then some { s with lifetimes := t } else none)
      else none
  | some s, .resume f =>
      if f ∈ s.lifetimes.frames ∧ f ∉ s.running then some (some { s with running := f :: s.running }) else none
  | some s, .suspend f =>
      if f ∈ s.running then some (some { s with running := s.running.erase f }) else none

namespace Lifetimes

def Placed (s : Lifetimes) (f : Nat) (place : Option Nat) : Prop :=
  f ∈ s.frames ∧ ∃ x ∈ s.objects, x.handle = some f ∧ x.place = place

def Within (s : Lifetimes) (f : Nat) (place : Option Nat) : Prop := ∃ g, place = some g ∧ Under s.Placed f g

structure Distinct (s : Lifetimes) : Prop where
  names : (s.objects.map (·.name)).Nodup
  owners : ∀ x ∈ s.objects, ∀ y ∈ s.objects, ∀ f, x.handle = some f → y.handle = some f → x = y
  books : (s.frames ++ s.destroyed).Nodup

structure Cut (left : Option Nat) (s t : Lifetimes) : Prop where
  objects : t.objects.Sublist s.objects
  frames : t.frames.Sublist s.frames
  emptied : ∀ e ∈ s.frames, e ∉ t.frames → ∀ x ∈ t.objects, x.place ≠ some e
  owners : ∀ x ∈ s.objects, ∀ e ∈ t.frames, x.handle = some e → x ∈ t.objects
  held : ∀ x ∈ t.objects, ∀ e ∈ s.frames, x.handle = some e → e ∈ t.frames ∨ left = some e
  books : (t.frames ++ t.destroyed).Perm (s.frames ++ s.destroyed)

structure OnlyWithin (s : Lifetimes) (f : Nat) (u t : Lifetimes) : Prop where
  objects : ∀ x ∈ u.objects, x ∉ t.objects → s.Within f x.place
  frames : ∀ e ∈ u.frames, e ∉ t.frames → Under s.Placed f e

variable {s t u v : Lifetimes} {f g n o : Nat} {left place : Option Nat} {x y : TaskObject}

theorem eq_of_name (h : (s.objects.map (·.name)).Nodup) (hx : x ∈ s.objects) (hy : y ∈ s.objects)
    (hname : x.name = y.name) : x = y :=
  List.inj_on_of_nodup_map h hx hy hname

theorem mem_of_find (h : s.find o = some x) : x ∈ s.objects ∧ x.name = o := by
  have hname := List.find?_some h
  exact ⟨List.mem_of_find?_eq_some h, of_decide_eq_true hname⟩

theorem find_isSome_iff : (s.find o).isSome ↔ ∃ x ∈ s.objects, x.name = o := by
  simp [find]

theorem find_eq (h : (s.objects.map (·.name)).Nodup) (hx : x ∈ s.objects) : s.find x.name = some x := by
  obtain ⟨y, hy⟩ := Option.isSome_iff_exists.mp (find_isSome_iff.mpr ⟨x, hx, rfl⟩)
  obtain ⟨hmem, hname⟩ := mem_of_find hy
  rw [hy, eq_of_name h hmem hx hname]

theorem Distinct.placed_unique (h : s.Distinct) (f : Nat) (p q : Option Nat) (hp : s.Placed f p) (hq : s.Placed f q) :
    p = q := by
  obtain ⟨-, x, hx, hxf, rfl⟩ := hp
  obtain ⟨-, y, hy, hyf, rfl⟩ := hq
  rw [h.owners x hx y hy f hxf hyf]

theorem Cut.trans (h : Cut none s t) (h' : Cut none t u) : Cut none s u where
  objects := h'.objects.trans h.objects
  frames := h'.frames.trans h.frames
  emptied e he heu x hx := by
    by_cases het : e ∈ t.frames
    · exact h'.emptied e het heu x hx
    · exact h.emptied e he het x (h'.objects.subset hx)
  owners x hx e he hxe := h'.owners x (h.owners x hx e (h'.frames.subset he) hxe) e he hxe
  held x hx e he hxe := by
    obtain het | hnone := h.held x (h'.objects.subset hx) e he hxe
    · exact h'.held x hx e het hxe
    · cases hnone
  books := h'.books.trans h.books

theorem Cut.distinct (h : Cut left s t) (hd : s.Distinct) : t.Distinct where
  names := hd.names.sublist (h.objects.map _)
  owners x hx y hy := hd.owners x (h.objects.subset hx) y (h.objects.subset hy)
  books := h.books.nodup_iff.mpr hd.books

theorem Cut.placed (h : Cut left s t) {e : Nat} {p : Option Nat} (hp : t.Placed e p) : s.Placed e p := by
  obtain ⟨he, x, hx, hxe, hxp⟩ := hp
  exact ⟨h.frames.subset he, x, h.objects.subset hx, hxe, hxp⟩

theorem OnlyWithin.trans (h : OnlyWithin s f u v) (h' : OnlyWithin s f v t) : OnlyWithin s f u t where
  objects x hx hxt := by
    by_cases hxv : x ∈ v.objects
    · exact h'.objects x hxv hxt
    · exact h.objects x hx hxv
  frames e he het := by
    by_cases hev : e ∈ v.frames
    · exact h'.frames e hev het
    · exact h.frames e he hev

/-- Fuel `n` is enough for `destroyFrame`, which takes away the frame and what is in it and nothing else. -/
def Unwinds (n : Nat) : Prop :=
  ∀ s : Lifetimes, s.Distinct → s.frames.length ≤ n → ∀ f ∈ s.frames,
    (∀ x ∈ s.objects, s.Within f x.place → ∀ e, x.handle = some e → e ∈ s.frames ∧ e ≠ f) →
      ∃ t, destroyFrame n s f = some t ∧ Cut (some f) s t ∧ OnlyWithin s f s t ∧ f ∉ t.frames

structure Unwinding (n : Nat) (s : Lifetimes) (f : Nat) (u : Lifetimes) : Prop where
  distinct : u.Distinct
  gone : f ∉ u.frames
  depth : u.frames.length ≤ n
  placed : ∀ e p, u.Placed e p → s.Placed e p
  held : ∀ x ∈ u.objects, s.Within f x.place → ∀ e, x.handle = some e → e ∈ u.frames

theorem Unwinding.cut (h : Unwinding n s f u) (hc : Cut none u t) : Unwinding n s f t where
  distinct := hc.distinct h.distinct
  gone hf := h.gone (hc.frames.subset hf)
  depth := Nat.le_trans hc.frames.length_le h.depth
  placed e p hp := h.placed e p (hc.placed hp)
  held x hx hin e hxe := by
    obtain het | hnone := hc.held x hx e (h.held x (hc.objects.subset hx) hin e hxe) hxe
    · exact het
    · cases hnone

theorem Unwinding.not_under (h : Unwinding n s f u) (hg : g ∈ u.frames) : ¬Under u.Placed g f := by
  intro hu
  cases hu with
  | self => exact h.gone hg
  | inside hp => exact h.gone hp.1

theorem Unwinding.within (h : Unwinding n s f u) (hx : x ∈ u.objects) (hplace : x.place = some f)
    (hhandle : x.handle = some g) (hg : g ∈ u.frames) (hin : u.Within g place) : s.Within f place := by
  obtain ⟨q, rfl, hq⟩ := hin
  have hplaced : s.Placed g (some f) := h.placed g (some f) ⟨hg, x, hx, hhandle, hplace⟩
  exact ⟨q, rfl, (Under.inside hplaced .self).trans (hq.mono h.placed)⟩

/-- The object `x` ends behind its frame, if it has one. -/
theorem Cut.dropped (h : Cut x.handle u v) (hd : u.Distinct) (hx : x ∈ u.objects)
    (hgone : ∀ g, x.handle = some g → g ∈ u.frames ∧ g ∉ v.frames) :
    Cut none u { v with objects := v.objects.filter (·.name ≠ x.name) } where
  objects := List.filter_sublist.trans h.objects
  frames := h.frames
  emptied e he hev y hy := h.emptied e he hev y (List.mem_of_mem_filter hy)
  owners y hy e he hye := by
    refine List.mem_filter.mpr ⟨h.owners y hy e he hye, decide_eq_true fun hname => ?_⟩
    cases eq_of_name hd.names hy hx hname
    exact (hgone e hye).2 he
  held y hy e he hye := by
    obtain ⟨hy', hname⟩ := List.mem_filter.mp hy
    obtain hev | hleft := h.held y hy' e he hye
    · exact .inl hev
    · cases hd.owners y (h.objects.subset hy') x hx e hye hleft
      exact absurd rfl (of_decide_eq_true hname)
  books := h.books

theorem Cut.refl : Cut left s s where
  objects := .refl _
  frames := .refl _
  emptied _ he hes := absurd he hes
  owners _ hx _ _ _ := hx
  held _ _ _ he _ := .inl he
  books := .refl _

/-- One local of the frame ends. -/
theorem Unwinds.drop (hn : Unwinds n) (h : Unwinding n s f u) (hx : x ∈ u.objects) (hplace : x.place = some f) :
    ∃ t, dropWith (destroyFrame n) u x.name = some t ∧ Cut none u t ∧ OnlyWithin s f u t ∧
      (∀ y ∈ t.objects, y.name ≠ x.name) ∧
      ∀ y ∈ u.objects, y.place = some f → y.name ≠ x.name → y ∈ t.objects := by
  obtain ⟨v, hv, hcut, hgone, honly, hstay⟩ : ∃ v, x.handle.elim (some u) (destroyFrame n u) = some v ∧
      Cut x.handle u v ∧ (∀ g, x.handle = some g → g ∈ u.frames ∧ g ∉ v.frames) ∧ OnlyWithin s f u v ∧
      ∀ y ∈ u.objects, y.place = some f → y ∈ v.objects := by
    cases hhandle : x.handle with
    | none =>
        refine ⟨u, rfl, .refl, ?_, ⟨fun y hy hyu => absurd hy hyu, fun e he heu => absurd he heu⟩, fun y hy _ => hy⟩
        intro g hg
        cases hg
    | some g =>
        have hg := h.held x hx ⟨f, hplace, .self⟩ g hhandle
        have hapart : ∀ y ∈ u.objects, u.Within g y.place → ∀ e, y.handle = some e → e ∈ u.frames ∧ e ≠ g := by
          intro y hy hin e hye
          refine ⟨h.held y hy (h.within hx hplace hhandle hg hin) e hye, ?_⟩
          rintro rfl
          cases h.distinct.owners y hy x hx e hye hhandle
          obtain ⟨q, hq, hu⟩ := hin
          cases hplace.symm.trans hq
          exact h.not_under hg hu
        obtain ⟨v, hv, hcut, honly, hgone⟩ := hn u h.distinct h.depth g hg hapart
        refine ⟨v, hv, hcut, ?_, ⟨fun y hy hyv => ?_, fun e he hev => ?_⟩, fun y hy hyf => ?_⟩
        · intro e he
          cases he
          exact ⟨hg, hgone⟩
        · exact h.within hx hplace hhandle hg (honly.objects y hy hyv)
        · obtain ⟨q, hq, hu⟩ := h.within hx hplace hhandle hg ⟨e, rfl, honly.frames e he hev⟩
          cases hq
          exact hu
        · by_contra hyv
          obtain ⟨q, hq, hu⟩ := honly.objects y hy hyv
          cases hyf.symm.trans hq
          exact h.not_under hg hu
  refine ⟨{ v with objects := v.objects.filter (·.name ≠ x.name) }, ?_, hcut.dropped h.distinct hx hgone, ?_, ?_, ?_⟩
  · simp only [dropWith, find_eq h.distinct.names hx, hv, bind, Option.bind]
  · refine ⟨fun y hy hyt => ?_, honly.frames⟩
    by_cases hyv : y ∈ v.objects
    · have hname : y.name = x.name := by
        by_contra hne
        exact hyt (List.mem_filter.mpr ⟨hyv, decide_eq_true hne⟩)
      cases eq_of_name h.distinct.names hy hx hname
      exact ⟨f, hplace, .self⟩
    · exact honly.objects y hy hyv
  · intro y hy
    exact of_decide_eq_true (List.mem_filter.mp hy).2
  · intro y hy hyf hne
    exact List.mem_filter.mpr ⟨hstay y hy hyf, decide_eq_true hne⟩

/-- All of its locals end, in any order. -/
theorem Unwinds.foldlM_drop (hn : Unwinds n) {os : List Nat} (hos : os.Nodup) (h : Unwinding n s f u)
    (hin : ∀ o ∈ os, ∃ x ∈ u.objects, x.name = o ∧ x.place = some f) :
    ∃ t, os.foldlM (dropWith (destroyFrame n)) u = some t ∧ Cut none u t ∧ OnlyWithin s f u t ∧
      ∀ y ∈ t.objects, y.name ∉ os := by
  induction os generalizing u with
  | nil =>
      refine ⟨u, rfl, .refl, ⟨fun y hy hyu => absurd hy hyu, fun e he heu => absurd he heu⟩, fun y _ => ?_⟩
      exact List.not_mem_nil
  | cons o os ih =>
      obtain ⟨hnot, hnodup⟩ := List.nodup_cons.mp hos
      obtain ⟨x, hx, rfl, hplace⟩ := hin o List.mem_cons_self
      obtain ⟨v, hv, hcut, honly, hended, hstay⟩ := hn.drop h hx hplace
      obtain ⟨t, ht, hcut', honly', hended'⟩ := ih hnodup (h.cut hcut) fun o ho => by
        obtain ⟨y, hy, rfl, hyf⟩ := hin o (List.mem_cons_of_mem _ ho)
        exact ⟨y, hstay y hy hyf fun heq => hnot (heq ▸ ho), rfl, hyf⟩
      refine ⟨t, by rw [List.foldlM_cons, hv]; exact ht, hcut.trans hcut', honly.trans honly', fun y hy => ?_⟩
      rw [List.mem_cons, not_or]
      exact ⟨hended y (hcut'.objects.subset hy), hended' y hy⟩

theorem unwinds (n : Nat) : Unwinds n := by
  induction n with
  | zero =>
      intro s _ hlength f hf
      rw [List.eq_nil_of_length_eq_zero (Nat.le_zero.mp hlength)] at hf
      exact absurd hf List.not_mem_nil
  | succ n ih =>
      intro s hd hlength f hf hin
      obtain ⟨hframes, -, hapart⟩ := List.nodup_append.mp hd.books
      let u : Lifetimes := { s with frames := s.frames.erase f }
      have hgone : f ∉ u.frames := hframes.not_mem_erase
      have hmem : ∀ e, e ∈ u.frames ↔ e ≠ f ∧ e ∈ s.frames := fun e => hframes.mem_erase_iff
      have hunwinding : Unwinding n s f u := by
        refine ⟨⟨hd.names, hd.owners, hd.books.sublist (List.erase_sublist.append_right _)⟩, hgone, ?_, ?_, ?_⟩
        · rw [List.length_erase_of_mem hf]
          omega
        · rintro e p ⟨he, hx⟩
          exact ⟨((hmem e).mp he).2, hx⟩
        · intro x hx hxin e hxe
          obtain ⟨he, hne⟩ := hin x hx hxin e hxe
          exact (hmem e).mpr ⟨hne, he⟩
      have hnodup : (u.localsOf f).Nodup := hd.names.sublist (List.filter_sublist.map _)
      obtain ⟨t, ht, hcut, honly, hended⟩ := ih.foldlM_drop hnodup hunwinding fun o ho => by
        obtain ⟨x, hx, rfl⟩ := List.mem_map.mp ho
        obtain ⟨hx, hplace⟩ := List.mem_filter.mp hx
        exact ⟨x, hx, rfl, of_decide_eq_true hplace⟩
      have hempty : ∀ x ∈ t.objects, x.place ≠ some f := fun x hx hplace =>
        hended x hx (List.mem_map.mpr ⟨x, List.mem_filter.mpr ⟨hcut.objects.subset hx, decide_eq_true hplace⟩, rfl⟩)
      refine ⟨{ t with destroyed := f :: t.destroyed }, ?_, ⟨hcut.objects, ?_, ?_, hcut.owners, ?_, ?_⟩, ⟨?_, ?_⟩, ?_⟩
      · rw [destroyFrame, if_pos hf]
        exact congrArg (Option.map _) ht
      · exact hcut.frames.trans List.erase_sublist
      · intro e he het
        by_cases hef : e = f
        · exact hef ▸ hempty
        · exact hcut.emptied e ((hmem e).mpr ⟨hef, he⟩) het
      · intro x hx e he hxe
        by_cases hef : e = f
        · exact .inr (hef ▸ rfl)
        · obtain het | hnone := hcut.held x hx e ((hmem e).mpr ⟨hef, he⟩) hxe
          · exact .inl het
          · cases hnone
      · have hbooks : (f :: (t.frames ++ t.destroyed)).Perm (f :: (s.frames.erase f ++ s.destroyed)) := hcut.books.cons f
        exact List.perm_middle.trans (hbooks.trans ((List.perm_cons_erase hf).symm.append_right _))
      · exact honly.objects
      · intro e he het
        by_cases hef : e = f
        · exact hef ▸ .self
        · exact honly.frames e ((hmem e).mpr ⟨hef, he⟩) het
      · exact fun hft => hgone (hcut.frames.subset hft)

end Lifetimes

end CoroRpc.Coro

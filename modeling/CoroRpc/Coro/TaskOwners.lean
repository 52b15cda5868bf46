import CoroRpc.Coro.TaskLifetime
import CoroRpc.Lib.Trace
import Mathlib.Data.List.Range

namespace CoroRpc.Coro

open Forest Trace

namespace Lifetimes

variable {s t : Lifetimes} {f g o : Nat} {left place : Option Nat} {x y : TaskObject}

structure Sound (s : Lifetimes) : Prop where
  distinct : s.Distinct
  placed : ∀ x ∈ s.objects, ∀ f, x.place = some f → f ∈ s.frames
  held : ∀ x ∈ s.objects, ∀ f, x.handle = some f → f ∈ s.frames
  rooted : ∀ f ∈ s.frames, Rooted s.Placed f
  counted : ∀ f, f ∈ s.frames ++ s.destroyed ↔ f < s.fresh

def Inside (s : Lifetimes) (x : TaskObject) (place : Option Nat) : Prop := ∃ f, x.handle = some f ∧ s.Within f place

/-- The source of a move assignment is not destroyed with what its target owned, and nothing is moved into itself. -/
def Apart (s : Lifetimes) : TaskOp → Prop
  | .moveFrom _ place other => ∀ y ∈ s.objects, y.name = other → ¬s.Inside y place
  | .assign o other => o ≠ other → ∀ x ∈ s.objects, ∀ y ∈ s.objects, x.name = o → y.name = other →
      ¬s.Inside x y.place ∧ ¬s.Inside y x.place
  | _ => True

theorem placed_congr (hmem : ∀ y, y ∈ t.objects ↔ y ∈ s.objects) (hframes : t.frames = s.frames) :
    t.Placed = s.Placed := by
  funext f p
  simp only [Placed, hmem, hframes]

theorem Sound.congr (h : s.Sound) (hnames : (t.objects.map (·.name)).Nodup) (hmem : ∀ y, y ∈ t.objects ↔ y ∈ s.objects)
    (hframes : t.frames = s.frames) (hdestroyed : t.destroyed = s.destroyed) : t.Sound where
  distinct := by
    refine ⟨hnames, fun x hx y hy => h.distinct.owners x ((hmem x).mp hx) y ((hmem y).mp hy), ?_⟩
    rw [hframes, hdestroyed]
    exact h.distinct.books
  placed x hx := hframes ▸ h.placed x ((hmem x).mp hx)
  held x hx := hframes ▸ h.held x ((hmem x).mp hx)
  rooted := by
    rw [placed_congr hmem hframes, hframes]
    exact h.rooted
  counted := by
    rw [fresh, hframes, hdestroyed]
    exact h.counted

/-- With a frame all goes that stands under it. -/
theorem Cut.under_gone (h : Cut left s t) (hs : s.Sound) (hf : f ∉ t.frames) (hu : Under s.Placed f g) :
    g ∉ t.frames := by
  induction hu with
  | self => exact hf
  | @inside w z hw hz ih =>
      intro hwt
      obtain ⟨-, x, hx, hxw, hplace⟩ := hw
      exact h.emptied z (hs.placed x hx z hplace) ih x (h.owners x hx w hwt hxw) hplace

theorem Cut.placed_above (h : Cut left s t) (hs : s.Sound) (hg : g ∈ t.frames) (hu : Under s.Placed f g)
    (hp : s.Placed f place) : t.Placed f place := by
  obtain ⟨-, x, hx, hxf, hplace⟩ := hp
  have hf : f ∈ t.frames := by
    by_contra hf
    exact h.under_gone hs hf hu hg
  exact ⟨hf, x, h.owners x hx f hf hxf, hxf, hplace⟩

theorem Cut.within_iff (h : Cut left s t) (hs : s.Sound) (hplace : ∀ g, place = some g → g ∈ t.frames) :
    t.Within f place ↔ s.Within f place := by
  constructor
  · rintro ⟨g, hg, hu⟩
    exact ⟨g, hg, hu.mono fun e p => h.placed⟩
  · rintro ⟨g, hg, hu⟩
    exact ⟨g, hg, hu.congr fun e p he => h.placed_above hs (hplace g hg) he⟩

theorem fresh_eq_of_perm (h : (t.frames ++ t.destroyed).Perm (s.frames ++ s.destroyed)) : t.fresh = s.fresh := by
  have hlength := h.length_eq
  rw [List.length_append, List.length_append] at hlength
  exact hlength

theorem Sound.cut (hs : s.Sound) (h : Cut none s t) : t.Sound where
  distinct := h.distinct hs.distinct
  placed x hx f hplace := by
    by_contra hf
    exact h.emptied f (hs.placed x (h.objects.subset hx) f hplace) hf x hx hplace
  held x hx f hxf := by
    obtain hf | hnone := h.held x hx f (hs.held x (h.objects.subset hx) f hxf) hxf
    · exact hf
    · cases hnone
  rooted f hf := (hs.rooted f (h.frames.subset hf)).congr fun e p he => h.placed_above hs hf he
  counted f := by
    rw [h.books.mem_iff, fresh_eq_of_perm h.books]
    exact hs.counted f

/-- Nothing owns the frame that it is in. -/
theorem Sound.not_inside (hs : s.Sound) (hx : x ∈ s.objects) : ¬s.Inside x x.place := by
  rintro ⟨f, hxf, g, hplace, hu⟩
  have hf := hs.held x hx f hxf
  exact (hs.rooted f hf).not_under hs.distinct.placed_unique ⟨hf, x, hx, hxf, hplace⟩ hu

/-- What an object owns is destroyed, and all that lived there. -/
theorem Sound.destroyFrame (hs : s.Sound) (hx : x ∈ s.objects) :
    ∃ u, x.handle.elim (some s) (Lifetimes.destroyFrame s.frames.length s) = some u ∧ Cut x.handle s u ∧
      (∀ f, x.handle = some f → f ∈ s.frames ∧ f ∉ u.frames) ∧
      (∀ y ∈ s.objects, y ∈ u.objects ↔ ¬s.Inside x y.place) ∧
      ∀ g ∈ s.frames, g ∈ u.frames ↔ ¬s.Inside x (some g) := by
  cases hhandle : x.handle with
  | none =>
      have hnothing : ∀ place, ¬s.Inside x place := by
        rintro place ⟨f, hf, -⟩
        cases hhandle.symm.trans hf
      exact ⟨s, rfl, .refl, fun f hf => (by cases hf), fun y hy => iff_of_true hy (hnothing _),
        fun g hg => iff_of_true hg (hnothing _)⟩
  | some f =>
      have hf := hs.held x hx f hhandle
      obtain ⟨u, hu, hcut, honly, hgone⟩ := unwinds s.frames.length s hs.distinct le_rfl f hf fun y hy hin e hye => by
        refine ⟨hs.held y hy e hye, ?_⟩
        rintro rfl
        exact hs.not_inside hy ⟨e, hye, hin⟩
      refine ⟨u, hu, hcut, fun e he => ?_, fun y hy => ⟨?_, ?_⟩, fun g hg => ⟨?_, ?_⟩⟩
      · cases he
        exact ⟨hf, hgone⟩
      · rintro hyu ⟨e, he, g, hplace, hunder⟩
        cases hhandle.symm.trans he
        exact hcut.emptied g (hs.placed y hy g hplace) (hcut.under_gone hs hgone hunder) y hyu hplace
      · intro hin
        by_contra hyu
        exact hin ⟨f, hhandle, honly.objects y hy hyu⟩
      · rintro hgu ⟨e, he, w, hw, hunder⟩
        cases hw
        cases hhandle.symm.trans he
        exact hcut.under_gone hs hgone hunder hgu
      · intro hin
        by_contra hgu
        exact hin ⟨f, hhandle, g, rfl, honly.frames g hg hgu⟩

theorem Sound.drop (hs : s.Sound) (hx : x ∈ s.objects) :
    ∃ t, s.dropWith (Lifetimes.destroyFrame s.frames.length) x.name = some t ∧ t.Sound ∧
      ∀ f ∈ s.frames, f ∈ t.frames ↔ ¬s.Inside x (some f) := by
  obtain ⟨u, hu, hcut, hgone, -, hframes⟩ := hs.destroyFrame hx
  refine ⟨{ u with objects := u.objects.filter (·.name ≠ x.name) }, ?_, hs.cut (hcut.dropped hs.distinct hx hgone),
    hframes⟩
  simp only [dropWith, find_eq hs.distinct.names hx, hu, bind, Option.bind]

theorem map_name_setHandle (s : Lifetimes) (o : Nat) (handle : Option Nat) :
    (s.setHandle o handle).objects.map (·.name) = s.objects.map (·.name) := by
  rw [setHandle, List.map_map]
  refine List.map_congr_left fun x _ => ?_
  by_cases hx : x.name = o <;> simp [hx]

theorem mem_setHandle (h : (s.objects.map (·.name)).Nodup) (hx : x ∈ s.objects) (handle : Option Nat) :
    y ∈ (s.setHandle x.name handle).objects ↔ y = { x with handle } ∨ y ∈ s.objects ∧ y ≠ x := by
  simp only [setHandle, List.mem_map]
  constructor
  · rintro ⟨z, hz, rfl⟩
    by_cases hname : z.name = x.name
    · cases eq_of_name h hz hx hname
      exact .inl (if_pos rfl)
    · rw [if_neg hname]
      exact .inr ⟨hz, fun heq => hname (heq ▸ rfl)⟩
  · rintro (rfl | ⟨hy, hne⟩)
    · exact ⟨x, hx, if_pos rfl⟩
    · exact ⟨y, hy, if_neg fun hname => hne (eq_of_name h hy hx hname)⟩

theorem setHandle_self (h : (s.objects.map (·.name)).Nodup) (hx : x ∈ s.objects) :
    s.setHandle x.name x.handle = s := by
  have hmap : s.objects.map (fun y => if y.name = x.name then { y with handle := x.handle } else y) = s.objects := by
    conv => rhs; rw [← List.map_id s.objects]
    refine List.map_congr_left fun y hy => ?_
    by_cases hname : y.name = x.name
    · cases eq_of_name h hy hx hname
      exact if_pos rfl
    · exact if_neg hname
  rw [setHandle, hmap]

theorem name_ne_of_find (h : s.find o = none) (hx : x ∈ s.objects) : x.name ≠ o := by
  intro hname
  have hsome := find_isSome_iff.mpr ⟨x, hx, hname⟩
  rw [h] at hsome
  cases hsome

theorem placed_empty (s : Lifetimes) (o : Nat) (place : Option Nat) :
    Placed { s with objects := ⟨o, place, none⟩ :: s.objects } = s.Placed := by
  funext f p
  simp [Placed]

theorem Sound.empty (hs : s.Sound) (hfree : s.Free o place) :
    Sound { s with objects := ⟨o, place, none⟩ :: s.objects } := by
  refine ⟨⟨?_, ?_, hs.distinct.books⟩, ?_, ?_, ?_, hs.counted⟩
  · refine List.nodup_cons.mpr ⟨fun hmem => ?_, hs.distinct.names⟩
    obtain ⟨x, hx, hname⟩ := List.mem_map.mp hmem
    exact name_ne_of_find hfree.1 hx hname
  · rintro x (_ | ⟨_, hx⟩) y (_ | ⟨_, hy⟩) f hxf hyf
    · rfl
    · cases hxf
    · cases hyf
    · exact hs.distinct.owners x hx y hy f hxf hyf
  · rintro x (_ | ⟨_, hx⟩) f hplace
    · exact hfree.2 f hplace
    · exact hs.placed x hx f hplace
  · rintro x (_ | ⟨_, hx⟩) f hxf
    · cases hxf
    · exact hs.held x hx f hxf
  · rw [placed_empty]
    exact hs.rooted

/-- The frame that a call makes. -/
theorem Sound.call (hs : s.Sound) (hfree : s.Free o place) :
    Sound { s with objects := ⟨o, place, some s.fresh⟩ :: s.objects, frames := s.fresh :: s.frames } := by
  have hnew : s.fresh ∉ s.frames ++ s.destroyed := fun hmem => lt_irrefl _ ((hs.counted _).mp hmem)
  have hnew' : s.fresh ∉ s.frames := fun hmem => hnew (List.mem_append_left _ hmem)
  have hat : ∀ f p, s.Placed f p →
      Placed { s with objects := ⟨o, place, some s.fresh⟩ :: s.objects, frames := s.fresh :: s.frames } f p := by
    rintro f p ⟨hf, x, hx, hxf⟩
    exact ⟨List.mem_cons_of_mem _ hf, x, List.mem_cons_of_mem _ hx, hxf⟩
  refine ⟨⟨?_, ?_, List.nodup_cons.mpr ⟨hnew, hs.distinct.books⟩⟩, ?_, ?_, ?_, ?_⟩
  · refine List.nodup_cons.mpr ⟨fun hmem => ?_, hs.distinct.names⟩
    obtain ⟨x, hx, hname⟩ := List.mem_map.mp hmem
    exact name_ne_of_find hfree.1 hx hname
  · rintro x (_ | ⟨_, hx⟩) y (_ | ⟨_, hy⟩) f hxf hyf
    · rfl
    · cases hxf
      exact absurd (hs.held y hy _ hyf) hnew'
    · cases hyf
      exact absurd (hs.held x hx _ hxf) hnew'
    · exact hs.distinct.owners x hx y hy f hxf hyf
  · rintro x (_ | ⟨_, hx⟩) f hplace
    · exact List.mem_cons_of_mem _ (hfree.2 f hplace)
    · exact List.mem_cons_of_mem _ (hs.placed x hx f hplace)
  · rintro x (_ | ⟨_, hx⟩) f hxf
    · cases hxf
      exact List.mem_cons_self
    · exact List.mem_cons_of_mem _ (hs.held x hx f hxf)
  · rintro f (_ | ⟨_, hf⟩)
    · cases place with
      | none => exact .outside ⟨List.mem_cons_self, _, List.mem_cons_self, rfl, rfl⟩
      | some g =>
          have hg := (hs.rooted g (hfree.2 g rfl)).congr fun e p _ => hat e p
          exact .inside ⟨List.mem_cons_self, _, List.mem_cons_self, rfl, rfl⟩ hg
    · exact (hs.rooted f hf).congr fun e p _ => hat e p
  · intro f
    rw [List.cons_append, List.mem_cons, hs.counted f]
    simp only [fresh, List.length_cons]
    omega

/-- `destroy` leaves the object, which owns nothing then. -/
theorem Sound.destroy (hs : s.Sound) (hx : x ∈ s.objects) :
    ∃ v, s.destroy x.name = some v ∧ v.Sound ∧ { x with handle := none } ∈ v.objects ∧
      (∀ y, y.name ≠ x.name → (y ∈ v.objects ↔ y ∈ s.objects ∧ ¬s.Inside x y.place)) ∧
      (∀ f, v.Within f x.place ↔ s.Within f x.place) ∧ ∀ f ∈ s.frames, f ∈ v.frames ↔ ¬s.Inside x (some f) := by
  obtain ⟨u, hu, hcut, hgone, hmem, hframes⟩ := hs.destroyFrame hx
  have hxu : x ∈ u.objects := (hmem x hx).mpr (hs.not_inside hx)
  have hnames := (hcut.distinct hs.distinct).names
  let t : Lifetimes := { u with objects := u.objects.filter (·.name ≠ x.name) }
  have ht : Cut none s t := hcut.dropped hs.distinct hx hgone
  have hplace : ∀ f, x.place = some f → f ∈ t.frames := by
    intro f hf
    by_contra hft
    exact hcut.emptied f (hs.placed x hx f hf) hft x hxu hf
  have hfree : t.Free x.name x.place := by
    refine ⟨Option.not_isSome_iff_eq_none.mp fun hsome => ?_, hplace⟩
    obtain ⟨y, hy, hname⟩ := find_isSome_iff.mp hsome
    exact of_decide_eq_true (List.mem_filter.mp hy).2 hname
  let v : Lifetimes := u.setHandle x.name none
  have hmemv : ∀ y, y ∈ v.objects ↔ y = { x with handle := none } ∨ y ∈ t.objects := by
    intro y
    rw [mem_setHandle hnames hxu, List.mem_filter]
    refine or_congr_right (and_congr_right fun hy => ?_)
    rw [decide_eq_true_iff]
    exact not_congr ⟨fun heq => heq ▸ rfl, eq_of_name hnames hy hxu⟩
  have hv : v.Sound := by
    refine ((hs.cut ht).empty hfree).congr ?_ (fun y => (hmemv y).trans List.mem_cons.symm) rfl rfl
    rw [map_name_setHandle]
    exact hnames
  refine ⟨v, ?_, hv, (hmemv _).mpr (.inl rfl), fun y hname => ?_, fun f => ?_, hframes⟩
  · cases hhandle : x.handle with
    | none =>
        rw [hhandle] at hu
        cases hu
        have hself := setHandle_self hnames hxu
        rw [hhandle] at hself
        simp only [Lifetimes.destroy, find_eq hs.distinct.names hx, hhandle, bind, Option.bind]
        exact congrArg some hself.symm
    | some f =>
        rw [hhandle] at hu
        have hdestroy : Lifetimes.destroyFrame s.frames.length s f = some u := hu
        simp only [Lifetimes.destroy, find_eq hs.distinct.names hx, hhandle, bind, Option.bind, hdestroy,
          find_eq hnames hxu]
        rfl
  · rw [hmemv, List.mem_filter]
    constructor
    · rintro (rfl | ⟨hy, -⟩)
      · exact absurd rfl hname
      · exact ⟨hcut.objects.subset hy, (hmem y (hcut.objects.subset hy)).mp hy⟩
    · rintro ⟨hy, hin⟩
      exact .inr ⟨(hmem y hy).mpr hin, decide_eq_true hname⟩
  · have hplaced : v.Placed = t.Placed := by
      rw [← placed_empty t x.name x.place]
      exact placed_congr (fun y => (hmemv y).trans List.mem_cons.symm) rfl
    rw [Within, hplaced]
    exact ht.within_iff hs hplace

section Take

variable (hmem : ∀ z, z ∈ t.objects ↔
  z = { y with handle := none } ∨ z = { x with handle := y.handle } ∨ z ∈ s.objects ∧ z ≠ x ∧ z ≠ y)
include hmem

end Take

theorem sound_start : Sound {} where
  distinct := ⟨List.nodup_nil, fun x hx => absurd hx List.not_mem_nil, List.nodup_nil⟩
  placed x hx := absurd hx List.not_mem_nil
  held x hx := absurd hx List.not_mem_nil
  rooted f hf := absurd hf List.not_mem_nil
  counted f := by simp [fresh]

end Lifetimes

namespace Executing

end Executing

open Lifetimes Executing

/-- A task that is assigned what its own frame holds: the source is gone before its handle is read. -/
example : run step (some {}) [.op (.call 0 none), .op (.call 1 (some 0)), .op (.assign 0 1)] = some none := by
  decide +kernel

/-- A body that destroys the task it runs for. -/
example : run step (some {}) [.op (.call 0 none), .resume 0, .op (.drop 0)] = some none := by decide +kernel

end CoroRpc.Coro

import Mathlib.Logic.Basic

namespace CoroRpc.Forest

variable {α : Type}

/-- `At x none` says that `x` stands outside, `At x (some z)` that it stands in `z`. This is `y` and what stands
in it at any depth. -/
inductive Under (At : α → Option α → Prop) (y : α) : α → Prop
  | self : Under At y y
  | inside {x z : α} (h : At x (some z)) (hz : Under At y z) : Under At y x

inductive Rooted (At : α → Option α → Prop) : α → Prop
  | outside {x : α} (h : At x none) : Rooted At x
  | inside {x z : α} (h : At x (some z)) (hz : Rooted At z) : Rooted At x

variable {At Bt : α → Option α → Prop} {x y z : α}

theorem Under.trans (hy : Under At x y) (hz : Under At y z) : Under At x z := by
  induction hz with
  | self => exact hy
  | inside h _ ih => exact .inside h ih

/-- What stands under `x` keeps doing so when the places from `y` outwards stay. -/
theorem Under.congr (h : Under At x y) (hat : ∀ z p, Under At z y → At z p → Bt z p) : Under Bt x y := by
  induction h with
  | self => exact .self
  | inside h _ ih => exact .inside (hat _ _ .self h) (ih fun z p hz => hat z p (.inside h hz))

/-- Nor does it matter where `x` itself is. -/
theorem Under.moved (h : Under At x y) (hat : ∀ z p, z ≠ x → At z p → Bt z p) : Under Bt x y := by
  induction h with
  | self => exact .self
  | @inside w z h _ ih =>
      by_cases hw : w = x
      · exact hw ▸ .self
      · exact .inside (hat w (some z) hw h) ih

theorem Under.mono (h : Under At x y) (hat : ∀ z p, At z p → Bt z p) : Under Bt x y :=
  h.congr fun z p _ => hat z p

theorem Rooted.congr (h : Rooted At x) (hat : ∀ z p, Under At z x → At z p → Bt z p) : Rooted Bt x := by
  induction h with
  | outside h => exact .outside (hat _ _ .self h)
  | inside h _ ih => exact .inside (hat _ _ .self h) (ih fun z p hz => hat z p (.inside h hz))

/-- Nothing that is rooted stands in itself. -/
theorem Rooted.not_under (h : Rooted At x) (hunique : ∀ y p q, At y p → At y q → p = q) (hx : At x (some z)) :
    ¬Under At x z := by
  induction h generalizing z with
  | outside h => cases hunique _ _ _ h hx
  | @inside x w h _ ih =>
      cases hunique _ _ _ h hx
      intro hu
      cases hu with
      | self => exact ih h .self
      | inside hw hu => exact ih hw ((Under.inside h .self).trans hu)

/-- When only `y` is moved, to where it is rooted, all stay rooted. -/
theorem Rooted.moved (h : Rooted At x) (hy : Rooted Bt y) (hat : ∀ w p, w ≠ y → At w p → Bt w p) : Rooted Bt x := by
  induction h with
  | @outside x h =>
      by_cases hxy : x = y
      · exact hxy ▸ hy
      · exact .outside (hat x none hxy h)
  | @inside x w h _ ih =>
      by_cases hxy : x = y
      · exact hxy ▸ hy
      · exact .inside (hat x (some w) hxy h) ih

end CoroRpc.Forest

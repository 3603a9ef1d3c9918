import Mathlib
import PriorityRules.Comparison

/-! # What operators compute

Two numbers stand to each other in one of three ways, and which of them it is decides each operator.
A NaN stands in none of them to anything, and neither does a number that is missing.
-/

namespace PriorityRules

namespace Operator

/-- How a number may stand to a constant for the operator to hold. -/
def orders : Operator → List Ordering
  | .atLeast => [.gt, .eq]
  | .atMost => [.lt, .eq]
  | .differs => [.lt, .gt]
  | .above => [.gt]
  | .below => [.lt]
  | .equals => [.eq]

open Float.Model

theorem compare_swap (a b : UnpackedFloat) : b.compare a = (a.compare b).map Ordering.swap := by
  have hint (x y : Int) : compare y x = (compare x y).swap := Std.OrientedCmp.eq_swap
  have hnat (m n : Nat) : compare n m = (compare m n).swap := Std.OrientedCmp.eq_swap
  rcases a with s | _ | s | ⟨s, m, x, hm⟩ <;> rcases b with t | _ | t | ⟨t, n, y, hn⟩ <;>
    (try cases s) <;> (try cases t) <;> try rfl
  -- what is left is two finite numbers of one sign
  all_goals
    simp only [UnpackedFloat.compare, Option.map_some, Ordering.swap_then, hint y x, hnat n m,
      Ordering.swap_swap]

theorem compare_eq_none_iff (a b : UnpackedFloat) : a.compare b = none ↔ a.isNaN ∨ b.isNaN := by
  rcases a with s | _ | s | ⟨s, m, x, hm⟩ <;> rcases b with t | _ | t | ⟨t, n, y, hn⟩ <;>
    (try cases s) <;> (try cases t) <;> simp [UnpackedFloat.compare, UnpackedFloat.isNaN]

/-- An operator holds just if the number stands to the constant in one of its ways. Of a NaN nothing
holds but `!=`. -/
theorem holds_iff (op : Operator) (value constant : Float) :
    op.holds value constant ↔
      if value.isNaN ∨ constant.isNaN then op = .differs
      else ∃ order ∈ op.orders, value.toModel.compare constant.toModel = some order := by
  have hle (a b : Float) : decide (a ≤ b) = (a.toModel.compare b.toModel).any Ordering.isLE :=
    Bool.decide_eq_true.trans Bool.decide_eq_true
  have hlt (a b : Float) : decide (a < b) = (a.toModel.compare b.toModel == some .lt) :=
    Bool.decide_eq_true.trans Bool.decide_eq_true
  have heq (a b : Float) : (a == b) = (a.toModel.compare b.toModel == some .eq) := rfl
  have hswap : constant.toModel.compare value.toModel =
      (value.toModel.compare constant.toModel).map Ordering.swap := compare_swap _ _
  have hnone : value.toModel.compare constant.toModel = none ↔ value.isNaN ∨ constant.isNaN :=
    compare_eq_none_iff _ _
  simp only [← hnone]
  cases op <;> simp only [holds, hle, hlt, heq, bne, hswap] <;>
    rcases value.toModel.compare constant.toModel with _ | ⟨_ | _ | _⟩ <;> simp [orders]

end Operator

theorem Comparison.holds_of_missing {c : Comparison} {numbers : List Float}
    (h : numbers.length ≤ c.position) : c.holds numbers ↔ c.operator = .differs := by
  have hnan : Decimal.nan.isNaN = true := by decide
  rw [Comparison.holds, List.getElem?_eq_none h, Option.getD_none, Operator.holds_iff]
  simp only [hnan, true_or, if_true]

end PriorityRules

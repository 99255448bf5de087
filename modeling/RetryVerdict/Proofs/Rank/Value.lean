import RetryVerdict.Rank
import Mathlib.Algebra.Order.Ring.Rat
import Mathlib.Tactic.Linarith

/-!
# Rank — a rank is a dyadic rational

A step counts as a digit, `-1` for `before` and `1` for `after`, and the first step weighs a half,
each further one half of the one before it (`Rank.value`).  All values lie strictly between `-1`
and `1`, so what follows a step never outweighs the step.

* `compareSteps_eq_compare`: comparing step by step is comparing the values.
* `lt_iff_value_lt`, `le_iff_value_le`, `value_injective`: the order of ranks is that of their
  values, and a rank is known by its value.
* The instance `LinearOrder Rank` puts the whole theory of linear orders at hand.
-/

namespace RetryVerdict

/-- A step as a digit. -/
def Step.digit : Step → ℚ
  | before => -1
  | after => 1

namespace Rank

/-- The value of a list of steps: the first digit and the value of the others, halved. -/
def stepsValue : List Step → ℚ
  | [] => 0
  | s :: t => (s.digit + stepsValue t) / 2

/-- The value of a rank. -/
def value (r : Rank) : ℚ := stepsValue r.steps

/-! ### Values and the comparison of steps -/

/-- What follows a step is too light to make up for it. -/
theorem stepsValue_bounds : ∀ s : List Step, -1 < stepsValue s ∧ stepsValue s < 1
  | [] => by simp [stepsValue]
  | .before :: s | .after :: s => by
      obtain ⟨h₁, h₂⟩ := stepsValue_bounds s
      simp only [stepsValue, Step.digit]
      constructor <;> linarith

theorem stepsValue_before_neg (s : List Step) : stepsValue (.before :: s) < 0 := by
  obtain ⟨-, h⟩ := stepsValue_bounds s
  rw [stepsValue, Step.digit]
  linarith

theorem stepsValue_after_pos (s : List Step) : 0 < stepsValue (.after :: s) := by
  obtain ⟨h, -⟩ := stepsValue_bounds s
  rw [stepsValue, Step.digit]
  linarith

/-- A common first step does not matter. -/
theorem compare_stepsValue_cons (x : Step) (s t : List Step) :
    compare (stepsValue (x :: s)) (stepsValue (x :: t))
      = compare (stepsValue s) (stepsValue t) := by
  rcases lt_trichotomy (stepsValue s) (stepsValue t) with h | h | h
  · rw [compare_lt_iff_lt.mpr h, compare_lt_iff_lt, stepsValue, stepsValue]
    linarith
  · rw [compare_eq_iff_eq.mpr h, compare_eq_iff_eq, stepsValue, stepsValue, h]
  · rw [compare_gt_iff_gt.mpr h, compare_gt_iff_gt, stepsValue, stepsValue]
    linarith

/-- **Comparing step by step is comparing the values.** -/
theorem compareSteps_eq_compare :
    ∀ s t : List Step, compareSteps s t = compare (stepsValue s) (stepsValue t)
  | [], [] => (compare_eq_iff_eq.mpr rfl).symm
  -- at the first difference the sign decides, and a missing step stands for zero
  | [], .before :: t => (compare_gt_iff_gt.mpr (stepsValue_before_neg t)).symm
  | [], .after :: t => (compare_lt_iff_lt.mpr (stepsValue_after_pos t)).symm
  | .before :: s, [] => (compare_lt_iff_lt.mpr (stepsValue_before_neg s)).symm
  | .after :: s, [] => (compare_gt_iff_gt.mpr (stepsValue_after_pos s)).symm
  | .before :: s, .after :: t =>
      (compare_lt_iff_lt.mpr ((stepsValue_before_neg s).trans (stepsValue_after_pos t))).symm
  | .after :: s, .before :: t =>
      (compare_gt_iff_gt.mpr ((stepsValue_before_neg t).trans (stepsValue_after_pos s))).symm
  | .before :: s, .before :: t | .after :: s, .after :: t => by
      rw [compareSteps, compareSteps_eq_compare s t, compare_stepsValue_cons]

/-! ### The order of ranks -/

theorem compare_eq_compare_value (a b : Rank) : compare a b = compare a.value b.value :=
  compareSteps_eq_compare a.steps b.steps

/-- A rank is known by its value. -/
theorem value_injective : Function.Injective value := by
  intro a b h
  rw [← compare_eq_iff, compare_eq_compare_value, compare_eq_iff_eq]
  exact h

theorem lt_iff_value_lt {a b : Rank} : a < b ↔ a.value < b.value := by
  rw [← compare_lt_iff_lt, ← compare_eq_compare_value]
  exact Iff.rfl

theorem le_iff_value_le {a b : Rank} : a ≤ b ↔ a.value ≤ b.value := by
  rw [← compare_le_iff_le, ← compare_eq_compare_value]
  exact Ordering.isLE_iff_ne_gt

instance : LinearOrder Rank where
  le_refl a := le_iff_value_le.mpr le_rfl
  le_trans a b c h₁ h₂ :=
    le_iff_value_le.mpr ((le_iff_value_le.mp h₁).trans (le_iff_value_le.mp h₂))
  le_antisymm a b h₁ h₂ :=
    value_injective (le_antisymm (le_iff_value_le.mp h₁) (le_iff_value_le.mp h₂))
  le_total a b := by
    rw [le_iff_value_le, le_iff_value_le]
    exact le_total a.value b.value
  lt_iff_le_not_ge a b := by
    rw [lt_iff_value_lt, le_iff_value_le, le_iff_value_le]
    exact lt_iff_le_not_ge
  toDecidableLE := inferInstance
  toDecidableLT := inferInstance
  toDecidableEq := inferInstance
  compare_eq_compareOfLessAndEq a b := by
    rw [compareOfLessAndEq]
    cases h : compare a b with
    | lt =>
        have hlt : a < b := h
        rw [if_pos hlt]
    | eq =>
        have hlt : ¬ a < b := fun h' => by cases h.symm.trans h'
        rw [if_neg hlt, if_pos (compare_eq_iff.mp h)]
    | gt =>
        have hlt : ¬ a < b := fun h' => by cases h.symm.trans h'
        have hne : a ≠ b := fun h' => by cases h.symm.trans (compare_eq_iff.mpr h')
        rw [if_neg hlt, if_neg hne]

end Rank

end RetryVerdict

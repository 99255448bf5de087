import RetryVerdict.Classifier.Shipped
import RetryVerdict.Proofs.Rank.Value
import Mathlib.Algebra.BigOperators.Field
import Mathlib.Algebra.BigOperators.Fin
import Mathlib.Tactic.Ring

/-!
# Rank — ranks made from one another, and the sums they stand for

Every rank is the standard one followed by steps, and a rank made from a slot is one of them
(`follow_eq`, `standard_follow_steps`).  What is made from a rank stays on the side of its first step
(`follow_before_lt`, `lt_follow_after`).

The value of a rank is a sum over its steps: the digit of the step at place `i`, counted from one,
weighs `2 ^ (-i)` (`stepsValue_eq_sum`).  So one more step moves the value by the weight of the next
place (`value_move`), however many steps came before.

`order_of_values` says what that means for the order: `compare` and each of the six relations on
ranks are those of the values, and ranks are the same only if they were made by the same steps.
-/

namespace RetryVerdict.Rank

/-! ### Ranks made from one another -/

theorem steps_follow (r : Rank) (path : List Step) : (r.follow path).steps = r.steps ++ path := by
  induction path generalizing r with
  | nil => exact (List.append_nil r.steps).symm
  | cons s path ih =>
      have h : r.follow (s :: path) = (r.move s).follow path := rfl
      rw [h, ih, move, List.append_assoc, List.singleton_append]

/-- To follow a path from `r` is to follow it from the standard rank, after the steps of `r`. -/
theorem follow_eq (r : Rank) (path : List Step) :
    r.follow path = standard.follow (r.steps ++ path) := by
  have h : (r.follow path).steps = (standard.follow (r.steps ++ path)).steps := by
    rw [steps_follow, steps_follow]
    rfl
  cases hr : r.follow path
  cases hs : standard.follow (r.steps ++ path)
  rw [hr, hs] at h
  exact congrArg mk h

theorem standard_follow_steps (r : Rank) : standard.follow r.steps = r := by
  have h := follow_eq r []
  rw [List.append_nil] at h
  exact h.symm

/-- Whatever follows, a rank that is made by a step `before` stays below. -/
theorem compareSteps_append_before :
    ∀ s w : List Step, compareSteps (s ++ .before :: w) s = .lt
  | [], _ => rfl
  | .before :: s, w | .after :: s, w => compareSteps_append_before s w

/-- Whatever follows, a rank that is made by a step `after` stays above. -/
theorem compareSteps_append_after :
    ∀ s w : List Step, compareSteps s (s ++ .after :: w) = .lt
  | [], _ => rfl
  | .before :: s, w | .after :: s, w => compareSteps_append_after s w

theorem follow_before_lt (r : Rank) (path : List Step) : r.before.follow path < r := by
  have h : compareSteps (r.before.follow path).steps r.steps = .lt := by
    rw [steps_follow, before, move, List.append_assoc]
    exact compareSteps_append_before r.steps path
  exact h

theorem lt_follow_after (r : Rank) (path : List Step) : r < r.after.follow path := by
  have h : compareSteps r.steps (r.after.follow path).steps = .lt := by
    rw [steps_follow, after, move, List.append_assoc]
    exact compareSteps_append_after r.steps path
  exact h

/-! ### The value as a sum -/

/-- What the digit at a place weighs, the first place being place one. -/
def weight (i : ℕ) : ℚ := 2 ^ (-(i : ℤ))

theorem weight_pos (i : ℕ) : 0 < weight i := zpow_pos two_pos _

/-- Each place weighs half as much as the one before it. -/
theorem weight_succ (i : ℕ) : weight (i + 1) = weight i / 2 := by
  rw [weight, weight, Nat.cast_add, Nat.cast_one, neg_add, zpow_add₀ two_ne_zero, zpow_neg_one,
    div_eq_mul_inv]

theorem weight_one : weight 1 = 1 / 2 := by
  rw [weight_succ, weight, Nat.cast_zero, neg_zero, zpow_zero]

/-- **The value is the sum of the digits, each with the weight of its place.** -/
theorem stepsValue_eq_sum (s : List Step) :
    stepsValue s = ∑ i : Fin s.length, s[i].digit * weight (i + 1) := by
  induction s with
  | nil => rfl
  | cons x s ih =>
      have hsum : ∑ i : Fin (x :: s).length, (x :: s)[i].digit * weight (i + 1)
          = x.digit * weight 1 + ∑ i : Fin s.length, s[i].digit * weight (i + 1 + 1) :=
        Fin.sum_univ_succ _
      have htail : ∑ i : Fin s.length, s[i].digit * weight (i + 1 + 1)
          = (∑ i : Fin s.length, s[i].digit * weight (i + 1)) / 2 := by
        rw [Finset.sum_div]
        refine Finset.sum_congr rfl fun i _ => ?_
        rw [weight_succ, mul_div_assoc]
      rw [stepsValue, ih, hsum, htail, weight_one]
      ring

/-- A step at the end weighs what the next place weighs. -/
theorem stepsValue_concat (s : List Step) (x : Step) :
    stepsValue (s ++ [x]) = stepsValue s + x.digit * weight (s.length + 1) := by
  induction s with
  | nil =>
      simp only [List.nil_append, stepsValue, List.length_nil, zero_add, weight_one, add_zero,
        mul_one_div]
  | cons y s ih =>
      rw [List.cons_append, stepsValue, stepsValue, ih, List.length_cons,
        weight_succ (s.length + 1)]
      ring

/-! ### One step further -/

theorem value_move (r : Rank) (s : Step) :
    (r.move s).value = r.value + s.digit * weight (r.steps.length + 1) :=
  stepsValue_concat r.steps s

theorem value_before (r : Rank) : r.before.value = r.value - weight (r.steps.length + 1) := by
  rw [before, value_move, Step.digit, neg_one_mul, ← sub_eq_add_neg]

theorem value_after (r : Rank) : r.after.value = r.value + weight (r.steps.length + 1) := by
  rw [after, value_move, Step.digit, one_mul]

/-! ### The six relations -/

theorem compare_eq_lt_iff {p q : Rank} : compare p q = .lt ↔ p.value < q.value := by
  rw [compare_eq_compare_value, compare_lt_iff_lt]

theorem compare_eq_gt_iff {p q : Rank} : compare p q = .gt ↔ p.value > q.value := by
  rw [compare_eq_compare_value, compare_gt_iff_gt]

theorem eq_iff_value_eq {p q : Rank} : p = q ↔ p.value = q.value :=
  value_injective.eq_iff.symm

/-- Ranks made by the same steps from the standard rank are the same, and only those. -/
theorem standard_follow_beq_iff {s t : List Step} :
    (standard.follow s == standard.follow t) = true ↔ s = t := by
  rw [beq_iff_eq]
  constructor
  · intro h
    have hs := congrArg steps h
    rw [steps_follow, steps_follow] at hs
    exact hs
  · rintro rfl
    rfl

/-- **The order of ranks is that of the dyadic rationals.**  Every rank is made from the standard
one by steps, and one made from a slot by the steps of the slot and its own.  Its value is the sum
of its digits, each weighed with the power of two for its place.  `compare` and the six relations
are those of the values, so `<` is a strict linear order; ranks are the same if the same steps made
them; and at every depth the next step moves the value by the weight of the next place. -/
theorem order_of_values :
    (∀ p : Rank, ∃ s, p = standard.follow s) ∧
    (∀ (slot : Slot) (w : List Step),
      slot.rank.follow w = standard.follow (slot.rank.steps ++ w)) ∧
    (∀ s : List Step, (standard.follow s).value
      = ∑ i : Fin s.length, s[i].digit * (2 : ℚ) ^ (-((i + 1 : ℕ) : ℤ))) ∧
    (∀ p q : Rank,
      (compare p q = .lt ↔ p.value < q.value) ∧ (compare p q = .eq ↔ p.value = q.value) ∧
      (compare p q = .gt ↔ p.value > q.value) ∧
      ((p == q) = true ↔ p.value = q.value) ∧ ((p != q) = true ↔ p.value ≠ q.value) ∧
      (p < q ↔ p.value < q.value) ∧ (p ≤ q ↔ p.value ≤ q.value) ∧
      (p > q ↔ p.value > q.value) ∧ (p ≥ q ↔ p.value ≥ q.value)) ∧
    IsStrictTotalOrder Rank (· < ·) ∧
    (∀ s t : List Step, (standard.follow s == standard.follow t) = true ↔ s = t) ∧
    ∀ p : Rank,
      p.before.value = p.value - 2 ^ (-((p.steps.length + 1 : ℕ) : ℤ)) ∧
      p.before.value < p.value ∧ p.value < p.after.value ∧
      p.after.value = p.value + 2 ^ (-((p.steps.length + 1 : ℕ) : ℤ)) := by
  refine ⟨fun p => ⟨p.steps, (standard_follow_steps p).symm⟩, fun slot w => follow_eq _ w,
    fun s => ?_, fun p q => ⟨compare_eq_lt_iff, ?_, compare_eq_gt_iff, ?_, ?_, lt_iff_value_lt,
      le_iff_value_le, lt_iff_value_lt, le_iff_value_le⟩, inferInstance,
    fun s t => standard_follow_beq_iff, fun p => ⟨value_before p, ?_, ?_, value_after p⟩⟩
  · rw [value, steps_follow]
    exact stepsValue_eq_sum s
  · rw [compare_eq_iff, eq_iff_value_eq]
  · rw [beq_iff_eq, eq_iff_value_eq]
  · rw [bne_iff_ne, ne_eq, eq_iff_value_eq]
  · rw [value_before]
    exact sub_lt_self _ (weight_pos _)
  · rw [value_after]
    exact lt_add_of_pos_right _ (weight_pos _)

/-- Steps from a slot stay between it and the next slot. -/
example : Slot.service.rank < Slot.service.rank.follow [.after, .before, .after] ∧
    Slot.service.rank.follow [.after, .before, .after] < Slot.modeled.rank := by decide

end RetryVerdict.Rank

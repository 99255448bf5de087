import RetryVerdict.Bytes

/-!
# Rank — where a classifier stands

A rank is made from another one: `r.before` is lower than `r`, `r.after` is higher, and both are
nearer to `r` than any rank that is not made from `r`.  So between two ranks there is always room
for a third.

A rank is the list of its steps from the standard rank.  `Rank.compareSteps` compares step by step,
and a rank that has no further step lies between those that go on with `before` and those that go
on with `after`.

`Rank.sortBy` sorts things by their rank and keeps the order of those of equal rank.
-/

namespace RetryVerdict

open Bytes (utf8)

/-- One step away from a rank. -/
inductive Step where
  | before
  | after
deriving DecidableEq, Repr

def Step.text : Step → Bytes
  | before => utf8 ".before"
  | after => utf8 ".after"

/-- The place of a classifier among the others. -/
structure Rank where
  /-- The steps from the standard rank, first step first. -/
  steps : List Step
deriving DecidableEq, Repr, Inhabited

namespace Rank

/-- Where a classifier stands if nothing is said about it. -/
def standard : Rank := ⟨[]⟩

/-- One step further. -/
def move (r : Rank) (s : Step) : Rank := ⟨r.steps ++ [s]⟩

/-- A rank just below. -/
def before (r : Rank) : Rank := r.move .before

/-- A rank just above. -/
def after (r : Rank) : Rank := r.move .after

/-- Takes the steps in turn. -/
def follow (r : Rank) (path : List Step) : Rank := path.foldl move r

/-! ### Order -/

/-- The first difference decides; a missing step lies between the two steps. -/
def compareSteps : List Step → List Step → Ordering
  | [], [] => .eq
  | [], .before :: _ => .gt
  | [], .after :: _ => .lt
  | .before :: _, [] => .lt
  | .after :: _, [] => .gt
  | .before :: _, .after :: _ => .lt
  | .after :: _, .before :: _ => .gt
  | .before :: s, .before :: t => compareSteps s t
  | .after :: s, .after :: t => compareSteps s t

/-- Steps compare equal only to themselves. -/
theorem compareSteps_eq_iff : ∀ {s t : List Step}, compareSteps s t = .eq ↔ s = t
  | [], [] => by simp [compareSteps]
  | [], .before :: _ | [], .after :: _ => by simp [compareSteps]
  | .before :: _, [] | .after :: _, [] => by simp [compareSteps]
  | .before :: _, .after :: _ | .after :: _, .before :: _ => by simp [compareSteps]
  | .before :: s, .before :: t | .after :: s, .after :: t => by
    simp [compareSteps, compareSteps_eq_iff (s := s) (t := t)]

instance : Ord Rank := ⟨fun a b => compareSteps a.steps b.steps⟩

/-- Ranks are the same when neither is higher. -/
instance : BEq Rank := beqOfOrd

theorem compare_eq_iff {a b : Rank} : compare a b = .eq ↔ a = b := by
  cases a; cases b
  simp [compare, compareSteps_eq_iff]

instance : LawfulBEq Rank where
  rfl := by simp [BEq.beq, compare_eq_iff]
  eq_of_beq h := compare_eq_iff.mp (by simpa [BEq.beq] using h)

instance : LT Rank := ltOfOrd

instance : LE Rank := leOfOrd

/-! ### Things that have a rank -/

/-- Puts `x` in front of the first element of higher rank. -/
def insertBy {α : Type} (rank : α → Rank) (x : α) : List α → List α
  | [] => [x]
  | y :: ys => if rank x < rank y then x :: y :: ys else y :: insertBy rank x ys

/-- Ascending by rank; elements of equal rank keep their order. -/
def sortBy {α : Type} (rank : α → Rank) (xs : List α) : List α :=
  xs.foldl (fun sorted x => insertBy rank x sorted) []

/-! ### Text -/

/-- The steps from the standard rank in words. -/
def text (r : Rank) : Bytes := utf8 "default" ++ r.steps.flatMap Step.text

end Rank

end RetryVerdict

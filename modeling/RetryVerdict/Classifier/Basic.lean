import RetryVerdict.Attempt
import RetryVerdict.Rank

/-!
# Classifier — who is asked

A classifier is asked about an attempt, and is told the verdict of those before it.  It may answer
with a verdict, or not at all.  No answer and the answer `undecided` are both abstentions; the
other answers are *opinions*.

A `Call` is one question with its answer: the evidence that a walk leaves.
-/

namespace RetryVerdict

open Bytes (utf8)

/-- Where a classifier comes from. -/
inductive Origin where
  /-- One of those that the library brings. -/
  | shipped
  /-- Given by the user. -/
  | supplied
deriving DecidableEq, Repr

/-- A judge of finished attempts. -/
structure Classifier where
  /-- For diagnostics; neither order nor verdict depends on it. -/
  name : Bytes
  rank : Rank := .standard
  origin : Origin := .supplied
  /-- The answer about an attempt, given the verdict so far. -/
  answer : Attempt → Verdict → Option Verdict

/-- An answer that is an opinion. -/
def opinionOf : Option Verdict → Option Verdict
  | none | some .undecided => none
  | some v => some v

/-- One question and its answer. -/
structure Call where
  classifier : Classifier
  /-- The verdict of those asked before. -/
  preceding : Verdict
  answer : Option Verdict

namespace Call

/-- The opinion given. -/
def opinion? (c : Call) : Option Verdict := opinionOf c.answer

/-- The classifier abstained. -/
def abstained (c : Call) : Bool := c.opinion?.isNone

end Call

namespace Classifier

/-- Asks the classifier. -/
def ask (k : Classifier) (a : Attempt) (preceding : Verdict) : Call :=
  ⟨k, preceding, k.answer a preceding⟩

/-- A supplied classifier, refused if there is no function to ask. -/
def ofFunction (name : Bytes) (rank : Rank) :
    Option (Attempt → Verdict → Option Verdict) → Except Fault Classifier
  | some f => .ok { name, rank, answer := f }
  | none => .error (.noFunction name)

/-- The name and the rank's text. -/
def label (k : Classifier) : Bytes × Bytes := (k.name, k.rank.text)

end Classifier

/-- Name of the classifier and verdict so far, for each call of a supplied classifier. -/
def suppliedCalls (calls : List Call) : List (Bytes × Bytes) :=
  (calls.filter (·.classifier.origin == .supplied)).map
    fun c => (c.classifier.name, c.preceding.text)

end RetryVerdict

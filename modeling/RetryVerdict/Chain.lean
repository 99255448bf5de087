import RetryVerdict.Layer
import RetryVerdict.Log

/-!
# Chain — classifiers asked in turn

The walk asks one classifier after the other, and tells each the verdict so far.  An opinion
becomes the new verdict, an abstention leaves it, and a veto ends the walk.

A `Run` is the outcome with its evidence: the calls made, and what was recorded of them at the
level of the logger.

A `Chain` is what a frozen configuration comes to: its classifiers in the order in which they are
asked.  It no longer depends on the layers that it was made from.
-/

namespace RetryVerdict

open Bytes (utf8)

/-! ### Wording -/

/-- An opinion takes the place of the verdict so far. -/
def Call.overrideText (c : Call) (opinion : Verdict) : Bytes :=
  utf8 "classifier '" ++ c.classifier.name ++ utf8 "' (" ++ c.classifier.rank.text
    ++ utf8 ") overrides " ++ c.preceding.text ++ utf8 " with " ++ opinion.text

/-- A veto. -/
def Call.vetoText (c : Call) : Bytes :=
  utf8 "retry forbidden by classifier '" ++ c.classifier.name ++ utf8 "'"

/-- The end of a walk without a veto. -/
def Verdict.closingText (v : Verdict) : Bytes := utf8 "classified attempt as " ++ v.text

/-! ### The walk -/

/-- What a walk leaves. -/
structure Run where
  verdict : Verdict
  /-- The questions asked, in order. -/
  calls : List Call := []
  /-- The messages recorded, in order. -/
  log : List Entry := []

namespace Run

/-- The run with a call and its messages put before it. -/
def preceded (r : Run) (c : Call) (log : List Entry := []) : Run :=
  { r with calls := c :: r.calls, log := log ++ r.log }

end Run

/-- Asks the classifiers in order, from the verdict `v` on. -/
def walk (l : Level) (a : Attempt) (v : Verdict) : List Classifier → Run
  | [] => { verdict := v, log := l.record .debug v.closingText }
  | k :: ks =>
    let c := k.ask a v
    match c.opinion? with
    | none => (walk l a v ks).preceded c
    | some .forbid =>
      { verdict := .forbid, calls := [c],
        log := l.record .trace (c.overrideText .forbid) ++ l.record .debug c.vetoText }
    | some w => (walk l a w ks).preceded c (l.record .trace (c.overrideText w))

/-- Asks the classifiers about an attempt. -/
def judge (l : Level) (ks : List Classifier) (a : Attempt) : Run := walk l a .undecided ks

/-! ### Chains -/

/-- Classifiers in the order in which they are asked. -/
structure Chain where
  classifiers : List Classifier := []

namespace Chain

/-- The chain of a base layer, and of a layer over it if there is one. -/
def ofLayers (base : Layer) (upper : Option Layer) : Chain :=
  match upper with
  | none => ⟨base.classifiers⟩
  | some l => ⟨base.stack l⟩

def size (c : Chain) : Nat := c.classifiers.length

def isEmpty (c : Chain) : Bool := c.classifiers.isEmpty

/-- The names, in the order in which the classifiers are asked. -/
def names (c : Chain) : List Bytes := c.classifiers.map (·.name)

/-- Asks the classifiers about an attempt, with a logger of this level. -/
def judge (c : Chain) (l : Level) (a : Attempt) : Run :=
  RetryVerdict.judge l c.classifiers a

end Chain

end RetryVerdict

import RetryVerdict.Classifier.Shipped

/-!
# Layer — the classifiers of one level of configuration

A layer holds classifiers in ascending order of rank, those of equal rank in order of arrival.  It
can be changed until it is frozen.  A refused change leaves it as it was; a frozen layer is refused
before its argument is looked at.

`Layer.stack` puts an upper layer over a lower one.  An upper layer that ever replaced its
classifiers stands alone; otherwise the classifiers of both are sorted together, and at equal rank
those of the lower layer go first.
-/

namespace RetryVerdict

/-- One level of configuration. -/
structure Layer where
  /-- The classifiers, in ascending order of rank. -/
  classifiers : List Classifier := []
  /-- The layer has replaced its classifiers, so it hides the layers below. -/
  replaced : Bool := false
  frozen : Bool := false

namespace Layer

/-- Adds a classifier behind those of equal rank. -/
def add (l : Layer) (k : Option Classifier) : Except Fault Layer :=
  if l.frozen then .error (.frozen .add)
  else match k with
    | none => .error (.absent .add)
    | some k => .ok { l with classifiers := Rank.insertBy Classifier.rank k l.classifiers }

/-- Adds classifiers one by one, up to the first that is refused. -/
def addAll (l : Layer) : List (Option Classifier) → Except Fault Unit × Layer
  | [] => (.ok (), l)
  | k :: ks =>
    match l.add k with
    | .ok l' => l'.addAll ks
    | .error e => (.error e, l)

/-- Puts these classifiers in the place of all others. -/
def replace (l : Layer) (ks : List (Option Classifier)) : Except Fault Layer :=
  if l.frozen then .error (.frozen .replace)
  else match ks.mapM id with
    | none => .error (.absent .replace)
    | some ks => .ok { l with classifiers := Rank.sortBy Classifier.rank ks, replaced := true }

/-- Forbids every further change. -/
def freeze (l : Layer) : Layer := { l with frozen := true }

/-- The classifiers of `upper` put over `lower`. -/
def stack (lower upper : Layer) : List Classifier :=
  if upper.replaced then upper.classifiers
  else Rank.sortBy Classifier.rank (lower.classifiers ++ upper.classifiers)

/-- The layer with the shipped classifiers. -/
def standard : Layer := (addAll {} (Classifier.shipped.map some)).2

/-! ### Histories -/

/-- One change, as data. -/
inductive Edit where
  | add (k : Option Classifier)
  | replace (ks : List (Option Classifier))
  | freeze

/-- The layer after an edit, or why it is refused. -/
def edit (l : Layer) : Edit → Except Fault Layer
  | .add k => l.add k
  | .replace ks => l.replace ks
  | .freeze => .ok l.freeze

/-- The layer after an edit that may be refused. -/
def after (l : Layer) (e : Edit) : Layer :=
  match l.edit e with
  | .ok l' => l'
  | .error _ => l

/-- The layer after a history of edits. -/
def afterAll (l : Layer) (es : List Edit) : Layer := es.foldl after l

end Layer

end RetryVerdict

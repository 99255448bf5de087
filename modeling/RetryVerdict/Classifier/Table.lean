import RetryVerdict.Classifier.Basic

/-!
# Classifier — rules as data

A rule table is a list of clauses, each a guard with a reply.  The first clause whose guard holds
gives the answer; if there is none, the classifier abstains.
-/

namespace RetryVerdict

/-- What must hold of an attempt and of the verdict before: every part that is given. -/
structure Guard where
  /-- A response arrived with this status. -/
  status : Option Int64 := none
  /-- An error was parsed with this code. -/
  code : Option Bytes := none
  /-- A response arrived with a header field of this name. -/
  field : Option Bytes := none
  transport : Option TransportCode := none
  hasOutput : Option Bool := none
  unparseable : Option Bool := none
  preceding : Option Verdict := none
  precedingKind : Option Verdict.Kind := none
deriving DecidableEq, Repr

/-- The guard holds. -/
def Guard.holds (g : Guard) (a : Attempt) (preceding : Verdict) : Bool :=
  g.status.all (a.status? == some ·)
    && g.code.all (a.errorCode? == some ·)
    && g.field.all (fun name => a.response.any (·.fields.contains name))
    && g.transport.all (a.transport == ·)
    && g.hasOutput.all (a.hasOutput == ·)
    && g.unparseable.all (a.unparseable == ·)
    && g.preceding.all (preceding == ·)
    && g.precedingKind.all (preceding.kind == ·)

/-- What a clause answers. -/
inductive Clause.Reply where
  | abstain
  /-- The verdict before, once more. -/
  | echo
  | verdict (v : Verdict)
deriving DecidableEq, Repr

def Clause.Reply.answer (r : Clause.Reply) (preceding : Verdict) : Option Verdict :=
  match r with
  | abstain => none
  | echo => some preceding
  | verdict v => some v

/-- A guard with a reply. -/
structure Clause where
  guard : Guard := {}
  reply : Clause.Reply
deriving DecidableEq, Repr

/-- The answer of the first clause whose guard holds. -/
def Clause.answerAll (cs : List Clause) (a : Attempt) (preceding : Verdict) : Option Verdict := do
  let c ← cs.find? (·.guard.holds a preceding)
  c.reply.answer preceding

/-- The supplied classifier with these rules. -/
def Classifier.ofClauses (name : Bytes) (rank : Rank) (cs : List Clause) : Classifier :=
  { name, rank, answer := Clause.answerAll cs }

end RetryVerdict

import RetryVerdict.Decimal

/-!
# Verdict — whether to retry, and why

A verdict on a finished attempt is one of three: no opinion, a retry with its `Reason`, or a veto.
A reason has a `Category` of error, and a `Delay` when the failed party stated how long to wait.

A reason stands inside the retry verdict, so no other verdict carries one.  Equality is that of the
data: no delay and a delay of zero are different.
-/

namespace RetryVerdict

open Bytes (utf8)

/-! ### Categories -/

/-- What kind of error makes a retry worthwhile. -/
inductive Category where
  | transient
  | throttling
  | server
  | client
deriving DecidableEq, Repr, Inhabited

namespace Category

def text : Category → Bytes
  | transient => utf8 "Transient"
  | throttling => utf8 "Throttling"
  | server => utf8 "Server"
  | client => utf8 "Client"

/-- The category with this number. -/
def ofCode? : UInt8 → Option Category
  | 0 => some transient
  | 1 => some throttling
  | 2 => some server
  | 3 => some client
  | _ => none

/-- The text of the category with this number, if there is one. -/
def codeText (n : UInt8) : Bytes := ((ofCode? n).map text).getD (utf8 "Unknown")

end Category

/-! ### Reasons -/

/-- A stated waiting time. -/
structure Delay where
  millis : Int64
deriving DecidableEq, Repr

/-- The milliseconds, with their unit. -/
def Delay.text (d : Delay) : Bytes := Decimal.ofInt d.millis.toInt ++ utf8 "ms"

/-- Why a retry is indicated. -/
structure Reason where
  category : Category := .transient
  delay : Option Delay := none
deriving DecidableEq, Repr

/-- The category, and the delay if there is one. -/
def Reason.text (r : Reason) : Bytes :=
  utf8 "RetryableError(" ++ r.category.text
    ++ (match r.delay with
        | some d => utf8 ", retryAfter=" ++ d.text
        | none => [])
    ++ utf8 ")"

/-! ### Verdicts -/

/-- The opinion of one classifier, or of all of them together. -/
inductive Verdict where
  | undecided
  | retry (reason : Reason)
  | forbid
deriving DecidableEq, Repr, Inhabited

/-- A verdict without its reason. -/
inductive Verdict.Kind where
  | undecided
  | retry
  | forbid
deriving DecidableEq, Repr

def Verdict.Kind.text : Verdict.Kind → Bytes
  | undecided => utf8 "NoOpinion"
  | retry => utf8 "RetryIndicated"
  | forbid => utf8 "RetryForbidden"

namespace Verdict

def kind : Verdict → Kind
  | undecided => .undecided
  | retry _ => .retry
  | forbid => .forbid

def reason? : Verdict → Option Reason
  | retry r => some r
  | undecided | forbid => none

/-- Retry on an error of this category; no delay is stated. -/
def ofCategory (c : Category) : Verdict := retry ⟨c, none⟩

/-- Retry on an error of this category, after the stated delay. -/
def afterDelay (c : Category) (d : Delay) : Verdict := retry ⟨c, some d⟩

def text : Verdict → Bytes
  | retry r => Kind.retry.text ++ utf8 "(" ++ r.text ++ utf8 ")"
  | undecided => Kind.undecided.text
  | forbid => Kind.forbid.text

end Verdict

end RetryVerdict

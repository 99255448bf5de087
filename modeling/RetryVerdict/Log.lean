import RetryVerdict.Bytes

/-!
# Log — messages and the level that lets them through

A logger has a level, and a message is recorded when its own level is at least that.
-/

namespace RetryVerdict

open Bytes (utf8)

/-- How much a message matters, from least to most; `off` lets no message through. -/
inductive Level where
  | trace
  | debug
  | info
  | warn
  | err
  | critical
  | off
deriving DecidableEq, Repr

namespace Level

/-- The place of the level in the order. -/
def severity : Level → Nat
  | trace => 0
  | debug => 1
  | info => 2
  | warn => 3
  | err => 4
  | critical => 5
  | off => 6

/-- A logger of this level records messages of level `m`. -/
def admits (l m : Level) : Bool := l.severity ≤ m.severity

end Level

/-- A recorded message. -/
structure Entry where
  level : Level
  text : Bytes
deriving DecidableEq, Repr

/-- What a logger of this level records of one message. -/
def Level.record (l m : Level) (text : Bytes) : List Entry :=
  if l.admits m then [⟨m, text⟩] else []

/-- A logger. -/
structure Logger where
  level : Level := .info
deriving DecidableEq, Repr

/-- The name under which the library looks its logger up. -/
def Logger.name : Bytes := utf8 "http_retry"

end RetryVerdict

import RetryVerdict.Bytes

/-!
# Fault — what is refused

A fault is a cause.  Its wording is in `Fault.text`; `Fault.message` is what a caller is shown, and
ends before the first zero byte of a name that the wording quotes.
-/

namespace RetryVerdict

open Bytes (utf8)

/-- The operations that change the classifiers of a layer. -/
inductive Mutation where
  | add
  | replace
deriving DecidableEq, Repr

/-- The operation as messages name it. -/
def Mutation.text : Mutation → Bytes
  | .add => utf8 "ClassifierRegistry::add"
  | .replace => utf8 "ClassifierRegistry::replaceAll"

/-- Why an operation was refused. -/
inductive Fault where
  /-- The header name is empty or holds a byte that is no token byte. -/
  | badName (name : Bytes)
  /-- The value for this header name holds a control byte. -/
  | badValue (name : Bytes)
  /-- The layer is frozen. -/
  | frozen (m : Mutation)
  /-- No classifier was given where one is needed. -/
  | absent (m : Mutation)
  /-- The classifier of this name has no function to ask. -/
  | noFunction (name : Bytes)
deriving DecidableEq, Repr

namespace Fault

/-- The full wording. -/
def text : Fault → Bytes
  | badName name => utf8 "Headers: invalid header name '" ++ name ++ utf8 "'"
  | badValue name => utf8 "Headers: invalid value for header '" ++ name ++ utf8 "'"
  | frozen m => m.text ++ utf8 ": registry is frozen"
  | absent m => m.text ++ utf8 ": null classifier"
  | noFunction name => utf8 "FnClassifier: '" ++ name ++ utf8 "' has no classify function"

/-- The wording up to its first zero byte. -/
def message (f : Fault) : Bytes := Bytes.upToZero f.text

end Fault

end RetryVerdict

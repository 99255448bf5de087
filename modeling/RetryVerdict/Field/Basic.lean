import RetryVerdict.Decimal
import RetryVerdict.Fault

/-!
# Field — a case-insensitive multimap of header fields

The name of a field is a non-empty run of token bytes: letters, digits and fifteen punctuation
marks.  A value holds no control byte other than the tab; bytes from `0x80` up are allowed.

`Fields` keeps its fields in the order in which they were added, each under the lower case of its
name.  A look-up compares names up to ASCII case.

* `insert` and `append` refuse an invalid name or value with the fault that names it, the name
  first; `insertIfValid` and `appendIfValid` answer whether they took effect.  A refused update
  changes nothing.
* `put` replaces every value of a name, and the new field stands last.
* `ofLines` reads raw lines.  A line is a name, a colon and a value, with blanks allowed at either
  end and around the colon.  A *status line* opens a new block of header lines, and only the last
  block counts: the status line drops what was read before it.  Any other line that is no header
  line is passed over.
-/

namespace RetryVerdict

/-- A header field. -/
structure Field where
  name : Bytes
  value : Bytes
deriving DecidableEq, Repr

namespace Field

/-- The field with the name in lower case. -/
def ofParts (name value : Bytes) : Field := ⟨Bytes.lower name, value⟩

/-- The field's name is `name`, up to case. -/
def hasName (e : Field) (name : Bytes) : Bool := Bytes.sameFolded e.name name

/-! ### Valid names and values -/

/-- The punctuation marks of a token. -/
def tokenMarks : Bytes := Bytes.utf8 "!#$%&'*+-.^_`|~"

/-- A byte that may stand in a header name. -/
def isTokenByte (b : UInt8) : Bool :=
  Bytes.isLower b || Bytes.isUpper b || Decimal.isDigit b || tokenMarks.contains b

/-- A byte that no value may hold: below the space and no tab, or DEL. -/
def isControl (b : UInt8) : Bool := (b < 0x20 && b != 0x09) || b == 0x7f

/-- A header name. -/
def isName (s : Bytes) : Bool := !s.isEmpty && s.all isTokenByte

/-- A header value. -/
def isValue (s : Bytes) : Bool := !s.any isControl

end Field

/-! ### Fields -/

/-- Header fields, in order of arrival. -/
structure Fields where
  entries : List Field := []
deriving DecidableEq, Repr

namespace Fields

/-- The number of values, names counted as often as they occur. -/
def size (f : Fields) : Nat := f.entries.length

def isEmpty (f : Fields) : Bool := f.entries.isEmpty

/-- The first value of `name`. -/
def first? (f : Fields) (name : Bytes) : Option Bytes :=
  (f.entries.find? (·.hasName name)).map (·.value)

/-- Every value of `name`, in order of arrival. -/
def values (f : Fields) (name : Bytes) : List Bytes :=
  (f.entries.filter (·.hasName name)).map (·.value)

def contains (f : Fields) (name : Bytes) : Bool := (f.first? name).isSome

/-- Adds a value of `name` at the end. -/
def push (f : Fields) (name value : Bytes) : Fields := ⟨f.entries ++ [Field.ofParts name value]⟩

/-- Drops every value of `name`. -/
def without (f : Fields) (name : Bytes) : Fields := ⟨f.entries.filter (! ·.hasName name)⟩

/-- Makes `value` the only value of `name`. -/
def put (f : Fields) (name value : Bytes) : Fields := (f.without name).push name value

/-- Refuses an invalid name, then an invalid value. -/
def check (name value : Bytes) : Except Fault Unit :=
  if !Field.isName name then .error (.badName name)
  else if !Field.isValue value then .error (.badValue name)
  else .ok ()

/-- Replaces the values of `name`, and returns what was the first of them. -/
def insert (f : Fields) (name value : Bytes) : Except Fault (Option Bytes × Fields) := do
  check name value
  return (f.first? name, f.put name value)

/-- Adds a value of `name`, and returns whether it already had one. -/
def append (f : Fields) (name value : Bytes) : Except Fault (Bool × Fields) := do
  check name value
  return (f.contains name, f.push name value)

/-- Replaces the values of `name` if name and value are valid, and returns whether they are. -/
def insertIfValid (f : Fields) (name value : Bytes) : Bool × Fields :=
  if Field.isName name && Field.isValue value then (true, f.put name value) else (false, f)

/-- Adds a value of `name` if name and value are valid, and returns whether they are. -/
def appendIfValid (f : Fields) (name value : Bytes) : Bool × Fields :=
  if Field.isName name && Field.isValue value then (true, f.push name value) else (false, f)

/-- Drops every value of `name`, and returns the first of them. -/
def erase (f : Fields) (name : Bytes) : Option Bytes × Fields := (f.first? name, f.without name)

/-- Appends the fields in order, up to the first that is refused. -/
def ofPairs (pairs : List (Bytes × Bytes)) : Except Fault Fields :=
  pairs.foldlM (fun f p => do return (← f.append p.1 p.2).2) {}

end Fields

/-! ### Raw lines -/

/-- The colon between name and value. -/
def Field.colon : UInt8 := 0x3a

/-- What precedes the first colon of a line and what follows it, each without surrounding blanks. -/
def Field.split? (line : Bytes) : Option (Bytes × Bytes) :=
  let text := Bytes.strip line
  match text.dropWhile (· != colon) with
  | [] => none
  | _ :: rest => some (Bytes.strip (text.takeWhile (· != colon)), Bytes.strip rest)

/-- The field that a line holds, if name and value are valid. -/
def Field.ofLine? (line : Bytes) : Option Field := do
  let (name, value) ← split? line
  if isName name && isValue value then some (.ofParts name value) else none

namespace Fields

/-- How a status line begins. -/
def statusMark : Bytes := Bytes.utf8 "HTTP/"

/-- A line that opens a block: the mark, and at least one byte more. -/
def isStatusLine (line : Bytes) : Bool :=
  let text := Bytes.strip line
  statusMark.length < text.length && statusMark.isPrefixOf text

/-- Takes one more line into account. -/
def readLine (f : Fields) (line : Bytes) : Fields :=
  if isStatusLine line then {}
  else match Field.ofLine? line with
    | some e => ⟨f.entries ++ [e]⟩
    | none => f

/-- The fields of the last block of `lines`. -/
def ofLines (lines : List Bytes) : Fields := lines.foldl readLine {}

end Fields

end RetryVerdict

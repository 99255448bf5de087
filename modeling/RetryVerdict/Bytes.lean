/-!
# Bytes — text as it travels

Header names and values, error codes, classifier names and messages are byte strings: a header
value may hold any byte from `0x80` up, and nothing here decodes it.  The fixed words of the
library are ASCII literals (`Bytes.utf8`).

Only the ASCII letters have a case.  `lower` maps a byte string to lower case; `sameFolded`
compares two byte strings without building either.  Bytes from `0x80` up are compared as they are.

The blanks are space, tab, carriage return and line feed, and no others.  `strip` removes the
longest run of them at either end; inner blanks stay.
-/

namespace RetryVerdict

/-- A byte string. -/
abbrev Bytes := List UInt8

namespace Bytes

/-- The UTF-8 bytes of a literal. -/
def utf8 (s : String) : Bytes := s.toUTF8.data.toList

theorem utf8_ofList (cs : List Char) :
    utf8 (String.ofList cs) = cs.flatMap String.utf8EncodeChar := by
  rw [utf8, String.toUTF8, String.toByteArray_ofList, List.utf8Encode, List.data_toByteArray]

/-- The bytes before the first zero byte. -/
def upToZero (s : Bytes) : Bytes := s.takeWhile (· != 0)

/-! ### Case -/

/-- `A` to `Z`. -/
def isUpper (b : UInt8) : Bool := 0x41 ≤ b && b ≤ 0x5a

/-- `a` to `z`. -/
def isLower (b : UInt8) : Bool := 0x61 ≤ b && b ≤ 0x7a

/-- An ASCII capital's small letter; any other byte itself. -/
def lowerByte (b : UInt8) : UInt8 := if isUpper b then b + 0x20 else b

/-- The ASCII lower case of a byte string. -/
def lower (s : Bytes) : Bytes := s.map lowerByte

/-- The two byte strings differ at most in the case of ASCII letters. -/
def sameFolded : Bytes → Bytes → Bool
  | [], [] => true
  | a :: s, b :: t => lowerByte a == lowerByte b && sameFolded s t
  | [], _ :: _ | _ :: _, [] => false

/-! ### Blanks -/

/-- Space, tab, carriage return or line feed. -/
def isBlank (b : UInt8) : Bool := b == 0x20 || b == 0x09 || b == 0x0d || b == 0x0a

/-- Removes the trailing blanks: a blank goes when nothing is left behind it. -/
def stripEnd : Bytes → Bytes
  | [] => []
  | b :: s =>
    match stripEnd s with
    | [] => if isBlank b then [] else [b]
    | c :: t => b :: c :: t

/-- Removes the blanks at both ends. -/
def strip (s : Bytes) : Bytes := stripEnd (s.dropWhile isBlank)

end Bytes

end RetryVerdict

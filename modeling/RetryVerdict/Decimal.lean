import RetryVerdict.Bytes

/-!
# Decimal — whole numbers as text

`ofNat` and `ofInt` write a number with the fewest digits.  `readWord?` reads an unsigned 64-bit
number: blanks may surround it, leading zeros are allowed, and a sign, an inner blank or a value
above `2 ^ 64 - 1` is refused.  It works in machine words, and `extend?` is the one step: it
compares before it multiplies, so that no product or sum wraps.
-/

namespace RetryVerdict.Decimal

/-- `0` to `9`. -/
def isDigit (b : UInt8) : Bool := 0x30 ≤ b && b ≤ 0x39

/-- The digit with value `n`, for `n < 10`. -/
def digit (n : Nat) : UInt8 := 0x30 + n.toUInt8

/-- The decimal digits of `n`, most significant first. -/
def ofNat (n : Nat) : Bytes :=
  if n < 10 then [digit n] else ofNat (n / 10) ++ [digit (n % 10)]

/-- The decimal text of `n`, with a minus sign in front of a negative number. -/
def ofInt : Int → Bytes
  | .ofNat n => ofNat n
  | .negSucc n => 0x2d :: ofNat (n + 1)

/-- The greatest machine word. -/
def maxWord : UInt64 := 0xffffffffffffffff

/-- The number that reads as `n` followed by the digit `b`; none if `b` is no digit or the number
is no machine word. -/
def extend? (n : UInt64) (b : UInt8) : Option UInt64 :=
  if isDigit b then
    let d := (b - 0x30).toUInt64
    if (maxWord - d) / 10 < n then none else some (n * 10 + d)
  else none

/-- Reads an unsigned 64-bit number. -/
def readWord? (s : Bytes) : Option UInt64 :=
  match Bytes.strip s with
  | [] => none
  | b :: t => (b :: t).foldlM extend? 0

end RetryVerdict.Decimal

import RetryVerdict.Proofs.Decimal.Reading

/-!
# Decimal — what writing a number comes to

The text of a number is digits, and they denote the number (`digitsValue_ofNat`).  So numbers have
different texts (`ofNat_injective`), and with the sign, which is no digit, so have all whole numbers
(`ofInt_injective`).  It is the text that numbers have everywhere (`ofNat_eq_utf8_repr`).
-/

namespace RetryVerdict.Decimal

open Bytes (utf8)

/-! ### One digit -/

theorem toNat_digit {n : ℕ} (h : n < 10) : (digit n).toNat = 0x30 + n := by
  have hn : n.toUInt8.toNat = n := UInt8.toNat_ofNat_of_lt' (h.trans (by decide))
  rw [digit, UInt8.toNat_add, hn]
  simp only [UInt8.reduceToNat]
  omega

theorem isDigit_digit {n : ℕ} (h : n < 10) : isDigit (digit n) = true := by
  rw [isDigit_iff, UInt8.le_iff_toNat_le, UInt8.le_iff_toNat_le, toNat_digit h]
  simp only [UInt8.reduceToNat]
  omega

/-- With one more digit behind it, the number is ten times as great, and the digit more. -/
theorem digitsValue_concat (ds : Bytes) (b : UInt8) :
    digitsValue (ds ++ [b]) = digitsValue ds * 10 + (b.toNat - 0x30) := by
  rw [digitsValue, List.map_append, List.reverse_append, List.map_singleton,
    List.reverse_singleton, List.singleton_append, Nat.ofDigits_cons, digitsValue]
  omega

/-! ### Numbers -/

/-- **The text of a number denotes it.** -/
theorem digitsValue_ofNat (n : ℕ) : digitsValue (ofNat n) = n := by
  fun_induction ofNat n with
  | case1 n h =>
      rw [← List.nil_append [digit n], digitsValue_concat, toNat_digit h]
      simp [digitsValue]
  | case2 n h ih =>
      rw [digitsValue_concat, ih, toNat_digit (by omega)]
      omega

theorem isDigit_of_mem_ofNat {n : ℕ} {b : UInt8} (h : b ∈ ofNat n) : isDigit b = true := by
  fun_induction ofNat n with
  | case1 n hn =>
      rw [List.mem_singleton.mp h]
      exact isDigit_digit hn
  | case2 n hn ih =>
      rcases List.mem_append.mp h with h | h
      · exact ih h
      · rw [List.mem_singleton.mp h]
        exact isDigit_digit (Nat.mod_lt n (by omega))

theorem ofNat_injective : Function.Injective ofNat :=
  Function.LeftInverse.injective digitsValue_ofNat

theorem utf8EncodeChar_digitChar {n : ℕ} (h : n < 10) :
    String.utf8EncodeChar n.digitChar = [digit n] := by
  decide +revert

/-- **The text of a number is the usual one.** -/
theorem ofNat_eq_utf8_repr (n : ℕ) : ofNat n = utf8 n.repr := by
  rw [Nat.repr_eq_ofList_toDigits, Bytes.utf8_ofList]
  fun_induction ofNat n with
  | case1 n h =>
      rw [Nat.toDigits_of_lt_base h, List.flatMap_singleton, utf8EncodeChar_digitChar h]
  | case2 n h ih =>
      rw [Nat.toDigits_of_base_le (by decide) (by omega), List.flatMap_append, ← ih,
        List.flatMap_singleton, utf8EncodeChar_digitChar (Nat.mod_lt n (by decide))]

/-! ### Whole numbers -/

/-- The minus sign is no digit. -/
theorem ofNat_ne_minus_cons (n : ℕ) (s : Bytes) : ofNat n ≠ 0x2d :: s := fun h =>
  absurd (isDigit_of_mem_ofNat (h ▸ List.mem_cons_self)) (by decide)

/-- **Whole numbers have different texts.** -/
theorem ofInt_injective : Function.Injective ofInt
  | .ofNat _, .ofNat _, h => congrArg Int.ofNat (ofNat_injective h)
  | .negSucc m, .negSucc n, h => by
      have hmn : m + 1 = n + 1 := ofNat_injective (List.cons.inj h).2
      exact congrArg Int.negSucc (Nat.succ.inj hmn)
  | .ofNat m, .negSucc _, h => absurd h (ofNat_ne_minus_cons m _)
  | .negSucc _, .ofNat n, h => absurd h.symm (ofNat_ne_minus_cons n _)

end RetryVerdict.Decimal

import RetryVerdict.Proofs.Decimal.Writing

/-!
# Decimal — from numbers to texts and back

`StepExact n b` says what the machine does with the digit `b` behind the number `n`: it refuses the
digit exactly if the longer number is no machine word, and otherwise computes that number; nothing
wraps on the way.  Every digit is a step of this kind (`stepExact`).

Digits between blanks denote their number (`numeral?_digits`), and zeros in front of it do not count
(`digitsValue_zeros_append`).  So the text of a number is read back, whatever blanks and zeros stand
around it (`numeral?_repr`).

`readWord?_exact` collects this.
-/

namespace RetryVerdict.Decimal

open Bytes (Blanks Stripped utf8)

/-! ### The machine at one digit -/

/-- What the machine computes from `n` and the digit `b` is what it should be. -/
structure StepExact (n : UInt64) (b : UInt8) : Prop where
  digit_eq : (b - 0x30).toUInt64.toNat = b.toNat - 0x30
  room_eq : (maxWord - (b - 0x30).toUInt64).toNat = 2 ^ 64 - 1 - (b.toNat - 0x30)
  /-- The digit is refused only if the number with it is too great. -/
  refused_iff : extend? n b = none ↔ 2 ^ 64 - 1 < n.toNat * 10 + (b.toNat - 0x30)
  /-- If it is not refused, then neither the product nor the sum wraps. -/
  taken : ∀ m, extend? n b = some m →
    (n * 10).toNat = n.toNat * 10 ∧ m = n * 10 + (b - 0x30).toUInt64 ∧
      m.toNat = n.toNat * 10 + (b.toNat - 0x30)

theorem extend?_eq_none_iff {n : UInt64} {b : UInt8} (hb : 0x30 ≤ b ∧ b ≤ 0x39) :
    extend? n b = none ↔ 2 ^ 64 ≤ n.toNat * 10 + (b.toNat - 0x30) := by
  rw [extend?, if_pos (isDigit_iff.mpr hb), ← maxWord_sub_div_lt_iff hb]
  simp

theorem stepExact (n : UInt64) {b : UInt8} (hb : 0x30 ≤ b ∧ b ≤ 0x39) : StepExact n b where
  digit_eq := toNat_digitWord hb
  room_eq := toNat_maxWord_sub hb
  refused_iff := by
    rw [extend?_eq_none_iff hb]
    omega
  taken m hm := by
    have hsum := (extend?_eq_some_iff.mp hm).2
    have hword := m.toNat_lt
    obtain ⟨hmul, hadd⟩ := toNat_mul_ten_add hb (n := n) (by omega)
    exact ⟨hmul, UInt64.toNat_inj.mp (hsum.trans hadd.symm), hsum⟩

/-! ### Digits between blanks -/

section Numerals

variable {u v ds : Bytes}

theorem isBlank_of_le {b : UInt8} (h : 0x30 ≤ b) : Bytes.isBlank b = false := by
  rw [Bool.eq_false_iff, ne_eq, Bytes.isBlank_iff]
  rintro (rfl | rfl | rfl | rfl) <;> exact absurd h (by decide)

theorem stripped_of_digits (h : ∀ b ∈ ds, 0x30 ≤ b ∧ b ≤ 0x39) : Stripped ds := by
  intro b hb
  have hmem : b ∈ ds := hb.elim List.mem_of_mem_head? List.mem_of_mem_getLast?
  exact isBlank_of_le (h b hmem).1

/-- Digits denote their number, whatever blanks stand around them. -/
theorem numeral?_digits (hu : Blanks u) (hv : Blanks v) (hne : ds ≠ [])
    (hds : ∀ b ∈ ds, 0x30 ≤ b ∧ b ≤ 0x39) : numeral? (u ++ ds ++ v) = some (digitsValue ds) := by
  have hstrip : Bytes.strip (u ++ ds ++ v) = ds :=
    Bytes.strip_append_append hu (stripped_of_digits hds) hv
  rw [numeral?, ← strip_eq, hstrip]
  exact if_pos ⟨hne, hds⟩

/-- Zeros in front do not count. -/
theorem digitsValue_zeros_append (k : ℕ) (ds : Bytes) :
    digitsValue (List.replicate k 0x30 ++ ds) = digitsValue ds := by
  induction k with
  | zero => rfl
  | succ k ih =>
      rw [List.replicate_succ, List.cons_append, digitsValue_cons, ih]
      simp

theorem ofNat_ne_nil (n : ℕ) : ofNat n ≠ [] := by
  rw [ofNat]
  split
  · exact List.cons_ne_nil _ _
  · exact List.append_ne_nil_of_right_ne_nil _ (List.cons_ne_nil _ _)

/-- **The text of a number denotes it**, with any zeros in front and any blanks around it. -/
theorem numeral?_repr (hu : Blanks u) (hv : Blanks v) (k n : ℕ) :
    numeral? (u ++ (List.replicate k 0x30 ++ utf8 n.repr) ++ v) = some n := by
  rw [← ofNat_eq_utf8_repr]
  have hne : List.replicate k 0x30 ++ ofNat n ≠ [] :=
    List.append_ne_nil_of_right_ne_nil _ (ofNat_ne_nil n)
  have hds : ∀ b ∈ List.replicate k 0x30 ++ ofNat n, 0x30 ≤ b ∧ b ≤ 0x39 := by
    intro b hb
    rcases List.mem_append.mp hb with hb | hb
    · rw [List.eq_of_mem_replicate hb]
      decide
    · exact isDigit_iff.mp (isDigit_of_mem_ofNat hb)
  rw [numeral?_digits hu hv hne hds, digitsValue_zeros_append, digitsValue_ofNat]

end Numerals

/-! ### Reading -/

theorem map_toNat_readWord?_eq_some_iff {s : Bytes} {n : ℕ} :
    (readWord? s).map UInt64.toNat = some n ↔ numeral? s = some n ∧ n ≤ 2 ^ 64 - 1 := by
  have hle : n < 2 ^ 64 ↔ n ≤ 2 ^ 64 - 1 := by omega
  rw [map_toNat_readWord?, Option.filter_eq_some_iff, decide_eq_true_eq, hle]

theorem readWord?_eq_none_iff {s : Bytes} :
    readWord? s = none ↔ ∀ n ≤ 2 ^ 64 - 1, numeral? s ≠ some n := by
  constructor
  · intro h n hn hs
    have hread := map_toNat_readWord?_eq_some_iff.mpr ⟨hs, hn⟩
    rw [h] at hread
    cases hread
  · intro h
    rw [← Option.map_eq_none_iff, Option.eq_none_iff_forall_ne_some]
    intro n hread
    obtain ⟨hs, hn⟩ := map_toNat_readWord?_eq_some_iff.mp hread
    exact h n hn hs

/-- **Reading is exact over all machine words.**  A text is read as `n` exactly if what is left of it
without the blanks around it is digits, at least one, that denote `n`, and `n` is at most
`2 ^ 64 - 1`; every other text is refused.  As far as the loop gets, the machine word is the number
of the digits so far; the next digit is refused exactly if the number with it exceeds `2 ^ 64 - 1`,
and if not, no operation on the words wraps.  So the text of a machine word is read back, with any
zeros in front of it and any blanks around. -/
theorem readWord?_exact :
    (∀ (s : Bytes) (n : ℕ),
      (readWord? s).map UInt64.toNat = some n ↔ numeral? s = some n ∧ n ≤ 2 ^ 64 - 1) ∧
    (∀ s : Bytes, readWord? s = none ↔ ∀ n ≤ 2 ^ 64 - 1, numeral? s ≠ some n) ∧
    (∀ (ds : Bytes) (n : UInt64) (b : UInt8), ds.foldlM extend? 0 = some n →
      0x30 ≤ b ∧ b ≤ 0x39 → n.toNat = digitsValue ds ∧ StepExact n b) ∧
    ∀ (n k : ℕ) (u v : Bytes), n < 2 ^ 64 → Blanks u → Blanks v →
      (readWord? (u ++ (List.replicate k 0x30 ++ utf8 n.repr) ++ v)).map UInt64.toNat = some n := by
  refine ⟨fun s n => map_toNat_readWord?_eq_some_iff, fun s => readWord?_eq_none_iff,
    fun ds n b hds hb => ?_, fun n k u v hn hu hv => ?_⟩
  · have hrun := (foldlM_extend?_eq_some_iff.mp hds).2
    rw [UInt64.toNat_zero, zero_mul, zero_add] at hrun
    exact ⟨hrun, stepExact n hb⟩
  · exact map_toNat_readWord?_eq_some_iff.mpr ⟨numeral?_repr hu hv k n, by omega⟩

/-- The greatest machine word between blanks and behind zeros; its last digit, which is taken, and
the next greater one, which is not; and the number that follows it. -/
theorem readWord?_exact_greatest :
    let ds := utf8 "1844674407370955161"
    let n : UInt64 := 1844674407370955161
    ((18446744073709551615 < 2 ^ 64 ∧ Blanks (utf8 "\t ") ∧ Blanks (utf8 "\r\n")) ∧
      (readWord? (utf8 "\t " ++ (List.replicate 3 0x30 ++ utf8 (Nat.repr 18446744073709551615))
        ++ utf8 "\r\n")).map UInt64.toNat = some 18446744073709551615) ∧
    ((ds.foldlM extend? 0 = some n ∧ (0x30 ≤ (0x35 : UInt8) ∧ (0x35 : UInt8) ≤ 0x39)) ∧
      extend? n 0x35 ≠ none ∧ extend? n 0x36 = none) ∧
    readWord? (utf8 "18446744073709551616") = none := by
  intro ds n
  have hu : Blanks (utf8 "\t ") := by decide
  have hv : Blanks (utf8 "\r\n") := by decide
  have hds : ds.foldlM extend? 0 = some n := by decide +kernel
  obtain ⟨-, hnone, hstep, hback⟩ := readWord?_exact
  have htaken := (hstep ds n 0x35 hds (by decide)).2.refused_iff
  have hrefused := (hstep ds n 0x36 hds (by decide)).2.refused_iff
  refine ⟨⟨⟨by decide, hu, hv⟩, hback _ 3 _ _ (by decide) hu hv⟩,
    ⟨⟨hds, by decide⟩, fun h => absurd (htaken.mp h) (by decide), hrefused.mpr (by decide)⟩,
    (hnone _).mpr fun k hk hs => ?_⟩
  have hnext : numeral? (utf8 "18446744073709551616") = some 18446744073709551616 := by
    decide +kernel
  rw [hnext, Option.some.injEq] at hs
  omega

end RetryVerdict.Decimal

import RetryVerdict.Decimal
import RetryVerdict.Proofs.Bytes.Stripping
import Mathlib.Data.FinEnum
import Mathlib.Data.Nat.Digits.Defs

/-!
# Decimal — what reading a number comes to

`numeral? s` is the number that `s` denotes: what is left of `s` without the blanks around it must be
digits, at least one, and the number may be as great as it likes.  It knows nothing of machine words.

* `extend?_eq_some_iff`: one more digit is read exactly if the number so far with the digit behind it
  is a machine word, and then that number is the result; no product and no sum wraps.
* `foldlM_extend?_eq_some_iff`: so a run of digits is read exactly if its number is a machine word.
* `readWord?_eq_some_iff`, `map_toNat_readWord?`: reading gives the number that is denoted, if that
  is a machine word, and nothing otherwise.
-/

namespace RetryVerdict.Decimal

/-! ### The number that is denoted -/

/-- Space, tab, carriage return and line feed. -/
def blanks : Bytes := [0x20, 0x09, 0x0d, 0x0a]

/-- The number that digits denote, the most significant first. -/
def digitsValue (ds : Bytes) : ℕ := Nat.ofDigits 10 (ds.map (·.toNat - 0x30)).reverse

/-- The number that a text denotes, if it is digits between blanks. -/
def numeral? (s : Bytes) : Option ℕ :=
  let ds := (s.dropWhile (· ∈ blanks)).rdropWhile (· ∈ blanks)
  if ds ≠ [] ∧ ∀ b ∈ ds, 0x30 ≤ b ∧ b ≤ 0x39 then some (digitsValue ds) else none

theorem digitsValue_cons (b : UInt8) (ds : Bytes) :
    digitsValue (b :: ds) = (b.toNat - 0x30) * 10 ^ ds.length + digitsValue ds := by
  rw [digitsValue, List.map_cons, Nat.ofDigits_reverse_cons, List.length_map, digitsValue, mul_comm,
    add_comm]

/-- Stripping takes the blanks away at both ends. -/
theorem strip_eq (s : Bytes) :
    Bytes.strip s = (s.dropWhile (· ∈ blanks)).rdropWhile (· ∈ blanks) := by
  have hblank : Bytes.isBlank = fun b => decide (b ∈ blanks) := by
    funext b
    rw [Bool.eq_iff_iff]
    simp [Bytes.isBlank, blanks, or_assoc]
  rw [Bytes.strip, Bytes.stripEnd_eq_rdropWhile, hblank]

/-! ### One digit -/

theorem isDigit_iff {b : UInt8} : isDigit b = true ↔ 0x30 ≤ b ∧ b ≤ 0x39 := by
  simp [isDigit]

/-- The value of a digit as a machine word. -/
theorem toNat_digitWord {b : UInt8} (hb : 0x30 ≤ b ∧ b ≤ 0x39) :
    (b - 0x30).toUInt64.toNat = b.toNat - 0x30 := by
  rw [UInt8.toNat_toUInt64, UInt8.toNat_sub_of_le _ _ hb.1]
  rfl

/-- A digit is less than the greatest machine word, so the difference does not wrap. -/
theorem toNat_maxWord_sub {b : UInt8} (hb : 0x30 ≤ b ∧ b ≤ 0x39) :
    (maxWord - (b - 0x30).toUInt64).toNat = 2 ^ 64 - 1 - (b.toNat - 0x30) := by
  have hle : b.toNat ≤ 57 := UInt8.le_iff_toNat_le.mp hb.2
  have hd := toNat_digitWord hb
  rw [UInt64.toNat_sub_of_le _ _ (by rw [UInt64.le_iff_toNat_le, hd]; simp [maxWord]; omega), hd]
  rfl

/-- The test refuses a digit exactly if the number with the digit behind it is too great. -/
theorem maxWord_sub_div_lt_iff {n : UInt64} {b : UInt8} (hb : 0x30 ≤ b ∧ b ≤ 0x39) :
    (maxWord - (b - 0x30).toUInt64) / 10 < n ↔ 2 ^ 64 ≤ n.toNat * 10 + (b.toNat - 0x30) := by
  have hle : b.toNat ≤ 57 := UInt8.le_iff_toNat_le.mp hb.2
  rw [UInt64.lt_iff_toNat_lt, UInt64.toNat_div, toNat_maxWord_sub hb]
  simp only [UInt64.reduceToNat]
  omega

/-- What is no greater than a machine word is computed without a wrap. -/
theorem toNat_mul_ten_add {n : UInt64} {b : UInt8} (hb : 0x30 ≤ b ∧ b ≤ 0x39)
    (h : n.toNat * 10 + (b.toNat - 0x30) < 2 ^ 64) :
    (n * 10).toNat = n.toNat * 10 ∧
      (n * 10 + (b - 0x30).toUInt64).toNat = n.toNat * 10 + (b.toNat - 0x30) := by
  rw [UInt64.toNat_add, UInt64.toNat_mul, toNat_digitWord hb]
  simp only [UInt64.reduceToNat]
  omega

/-- **One digit is read exactly.**  It is refused only if the number with it is no machine word. -/
theorem extend?_eq_some_iff {n m : UInt64} {b : UInt8} :
    extend? n b = some m ↔
      (0x30 ≤ b ∧ b ≤ 0x39) ∧ m.toNat = n.toNat * 10 + (b.toNat - 0x30) := by
  by_cases hb : 0x30 ≤ b ∧ b ≤ 0x39
  · have hm := m.toNat_lt
    rw [extend?, if_pos (isDigit_iff.mpr hb)]
    simp only [maxWord_sub_div_lt_iff hb, hb, and_self, true_and]
    split
    · next hbig =>
        simp only [reduceCtorEq, false_iff]
        omega
    · next hfits =>
        rw [Option.some.injEq, ← UInt64.toNat_inj, (toNat_mul_ten_add hb (by omega)).2, eq_comm]
  · have hb' : ¬ isDigit b = true := fun h => hb (isDigit_iff.mp h)
    rw [extend?, if_neg hb']
    simp [hb]

/-! ### A run of digits -/

/-- **Digits are read exactly if their number is a machine word.** -/
theorem foldlM_extend?_eq_some_iff {ds : Bytes} {n m : UInt64} :
    ds.foldlM extend? n = some m ↔
      (∀ b ∈ ds, 0x30 ≤ b ∧ b ≤ 0x39) ∧
        m.toNat = n.toNat * 10 ^ ds.length + digitsValue ds := by
  -- the number so far is a machine word because the whole number is one, and is not less
  induction ds generalizing n with
  | nil => simp [digitsValue, UInt64.toNat_inj, eq_comm]
  | cons b ds ih =>
      rw [List.foldlM_cons, Option.bind_eq_bind, Option.bind_eq_some_iff, List.forall_mem_cons,
        digitsValue_cons, List.length_cons]
      constructor
      · rintro ⟨k, hk, hm⟩
        obtain ⟨hb, hk⟩ := extend?_eq_some_iff.mp hk
        obtain ⟨hds, hm⟩ := ih.mp hm
        refine ⟨⟨hb, hds⟩, ?_⟩
        rw [hm, hk]
        ring
      · rintro ⟨⟨hb, hds⟩, hm⟩
        have hsum : m.toNat
            = (n.toNat * 10 + (b.toNat - 0x30)) * 10 ^ ds.length + digitsValue ds := by
          rw [hm]
          ring
        have hfits : n.toNat * 10 + (b.toNat - 0x30) < 2 ^ 64 := by
          have hpos : 0 < 10 ^ ds.length := by positivity
          have hle := Nat.le_mul_of_pos_right (n.toNat * 10 + (b.toNat - 0x30)) hpos
          have hm := m.toNat_lt
          omega
        have hk := UInt64.toNat_ofNat_of_lt' hfits
        refine ⟨UInt64.ofNat (n.toNat * 10 + (b.toNat - 0x30)), ?_, ?_⟩
        · exact extend?_eq_some_iff.mpr ⟨hb, hk⟩
        · exact ih.mpr ⟨hds, by rw [hk]; exact hsum⟩

/-! ### A text -/

/-- **Reading gives the number that is denoted.** -/
theorem readWord?_eq_some_iff {s : Bytes} {m : UInt64} :
    readWord? s = some m ↔ numeral? s = some m.toNat := by
  rw [readWord?, numeral?, ← strip_eq]
  cases hs : Bytes.strip s with
  | nil => simp
  | cons b t =>
      simp only [foldlM_extend?_eq_some_iff, Option.ite_none_right_eq_some, Option.some.injEq]
      simp [eq_comm]

/-- Reading gives a number if one is denoted and it is a machine word. -/
theorem map_toNat_readWord? (s : Bytes) :
    (readWord? s).map UInt64.toNat = (numeral? s).filter (· < 2 ^ 64) := by
  ext k
  simp only [Option.map_eq_some_iff, Option.filter_eq_some_iff, decide_eq_true_eq,
    readWord?_eq_some_iff]
  constructor
  · rintro ⟨m, hm, rfl⟩
    exact ⟨hm, m.toNat_lt⟩
  · rintro ⟨hk, hlt⟩
    refine ⟨UInt64.ofNat k, ?_, UInt64.toNat_ofNat_of_lt' hlt⟩
    rw [UInt64.toNat_ofNat_of_lt' hlt]
    exact hk

end RetryVerdict.Decimal

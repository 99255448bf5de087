import RetryVerdict.Bytes
import Mathlib.Data.List.Forall2

/-!
# Bytes — what folding comes to

Folding turns capitals into small letters, place by place, and leaves all other bytes
(`getElem?_lower`).  It leaves no capital, so folding once more changes nothing (`lower_lower`).
Comparing up to case is comparing what folding leaves (`sameFolded_iff`): it is an equivalence
(`sameFolded_equivalence`), and a byte string is known up to case by its lower case.

`SameLetters` says the same without folding: place by place the bytes are equal, or they are the two
cases of one ASCII letter (`lower_eq_lower_iff`).  Bytes that are no letters have no other case, even
where they lie as far apart as the two cases of a letter.
-/

namespace RetryVerdict.Bytes

theorem isUpper_lowerByte (b : UInt8) : isUpper (lowerByte b) = false := by
  unfold lowerByte isUpper
  grind

theorem isLower_lowerByte {b : UInt8} (h : isUpper b = true) : isLower (lowerByte b) = true := by
  rw [lowerByte, if_pos h]
  simp [isUpper, isLower, UInt8.le_iff_toNat_le] at h ⊢
  omega

theorem lowerByte_eq_self {b : UInt8} (h : isUpper b = false) : lowerByte b = b := by
  rw [lowerByte, if_neg (by simp [h])]

theorem lower_lower (s : Bytes) : lower (lower s) = lower s := by
  rw [lower, lower, List.map_map]
  exact List.map_congr_left fun b _ => lowerByte_eq_self (isUpper_lowerByte b)

/-- **Byte strings are the same up to case if their lower cases are the same.** -/
theorem sameFolded_iff : ∀ {s t : Bytes}, sameFolded s t = true ↔ lower s = lower t
  | [], [] => by simp [sameFolded]
  | [], b :: t | b :: t, [] => by simp [sameFolded, lower]
  | a :: s, b :: t => by
      have ih := sameFolded_iff (s := s) (t := t)
      simp only [lower] at ih
      simp [sameFolded, lower, ih]

theorem sameFolded_equivalence : Equivalence fun s t : Bytes => sameFolded s t = true where
  refl _ := sameFolded_iff.mpr rfl
  symm h := sameFolded_iff.mpr (sameFolded_iff.mp h).symm
  trans h₁ h₂ := sameFolded_iff.mpr ((sameFolded_iff.mp h₁).trans (sameFolded_iff.mp h₂))

/-! ### Place by place -/

theorem length_lower (s : Bytes) : (lower s).length = s.length := List.length_map _

/-- Capitals become small letters, and all other bytes stay. -/
theorem getElem?_lower (s : Bytes) (i : ℕ) :
    (lower s)[i]? = s[i]?.map fun b => if 0x41 ≤ b ∧ b ≤ 0x5a then b + 0x20 else b := by
  have hbyte : lowerByte = fun b => if 0x41 ≤ b ∧ b ≤ 0x5a then b + 0x20 else b := by
    funext b
    simp only [lowerByte, isUpper, Bool.and_eq_true, decide_eq_true_eq]
  rw [lower, List.getElem?_map, hbyte]

/-! ### The cases of a letter -/

/-- The same byte, or the other case of the same letter. -/
def SameLetter (a b : UInt8) : Prop :=
  a = b ∨ (isUpper a = true ∧ b = a + 0x20) ∨ (isUpper b = true ∧ a = b + 0x20)

instance (a b : UInt8) : Decidable (SameLetter a b) :=
  inferInstanceAs (Decidable (a = b ∨ _ ∨ _))

/-- The same byte string, up to the case of its letters. -/
def SameLetters (s t : Bytes) : Prop := List.Forall₂ SameLetter s t

theorem lowerByte_eq_lowerByte_iff {a b : UInt8} : lowerByte a = lowerByte b ↔ SameLetter a b := by
  unfold lowerByte SameLetter isUpper
  grind

/-- `@`, `[` and a byte from `0x80` up have no other case. -/
example : ¬ SameLetter 0x40 0x60 ∧ ¬ SameLetter 0x5b 0x7b ∧ ¬ SameLetter 0xc1 0xe1 := by decide

/-- **Two byte strings have the same lower case if they differ in the case of letters only.** -/
theorem lower_eq_lower_iff {s t : Bytes} : lower s = lower t ↔ SameLetters s t := by
  rw [lower, lower, ← List.forall₂_eq_eq_eq, List.forall₂_map_left_iff, List.forall₂_map_right_iff]
  simp only [lowerByte_eq_lowerByte_iff, SameLetters]

end RetryVerdict.Bytes

import RetryVerdict.Bytes
import Mathlib.Data.List.DropRight

/-!
# Bytes — what stripping leaves

`stripEnd` is the library's way of dropping from the end (`stripEnd_eq_rdropWhile`), so a stripped
byte string is a stretch of the one it was made from, and neither begins nor ends with a blank
(`isBlank_of_mem_head?_strip`, `isBlank_of_mem_getLast?_strip`).

* `strip_eq_iff`: that says all: what is left is the stripped text (`Stripped`) that stands between
  runs of blanks (`Blanks`).
* `strip_append_cons`: a byte that is no blank keeps its place, and blanks go on its far sides only.
-/

namespace RetryVerdict.Bytes

theorem stripEnd_concat (s : Bytes) (b : UInt8) :
    stripEnd (s ++ [b]) = if isBlank b then stripEnd s else s ++ [b] := by
  induction s with
  | nil => rfl
  | cons c s ih =>
      rw [List.cons_append, stripEnd, ih]
      by_cases hb : isBlank b = true
      · rw [if_pos hb, if_pos hb, stripEnd]
      · rw [if_neg hb, if_neg hb]
        cases s <;> rfl

/-- The trailing blanks go, and nothing else. -/
theorem stripEnd_eq_rdropWhile (s : Bytes) : stripEnd s = s.rdropWhile isBlank := by
  induction s using List.reverseRecOn with
  | nil => rfl
  | append_singleton s b ih => rw [stripEnd_concat, List.rdropWhile_concat, ih]

theorem isBlank_iff {b : UInt8} :
    isBlank b = true ↔ b = 0x20 ∨ b = 0x09 ∨ b = 0x0d ∨ b = 0x0a := by
  simp [isBlank, or_assoc]

/-! ### The ends of what is left -/

theorem isBlank_of_mem_head?_dropWhile {s : Bytes} {b : UInt8}
    (h : b ∈ (s.dropWhile isBlank).head?) : isBlank b = false := by
  have hd := List.head?_dropWhile_not isBlank s
  rw [Option.mem_def.mp h] at hd
  simpa using hd

theorem isBlank_of_mem_getLast?_rdropWhile {s : Bytes} {b : UInt8}
    (h : b ∈ (s.rdropWhile isBlank).getLast?) : isBlank b = false := by
  rw [List.rdropWhile, List.getLast?_reverse] at h
  exact isBlank_of_mem_head?_dropWhile h

/-- What is stripped does not end with a blank. -/
theorem isBlank_of_mem_getLast?_strip {s : Bytes} {b : UInt8} (h : b ∈ (strip s).getLast?) :
    isBlank b = false := by
  rw [strip, stripEnd_eq_rdropWhile] at h
  exact isBlank_of_mem_getLast?_rdropWhile h

/-- What is stripped does not begin with a blank. -/
theorem isBlank_of_mem_head?_strip {s : Bytes} {b : UInt8} (h : b ∈ (strip s).head?) :
    isBlank b = false := by
  rw [strip, stripEnd_eq_rdropWhile] at h
  -- the end is dropped from what begins with no blank, and what is left begins alike
  obtain ⟨t, ht⟩ := List.rdropWhile_prefix isBlank (s.dropWhile isBlank)
  refine isBlank_of_mem_head?_dropWhile (s := s) ?_
  rw [← ht]
  exact List.mem_head?_append_of_mem_head? h

/-! ### A text between blanks -/

/-- Blanks and nothing else. -/
def Blanks (s : Bytes) : Prop := ∀ b ∈ s, b = 0x20 ∨ b = 0x09 ∨ b = 0x0d ∨ b = 0x0a

instance : DecidablePred Blanks := fun s => List.decidableBAll _ s

/-- Neither the first byte nor the last one is a blank. -/
def Stripped (s : Bytes) : Prop := ∀ b, s.head? = some b ∨ s.getLast? = some b → isBlank b = false

theorem Blanks.append {u v : Bytes} (hu : Blanks u) (hv : Blanks v) : Blanks (u ++ v) :=
  fun b hb => (List.mem_append.mp hb).elim (hu b) (hv b)

theorem blanks_takeWhile (s : Bytes) : Blanks (s.takeWhile isBlank) :=
  fun _ hb => isBlank_iff.mp (List.mem_takeWhile_imp hb)

theorem blanks_rtakeWhile (s : Bytes) : Blanks (s.rtakeWhile isBlank) :=
  fun _ hb => isBlank_iff.mp (List.mem_rtakeWhile_imp hb)

theorem stripped_strip (s : Bytes) : Stripped (strip s) :=
  fun _ h => h.elim isBlank_of_mem_head?_strip isBlank_of_mem_getLast?_strip

/-- Blanks in front of a text that begins with none are all that is dropped there. -/
theorem dropWhile_blanks_append {u t : Bytes} (hu : Blanks u)
    (ht : ∀ b, t.head? = some b → isBlank b = false) : (u ++ t).dropWhile isBlank = t := by
  rw [List.dropWhile_append_of_pos fun b hb => isBlank_iff.mpr (hu b hb)]
  cases t with
  | nil => rfl
  | cons b t => exact List.dropWhile_cons_of_neg (by simp [ht b rfl])

theorem rdropWhile_append_blanks {t v : Bytes} (hv : Blanks v)
    (ht : ∀ b, t.getLast? = some b → isBlank b = false) : (t ++ v).rdropWhile isBlank = t := by
  have hrev : (v.reverse ++ t.reverse).dropWhile isBlank = t.reverse :=
    dropWhile_blanks_append (fun b hb => hv b (List.mem_reverse.mp hb))
      fun b hb => ht b (by rwa [List.head?_reverse] at hb)
  rw [List.rdropWhile, List.reverse_append, hrev, List.reverse_reverse]

/-- What stands between blanks is found again. -/
theorem strip_append_append {u t v : Bytes} (hu : Blanks u) (ht : Stripped t) (hv : Blanks v) :
    strip (u ++ t ++ v) = t := by
  rw [strip, stripEnd_eq_rdropWhile]
  cases t with
  | nil =>
      have hnone : (u ++ [] ++ v).dropWhile isBlank = [] := by
        rw [List.append_nil]
        exact List.dropWhile_eq_nil_iff.mpr fun b hb => isBlank_iff.mpr (hu.append hv b hb)
      rw [hnone, List.rdropWhile_nil]
  | cons b t =>
      have hfront : (u ++ (b :: t ++ v)).dropWhile isBlank = b :: t ++ v :=
        dropWhile_blanks_append hu fun c hc => ht c (.inl hc)
      rw [List.append_assoc, hfront]
      exact rdropWhile_append_blanks hv fun c hc => ht c (.inr hc)

/-- **Stripping leaves what stands between the blanks.** -/
theorem strip_eq_iff {s t : Bytes} :
    strip s = t ↔ Stripped t ∧ ∃ u v, Blanks u ∧ Blanks v ∧ s = u ++ t ++ v := by
  constructor
  · rintro rfl
    refine ⟨stripped_strip s, _, _, blanks_takeWhile s, blanks_rtakeWhile (s.dropWhile isBlank), ?_⟩
    rw [strip, stripEnd_eq_rdropWhile, List.append_assoc, List.rdropWhile_append_rtakeWhile,
      List.takeWhile_append_dropWhile]
  · rintro ⟨ht, u, v, hu, hv, rfl⟩
    exact strip_append_append hu ht hv

theorem strip_eq_nil_of_blanks {s : Bytes} (h : Blanks s) : strip s = [] :=
  strip_eq_iff.mpr ⟨by simp [Stripped], s, [], h, by simp [Blanks], by simp⟩

theorem strip_dropWhile (s : Bytes) : strip (s.dropWhile isBlank) = strip s := by
  rw [strip, strip, List.dropWhile_idempotent]

theorem strip_rdropWhile (s : Bytes) : strip (s.rdropWhile isBlank) = strip s := by
  obtain ⟨ht, u, v, hu, hv, hs⟩ := strip_eq_iff.mp (rfl : strip (s.rdropWhile isBlank) = _)
  refine (strip_eq_iff.mpr ⟨ht, u, _, hu, hv.append (blanks_rtakeWhile s), ?_⟩).symm
  rw [← List.append_assoc, ← hs, List.rdropWhile_append_rtakeWhile]

/-- On either side of a byte that is no blank, only the outer blanks go. -/
theorem strip_append_cons {c : UInt8} (hc : isBlank c = false) (s t : Bytes) :
    strip (s ++ c :: t) = s.dropWhile isBlank ++ c :: t.rdropWhile isBlank := by
  refine strip_eq_iff.mpr ⟨fun b hb => ?_, _, _, blanks_takeWhile s, blanks_rtakeWhile t, ?_⟩
  · rcases hb with hb | hb
    · rw [List.head?_append, Option.or_eq_some_iff] at hb
      rcases hb with hb | ⟨-, hb⟩
      · exact isBlank_of_mem_head?_dropWhile hb
      · cases hb
        exact hc
    · rw [List.getLast?_append_cons, List.getLast?_cons, Option.some.injEq] at hb
      cases hr : (t.rdropWhile isBlank).getLast? with
      | none =>
          rw [hr] at hb
          exact hb ▸ hc
      | some d =>
          rw [hr] at hb
          exact hb ▸ isBlank_of_mem_getLast?_rdropWhile hr
  · rw [← List.append_assoc, List.takeWhile_append_dropWhile, List.append_assoc, List.cons_append,
      List.rdropWhile_append_rtakeWhile]

end RetryVerdict.Bytes

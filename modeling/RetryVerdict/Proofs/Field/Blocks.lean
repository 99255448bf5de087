import RetryVerdict.Proofs.Field.Grammar

/-!
# Field — blocks of header lines

Reading keeps what it has read until a status line opens a new block, and then starts again.

* `foldl_readLine_of_isStatusLine`: after a status line nothing is left of what came before it, so
  lines with one are read alike whatever was read before.
* `entries_foldl_readLine`: lines without one add their fields at the end, each its own.
* `entries_ofLines`: so what is read is what each line of the last block (`lastBlock`) gives on its
  own, in order.
* `foldl_readLine_of_idle`: a line that is blank, or neither a status line nor a header line, can
  come anywhere.

`ofLines_append_blocks` collects this for two lists of lines, one behind the other.
-/

namespace RetryVerdict.Fields

open Bytes (utf8 strip Blanks)
open RetryVerdict.Field (ofLine? IsLine)

/-- The lines behind the last status line. -/
def lastBlock (lines : List Bytes) : List Bytes := lines.rtakeWhile (! isStatusLine ·)

/-- Blank, or neither a status line nor a header line. -/
def Idle (line : Bytes) : Prop :=
  Blanks line ∨ isStatusLine line = false ∧ ∀ name value, ¬ IsLine line name value

variable {f : Fields} {lines : List Bytes} {line : Bytes}

/-! ### Status lines -/

/-- A status line is the mark and at least one byte more, blanks apart. -/
theorem isStatusLine_iff :
    isStatusLine line = true ↔ ∃ b rest, strip line = statusMark ++ b :: rest := by
  rw [isStatusLine, Bool.and_eq_true, decide_eq_true_iff, List.isPrefixOf_iff_prefix]
  constructor
  · rintro ⟨hlt, rest, hrest⟩
    cases rest with
    | nil =>
        rw [← hrest, List.append_nil] at hlt
        exact absurd hlt (lt_irrefl _)
    | cons b rest => exact ⟨b, rest, hrest.symm⟩
  · rintro ⟨b, rest, h⟩
    rw [h]
    refine ⟨?_, List.prefix_append _ _⟩
    rw [List.length_append, List.length_cons]
    omega

theorem readLine_of_isStatusLine (h : isStatusLine line = true) : f.readLine line = {} := by
  rw [readLine, if_pos h]

/-- Lines with a status line are read alike, whatever was read before. -/
theorem foldl_readLine_of_isStatusLine (h : ∃ line ∈ lines, isStatusLine line = true) :
    lines.foldl readLine f = ofLines lines := by
  obtain ⟨status, hmem, hs⟩ := h
  obtain ⟨xs, ys, rfl⟩ := List.append_of_mem hmem
  rw [ofLines, List.foldl_append, List.foldl_append, List.foldl_cons, List.foldl_cons,
    readLine_of_isStatusLine hs, readLine_of_isStatusLine hs]

/-! ### Lines of one block -/

/-- **Lines of one block add their fields at the end.** -/
theorem entries_foldl_readLine (h : ∀ line ∈ lines, isStatusLine line = false) :
    (lines.foldl readLine f).entries
      = f.entries ++ lines.flatMap fun line => (ofLine? line).toList := by
  induction lines generalizing f with
  | nil => exact (List.append_nil _).symm
  | cons line lines ih =>
      obtain ⟨hline, hlines⟩ := List.forall_mem_cons.mp h
      rw [List.foldl_cons, ih hlines, entries_readLine hline, List.append_assoc, List.flatMap_cons]

theorem entries_ofLines_of_block (h : ∀ line ∈ lines, isStatusLine line = false) :
    (ofLines lines).entries = lines.flatMap fun line => (ofLine? line).toList :=
  (entries_foldl_readLine h).trans (List.nil_append _)

/-- **What is read is what the lines of the last block give.** -/
theorem entries_ofLines (lines : List Bytes) :
    (ofLines lines).entries = (lastBlock lines).flatMap fun line => (ofLine? line).toList := by
  induction lines using List.reverseRecOn with
  | nil => rfl
  | append_singleton lines line ih =>
      have hlast : ofLines (lines ++ [line]) = (ofLines lines).readLine line := List.foldl_concat ..
      rw [hlast]
      cases hs : isStatusLine line with
      | true =>
          rw [readLine_of_isStatusLine hs, lastBlock, List.rtakeWhile_concat_neg _ _ _ (by simp [hs])]
          rfl
      | false =>
          rw [entries_readLine hs, ih, lastBlock, lastBlock,
            List.rtakeWhile_concat_pos _ _ _ (by simp [hs]), List.flatMap_append,
            List.flatMap_singleton]

/-! ### Lines that do not matter -/

theorem idle_iff : Idle line ↔ isStatusLine line = false ∧ ofLine? line = none := by
  rw [Idle, Field.ofLine?_eq_none_iff_not_isLine, or_iff_right_of_imp]
  -- a line of blanks has neither the mark nor a colon
  intro h
  refine ⟨?_, fun name value hl => ?_⟩
  · simp [isStatusLine, Bytes.strip_eq_nil_of_blanks h]
  · have hsplit := (Field.isLine_iff.mp hl).1
    rw [Field.split?_eq_none (Field.colon_notMem_blanks h)] at hsplit
    cases hsplit

theorem readLine_of_idle (h : Idle line) : f.readLine line = f := by
  obtain ⟨hs, hl⟩ := idle_iff.mp h
  rw [readLine, hs, hl]
  rfl

theorem foldl_readLine_of_idle (h : ∀ line ∈ lines, Idle line) : lines.foldl readLine f = f := by
  induction lines with
  | nil => rfl
  | cons line lines ih =>
      obtain ⟨hline, hlines⟩ := List.forall_mem_cons.mp h
      rw [List.foldl_cons, readLine_of_idle hline, ih hlines]

/-- **The last block of lines counts, line by line.**  A status line is the mark and at least one byte
more, blanks apart.  If the lines `ys` have one, then nothing that stands in front of them matters;
otherwise their fields follow those of the lines in front.  So the fields that are read are those
that each line behind the last status line gives on its own, in order and with repetitions; and
lines that are blank, or neither a status line nor a header line, can be taken out from anywhere. -/
theorem ofLines_append_blocks (xs ys : List Bytes) :
    (∀ line, isStatusLine line = true ↔ ∃ b rest, strip line = statusMark ++ b :: rest) ∧
    ((∃ line ∈ ys, isStatusLine line = true) → ofLines (xs ++ ys) = ofLines ys) ∧
    ((∀ line ∈ ys, isStatusLine line = false) →
      (ofLines (xs ++ ys)).entries = (ofLines xs).entries ++ (ofLines ys).entries) ∧
    (ofLines xs).entries = (lastBlock xs).flatMap (fun line => (ofLines [line]).entries) ∧
    ∀ junk, (∀ line ∈ junk, Idle line) → ofLines (xs ++ junk ++ ys) = ofLines (xs ++ ys) := by
  refine ⟨fun _ => isStatusLine_iff, fun h => ?_, fun h => ?_, ?_, fun junk h => ?_⟩
  · rw [ofLines, List.foldl_append]
    exact foldl_readLine_of_isStatusLine h
  · rw [ofLines, List.foldl_append, entries_foldl_readLine h, entries_ofLines_of_block h]
    rfl
  · simp only [entries_ofLines_singleton]
    exact entries_ofLines xs
  · rw [ofLines, ofLines, List.foldl_append, List.foldl_append, List.foldl_append,
      foldl_readLine_of_idle h]

/-- Two blocks, the first with a field that the second does not have, and idle lines of three kinds:
blanks, no colon, and a control byte in the value. -/
theorem ofLines_append_blocks_redirect :
    let first : List Bytes := [utf8 "HTTP/1.1 301 Moved", utf8 "Location: /a"]
    let last : List Bytes := [utf8 " HTTP/2 500", utf8 "X-A: 1", utf8 "x-a:2"]
    let more : List Bytes := [utf8 "X-A: 1", utf8 "HTTP/"]
    let junk : List Bytes := [utf8 "\r\n", utf8 "HTTP/", utf8 "X-B: \x01b"]
    ((∃ line ∈ last, isStatusLine line = true) ∧ (∀ line ∈ more, isStatusLine line = false) ∧
        ∀ line ∈ junk, Idle line) ∧
      ofLines (first ++ last) = ofLines last ∧
      (ofLines (first ++ more)).entries = [⟨utf8 "location", utf8 "/a"⟩, ⟨utf8 "x-a", utf8 "1"⟩] ∧
      ofLines (first ++ junk ++ more) = ofLines (first ++ more) := by
  intro first last more junk
  have hlast : ∃ line ∈ last, isStatusLine line = true := by decide
  have hmore : ∀ line ∈ more, isStatusLine line = false := by decide
  have hjunk : ∀ line ∈ junk, Idle line := by
    simp only [idle_iff]
    decide
  obtain ⟨-, hreset, -⟩ := ofLines_append_blocks first last
  obtain ⟨-, -, hfollow, -, hidle⟩ := ofLines_append_blocks first more
  refine ⟨⟨hlast, hmore, hjunk⟩, hreset hlast, ?_, hidle junk hjunk⟩
  rw [hfollow hmore]
  decide

end RetryVerdict.Fields

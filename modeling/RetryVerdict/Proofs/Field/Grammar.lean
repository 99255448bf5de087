import RetryVerdict.Proofs.Field.Clean

/-!
# Field — the grammar of a header line

`Field.IsLine line name value` says how a header line is written, without a reader: a token, a colon
and a value, with blanks at either end and around the colon.  The value neither begins nor ends with
a space or a tab and holds no control byte but the tab.

* `split?_eq_some_iff`: a line is split at its first colon, and stripping the whole line before that
  makes no difference to the two parts.
* `isLine_iff`: a line is written with this name and value if, and only if, it is split into them and
  they are valid.  So no line is written in two ways, and `ofLine?` reads those lines and no others
  (`ofLine?_eq_some_iff_isLine`).
* `IsLine.not_statusMark_prefix`: no such line begins as a status line does, so a line on its own is
  read as `ofLine?` reads it (`entries_ofLines_singleton`).

`ofLines_singleton_isLine` collects this for maps that are read from one line.
-/

namespace RetryVerdict

open Bytes (utf8 lower strip isBlank isBlank_iff Blanks Stripped strip_eq_iff strip_append_append)

namespace Field

/-! ### Where a line is split -/

theorem isBlank_colon : isBlank colon = false := rfl

/-- A line is split at its first colon. -/
theorem split?_append_colon {s : Bytes} (hs : colon ∉ s) (t : Bytes) :
    split? (s ++ colon :: t) = some (strip s, strip t) := by
  have hne : ∀ b ∈ s.dropWhile isBlank, (b != colon) = true := fun b hb =>
    bne_iff_ne.mpr (ne_of_mem_of_not_mem ((List.dropWhile_suffix _).subset hb) hs)
  simp [split?, Bytes.strip_append_cons isBlank_colon, List.dropWhile_append_of_pos hne,
    List.takeWhile_append_of_pos hne, Bytes.strip_dropWhile, Bytes.strip_rdropWhile]

theorem split?_eq_none {line : Bytes} (h : colon ∉ line) : split? line = none := by
  obtain ⟨-, u, v, -, -, hline⟩ := strip_eq_iff.mp (rfl : strip line = _)
  have hall : (strip line).dropWhile (· != colon) = [] := by
    refine List.dropWhile_eq_nil_iff.mpr fun b hb => bne_iff_ne.mpr (ne_of_mem_of_not_mem ?_ h)
    rw [hline]
    exact List.mem_append_left _ (List.mem_append_right _ hb)
  simp [split?, hall]

theorem split?_eq_some_iff {line name value : Bytes} :
    split? line = some (name, value) ↔
      ∃ s t, colon ∉ s ∧ line = s ++ colon :: t ∧ name = strip s ∧ value = strip t := by
  constructor
  · intro h
    by_cases hc : colon ∈ line
    · obtain ⟨s, t, rfl, hs⟩ := List.eq_append_cons_of_mem hc
      rw [split?_append_colon hs, Option.some.injEq, Prod.mk.injEq] at h
      exact ⟨s, t, hs, rfl, h.1.symm, h.2.symm⟩
    · rw [split?_eq_none hc] at h
      cases h
  · rintro ⟨s, t, hs, rfl, rfl, rfl⟩
    exact split?_append_colon hs t

/-! ### How a line is written -/

/-- Visible bytes of ASCII that delimit nothing. -/
def Token (name : Bytes) : Prop := ∀ b ∈ name, 0x21 ≤ b ∧ b ≤ 0x7e ∧ b ∉ delimiters

/-- No control byte but the tab. -/
def Plain (value : Bytes) : Prop := ∀ b ∈ value, (0x20 ≤ b ∨ b = 0x09) ∧ b ≠ 0x7f

/-- Neither begins nor ends with a space or a tab. -/
def Bare (value : Bytes) : Prop :=
  ∀ b, value.head? = some b ∨ value.getLast? = some b → b ≠ 0x20 ∧ b ≠ 0x09

theorem bare_iff {value : Bytes} :
    Bare value ↔ ∀ b ∈ value.head?.toList ++ value.getLast?.toList, b ≠ 0x20 ∧ b ≠ 0x09 := by
  simp [Bare]

instance : DecidablePred Bare := fun _ =>
  @decidable_of_iff' _ _ bare_iff (List.decidableBAll _ _)

/-- The line is the name, a colon and the value, with blanks at either end and around the colon. -/
structure IsLine (line name value : Bytes) : Prop where
  layout : ∃ w₁ w₂ w₃ w₄, Blanks w₁ ∧ Blanks w₂ ∧ Blanks w₃ ∧ Blanks w₄ ∧
    line = w₁ ++ name ++ w₂ ++ colon :: (w₃ ++ value ++ w₄)
  name_ne_nil : name ≠ []
  name_token : Token name
  value_bare : Bare value
  value_plain : Plain value

variable {line name value : Bytes}

/-- Without control bytes, spaces and tabs are the only blanks to look for. -/
theorem Plain.stripped_iff (h : Plain value) : Stripped value ↔ Bare value := by
  refine forall₂_congr fun b hb => ?_
  have hmem : b ∈ value := hb.elim List.mem_of_mem_head? List.mem_of_mem_getLast?
  obtain ⟨hplain, -⟩ := h b hmem
  rw [← Bool.not_eq_true, isBlank_iff]
  grind

theorem Token.stripped (h : Token name) : Stripped name := by
  intro b hb
  have hmem : b ∈ name := hb.elim List.mem_of_mem_head? List.mem_of_mem_getLast?
  obtain ⟨hle, -⟩ := h b hmem
  rw [← Bool.not_eq_true, isBlank_iff]
  rintro (rfl | rfl | rfl | rfl) <;> exact absurd hle (by decide)

theorem colon_notMem_blanks {w : Bytes} (h : Blanks w) : colon ∉ w := fun hc =>
  absurd (h colon hc) (by decide)

theorem Token.colon_notMem (h : Token name) : colon ∉ name := fun hc =>
  (h colon hc).2.2 (by decide)

/-- **A line is written with the parts into which it is split, if these are valid.** -/
theorem isLine_iff :
    IsLine line name value ↔
      split? line = some (name, value) ∧ isName name = true ∧ isValue value = true := by
  constructor
  · rintro ⟨⟨w₁, w₂, w₃, w₄, h₁, h₂, h₃, h₄, hline⟩, hne, htoken, hbare, hplain⟩
    refine ⟨split?_eq_some_iff.mpr ⟨w₁ ++ name ++ w₂, w₃ ++ value ++ w₄, ?_, hline, ?_, ?_⟩,
      isName_iff.mpr ⟨hne, htoken⟩, isValue_iff.mpr hplain⟩
    · simp [colon_notMem_blanks h₁, colon_notMem_blanks h₂, htoken.colon_notMem]
    · exact (strip_append_append h₁ htoken.stripped h₂).symm
    · exact (strip_append_append h₃ (hplain.stripped_iff.mpr hbare) h₄).symm
  · rintro ⟨hsplit, hn, hv⟩
    obtain ⟨s, t, -, hline, hs, ht⟩ := split?_eq_some_iff.mp hsplit
    obtain ⟨-, w₁, w₂, h₁, h₂, rfl⟩ := strip_eq_iff.mp hs.symm
    obtain ⟨hstripped, w₃, w₄, h₃, h₄, rfl⟩ := strip_eq_iff.mp ht.symm
    obtain ⟨hne, htoken⟩ := isName_iff.mp hn
    have hplain : Plain _ := isValue_iff.mp hv
    exact ⟨⟨w₁, w₂, w₃, w₄, h₁, h₂, h₃, h₄, hline⟩, hne, htoken,
      hplain.stripped_iff.mp hstripped, hplain⟩

/-- A line is written in one way. -/
theorem IsLine.unique {name' value' : Bytes} (h : IsLine line name value)
    (h' : IsLine line name' value') : name' = name ∧ value' = value := by
  have hsplit := (isLine_iff.mp h').1
  rw [(isLine_iff.mp h).1] at hsplit
  obtain ⟨rfl, rfl⟩ := Prod.mk.inj (Option.some.inj hsplit)
  exact ⟨rfl, rfl⟩

/-- **A field is read from the lines that are written with its name and value.** -/
theorem ofLine?_eq_some_iff_isLine {e : Field} :
    ofLine? line = some e ↔ ∃ name value, IsLine line name value ∧ e = ofParts name value := by
  rw [ofLine?_eq_some_iff]
  simp only [isLine_iff, and_assoc]

theorem ofLine?_eq_none_iff_not_isLine :
    ofLine? line = none ↔ ∀ name value, ¬ IsLine line name value := by
  rw [Option.eq_none_iff_forall_ne_some]
  constructor
  · intro h name value hl
    exact h _ (ofLine?_eq_some_iff_isLine.mpr ⟨name, value, hl, rfl⟩)
  · intro h e he
    obtain ⟨name, value, hl, -⟩ := ofLine?_eq_some_iff_isLine.mp he
    exact h name value hl

/-- A header line does not begin as a status line does: a blank or the colon follows its token. -/
theorem IsLine.not_statusMark_prefix (h : IsLine line name value) :
    ¬ Fields.statusMark <+: strip line := by
  obtain ⟨⟨w₁, w₂, w₃, w₄, h₁, h₂, -, -, rfl⟩, hne, htoken, -, -⟩ := h
  have htoken' : ∀ b ∈ name, isTokenByte b = true := fun b hb => (isTokenByte_iff b).mpr (htoken b hb)
  -- what stripping leaves begins with the token
  have hfront : (w₁ ++ name ++ w₂).dropWhile isBlank = name ++ w₂ := by
    rw [List.append_assoc]
    refine Bytes.dropWhile_blanks_append h₁ fun b hb => htoken.stripped b (.inl ?_)
    rwa [List.head?_append_of_ne_nil _ hne] at hb
  rw [Bytes.strip_append_cons isBlank_colon, hfront, List.append_assoc]
  rintro ⟨rest, heq⟩
  -- behind the token bytes the mark goes on with a slash
  have hmark : (Fields.statusMark ++ rest).dropWhile isTokenByte = 0x2f :: rest := rfl
  rw [heq, List.dropWhile_append_of_pos htoken'] at hmark
  cases w₂ with
  | nil => cases hmark
  | cons b w₂ =>
      rcases h₂ b List.mem_cons_self with rfl | rfl | rfl | rfl <;> cases hmark

end Field

namespace Fields

open RetryVerdict.Field (IsLine)

/-! ### Maps that are read from one line -/

theorem statusMark_prefix_of_isStatusLine {line : Bytes} (h : isStatusLine line = true) :
    statusMark <+: strip line := by
  rw [isStatusLine, Bool.and_eq_true] at h
  exact List.isPrefixOf_iff_prefix.mp h.2

/-- A status line is no header line. -/
theorem ofLine?_of_isStatusLine {line : Bytes} (h : isStatusLine line = true) :
    Field.ofLine? line = none :=
  Field.ofLine?_eq_none_iff_not_isLine.mpr fun _ _ hl =>
    hl.not_statusMark_prefix (statusMark_prefix_of_isStatusLine h)

theorem isStatusLine_of_ofLine? {line : Bytes} {e : Field} (h : Field.ofLine? line = some e) :
    isStatusLine line = false := by
  rw [← Bool.not_eq_true]
  intro hs
  cases h.symm.trans (ofLine?_of_isStatusLine hs)

/-- A line that opens no block adds the field that it holds, if it holds one. -/
theorem entries_readLine {f : Fields} {line : Bytes} (h : isStatusLine line = false) :
    (f.readLine line).entries = f.entries ++ (Field.ofLine? line).toList := by
  rw [readLine, h, if_neg Bool.false_ne_true]
  cases Field.ofLine? line with
  | none => exact (List.append_nil _).symm
  | some e => rfl

theorem entries_ofLines_singleton (line : Bytes) :
    (ofLines [line]).entries = (Field.ofLine? line).toList := by
  have hone : ofLines [line] = ({} : Fields).readLine line := rfl
  rw [hone]
  cases h : isStatusLine line with
  | true =>
      rw [readLine, if_pos h, ofLine?_of_isStatusLine h]
      rfl
  | false => exact entries_readLine h

/-- **Exactly the lines of the grammar are read.**  Reading one line gives a field if, and only if,
the line is a token, a colon and a value that neither begins nor ends with a space or a tab and
holds no control byte but the tab, with blanks allowed at either end and around the colon.  Then the
line is written so in one way, and its only field has the token in lower case and the value.  No line
that begins with the mark of a status line, blanks apart, is written so. -/
theorem ofLines_singleton_isLine (line : Bytes) :
    ((ofLines [line]).entries ≠ [] ↔ ∃ name value, IsLine line name value) ∧
    (∀ name value, IsLine line name value →
      (ofLines [line]).entries = [⟨lower name, value⟩] ∧
      ∀ name' value', IsLine line name' value' → name' = name ∧ value' = value) ∧
    (statusMark <+: strip line → ∀ name value, ¬ IsLine line name value) := by
  rw [entries_ofLines_singleton]
  refine ⟨?_, fun name value h => ⟨?_, fun _ _ h' => h.unique h'⟩,
    fun hmark name value h => h.not_statusMark_prefix hmark⟩
  · rw [ne_eq, Option.toList_eq_nil_iff, Field.ofLine?_eq_none_iff_not_isLine]
    simp only [not_forall, not_not]
  · rw [Field.ofLine?_eq_some_iff_isLine.mpr ⟨name, value, h, rfl⟩]
    rfl

/-- A line with blanks of all kinds, a colon in its value and a byte beyond ASCII; and one that begins
as a status line does. -/
theorem ofLines_singleton_isLine_blanks :
    let line : Bytes := utf8 "\r\n X-Id\t\r:\n caf\u00e9: a  b\t\r\n"
    let status : Bytes := utf8 "\tHTTP/1.1 200 a: b"
    (IsLine line (utf8 "X-Id") (utf8 "caf\u00e9: a  b") ∧ statusMark <+: strip status) ∧
      (ofLines [line]).entries = [⟨utf8 "x-id", utf8 "caf\u00e9: a  b"⟩] ∧
      (ofLines [status]).entries = [] := by
  intro line status
  have hline : IsLine line (utf8 "X-Id") (utf8 "caf\u00e9: a  b") :=
    Field.isLine_iff.mpr (by decide)
  have hmark : statusMark <+: strip status := by decide
  refine ⟨⟨hline, hmark⟩, ((ofLines_singleton_isLine line).2.1 _ _ hline).1, ?_⟩
  by_contra hne
  obtain ⟨name, value, h⟩ := (ofLines_singleton_isLine status).1.mp hne
  exact (ofLines_singleton_isLine status).2.2 hmark name value h

end Fields

end RetryVerdict

import RetryVerdict.Proofs.Bytes.Stripping
import RetryVerdict.Proofs.Field.Index

/-!
# Field — what a map of header fields can hold

A field is *clean* if its name is a token in lower case and its value holds no control byte but the
tab (`Field.Clean`).  So nothing in it can end a line or a text.

* `isTokenByte_iff`: a token byte is a visible byte of ASCII that delimits nothing.
* `mem_ofLines`: each field that is read from lines is that of one of the lines, so it is clean and
  its value is stripped (`Field.clean_of_ofLine?`, `Field.value_of_ofLine?`).
* `clean_serve`: a request leaves clean fields, whatever it asks for; so every history does
  (`clean_afterAll`).
* `foldlM_appendLine`: reading may as well append each field with the check that appending makes;
  the check never refuses what a line is accepted for.
-/

namespace RetryVerdict

open Bytes (utf8 isUpper lowerByte isBlank strip)

/-! ### Bytes of a name -/

namespace Field

/-- The visible bytes of ASCII that delimit tokens. -/
def delimiters : Bytes := utf8 "\"(),/:;<=>?@[\\]\x7b\x7d"

/-- **A token byte is visible and no delimiter.** -/
theorem isTokenByte_iff (b : UInt8) :
    isTokenByte b = true ↔ 0x21 ≤ b ∧ b ≤ 0x7e ∧ b ∉ delimiters := by
  -- there are 256 bytes to look at
  have h : ∀ n < 256, isTokenByte (UInt8.ofNat n) = true ↔
      0x21 ≤ UInt8.ofNat n ∧ UInt8.ofNat n ≤ 0x7e ∧ UInt8.ofNat n ∉ delimiters := by
    decide +kernel
  have hb := h b.toNat b.toNat_lt
  rwa [UInt8.ofNat_toNat] at hb

/-- A token byte stays one in lower case. -/
theorem isTokenByte_lowerByte {b : UInt8} (h : isTokenByte b = true) :
    isTokenByte (lowerByte b) = true := by
  by_cases hb : isUpper b = true
  · rw [isTokenByte, Bytes.isLower_lowerByte hb]
    rfl
  · rwa [Bytes.lowerByte_eq_self (Bool.eq_false_iff.mpr hb)]

/-- A name stays one in lower case, and nothing else becomes one. -/
theorem isName_lower (s : Bytes) : isName (Bytes.lower s) = isName s := by
  have hbyte : ∀ b, isTokenByte (lowerByte b) = isTokenByte b := fun b => by
    refine Bool.eq_iff_iff.mpr ⟨fun h => ?_, isTokenByte_lowerByte⟩
    by_cases hb : isUpper b = true
    · simp [isTokenByte, hb]
    · rwa [Bytes.lowerByte_eq_self (Bool.eq_false_iff.mpr hb)] at h
  rw [isName, isName, Bytes.lower, List.isEmpty_map, List.all_map]
  exact congrArg _ (congrArg s.all (funext hbyte))

/-- Byte strings that are the same up to case are names together. -/
theorem isName_eq_of_lower_eq {s t : Bytes} (h : Bytes.lower s = Bytes.lower t) :
    isName s = isName t := by
  rw [← isName_lower s, h, isName_lower]

theorem not_capital_lowerByte (b : UInt8) : ¬ (0x41 ≤ lowerByte b ∧ lowerByte b ≤ 0x5a) := by
  simpa [isUpper] using Bytes.isUpper_lowerByte b

/-! ### Clean fields -/

/-- The name is a token in lower case, and the value holds no control byte but the tab. -/
structure Clean (e : Field) : Prop where
  name_ne_nil : e.name ≠ []
  name_token : ∀ b ∈ e.name, 0x21 ≤ b ∧ b ≤ 0x7e ∧ b ∉ delimiters
  name_small : ∀ b ∈ e.name, ¬ (0x41 ≤ b ∧ b ≤ 0x5a)
  value_plain : ∀ b ∈ e.value, (0x20 ≤ b ∨ b = 0x09) ∧ b ≠ 0x7f

/-- No byte of a clean field ends a text or a line. -/
theorem Clean.unbroken {e : Field} (h : e.Clean) :
    ∀ b ∈ e.name ++ e.value, b ≠ 0x00 ∧ b ≠ 0x0a ∧ b ≠ 0x0d := by
  intro b hb
  rcases List.mem_append.mp hb with hb | hb
  · obtain ⟨hle, -, -⟩ := h.name_token b hb
    refine ⟨?_, ?_, ?_⟩ <;> rintro rfl <;> exact absurd hle (by decide)
  · obtain ⟨hle, -⟩ := h.value_plain b hb
    refine ⟨?_, ?_, ?_⟩ <;> rintro rfl <;> exact absurd hle (by decide)

/-- A name is a non-empty token. -/
theorem isName_iff {s : Bytes} :
    isName s = true ↔ s ≠ [] ∧ ∀ b ∈ s, 0x21 ≤ b ∧ b ≤ 0x7e ∧ b ∉ delimiters := by
  simp only [isName, Bool.and_eq_true, Bool.not_eq_true', List.isEmpty_eq_false_iff,
    List.all_eq_true, isTokenByte_iff]

/-- A value holds no control byte but the tab. -/
theorem isValue_iff {s : Bytes} :
    isValue s = true ↔ ∀ b ∈ s, (0x20 ≤ b ∨ b = 0x09) ∧ b ≠ 0x7f := by
  have hb : ∀ b, ¬ isControl b = true ↔ (0x20 ≤ b ∨ b = 0x09) ∧ b ≠ 0x7f := fun b => by
    unfold isControl
    grind
  rw [isValue, Bool.not_eq_true', List.any_eq_false]
  exact forall₂_congr fun b _ => hb b

theorem Clean.isName_name {e : Field} (h : e.Clean) : isName e.name = true :=
  isName_iff.mpr ⟨h.name_ne_nil, h.name_token⟩

theorem Clean.lower_name {e : Field} (h : e.Clean) : Bytes.lower e.name = e.name :=
  (List.map_congr_left fun b hb => Bytes.lowerByte_eq_self (by
    simpa [isUpper] using h.name_small b hb)).trans (List.map_id _)

/-- A valid name and a valid value make a clean field. -/
theorem clean_ofParts {name value : Bytes} (hn : isName name = true) (hv : isValue value = true) :
    (ofParts name value).Clean := by
  obtain ⟨hne, htoken⟩ := isName_iff.mp hn
  refine ⟨?_, fun b hb => ?_, fun b hb => ?_, isValue_iff.mp hv⟩
  · simpa [ofParts, Bytes.lower] using hne
  · obtain ⟨c, hc, rfl⟩ := List.mem_map.mp hb
    exact (isTokenByte_iff _).mp (isTokenByte_lowerByte ((isTokenByte_iff c).mpr (htoken c hc)))
  · obtain ⟨c, -, rfl⟩ := List.mem_map.mp hb
    exact not_capital_lowerByte c

/-! ### The field of a line -/

theorem ofLine?_eq_some_iff {line : Bytes} {e : Field} :
    ofLine? line = some e ↔ ∃ name value, split? line = some (name, value) ∧
      isName name = true ∧ isValue value = true ∧ e = ofParts name value := by
  rw [ofLine?]
  cases h : split? line with
  | none => simp
  | some p =>
      obtain ⟨name, value⟩ := p
      constructor
      · intro he
        simp only [Option.bind_eq_bind, Option.bind_some] at he
        split at he
        · next hv =>
            rw [Bool.and_eq_true] at hv
            exact ⟨name, value, rfl, hv.1, hv.2, (Option.some.inj he).symm⟩
        · cases he
      · rintro ⟨_, _, hp, hn, hv, rfl⟩
        obtain ⟨rfl, rfl⟩ := Prod.mk.inj (Option.some.inj hp)
        simp [hn, hv]

/-- The value of a line is stripped. -/
theorem value_of_split? {line name value : Bytes} (h : split? line = some (name, value)) :
    ∃ rest, value = strip rest := by
  rw [split?] at h
  split at h
  · cases h
  · next rest _ => exact ⟨rest, (Prod.mk.inj (Option.some.inj h)).2.symm⟩

theorem clean_of_ofLine? {line : Bytes} {e : Field} (h : ofLine? line = some e) : e.Clean := by
  obtain ⟨name, value, -, hn, hv, rfl⟩ := ofLine?_eq_some_iff.mp h
  exact clean_ofParts hn hv

/-- The value of the field of a line neither begins nor ends with a blank. -/
theorem value_of_ofLine? {line : Bytes} {e : Field} (h : ofLine? line = some e) {b : UInt8}
    (hb : e.value.head? = some b ∨ e.value.getLast? = some b) : isBlank b = false := by
  obtain ⟨name, value, hs, -, -, rfl⟩ := ofLine?_eq_some_iff.mp h
  obtain ⟨rest, rfl⟩ := value_of_split? hs
  rcases hb with hb | hb
  · exact Bytes.isBlank_of_mem_head?_strip hb
  · exact Bytes.isBlank_of_mem_getLast?_strip hb

end Field

namespace Fields

/-! ### Reading lines -/

theorem mem_readLine {f : Fields} {line : Bytes} {e : Field} (h : e ∈ (f.readLine line).entries) :
    e ∈ f.entries ∨ Field.ofLine? line = some e := by
  rw [readLine] at h
  split at h
  · cases h
  · split at h
    · next e' he =>
        rcases List.mem_append.mp h with h | h
        · exact .inl h
        · rw [List.mem_singleton.mp h]
          exact .inr he
    · exact .inl h

theorem mem_foldl_readLine {f : Fields} {lines : List Bytes} {e : Field}
    (h : e ∈ (lines.foldl readLine f).entries) :
    e ∈ f.entries ∨ ∃ line ∈ lines, Field.ofLine? line = some e := by
  induction lines generalizing f with
  | nil => exact .inl h
  | cons line lines ih =>
      rcases ih h with h | ⟨l, hl, he⟩
      · rcases mem_readLine h with h | he
        · exact .inl h
        · exact .inr ⟨line, List.mem_cons_self, he⟩
      · exact .inr ⟨l, List.mem_cons_of_mem line hl, he⟩

/-- **Each field that is read is that of a line.** -/
theorem mem_ofLines {lines : List Bytes} {e : Field} (h : e ∈ (ofLines lines).entries) :
    ∃ line ∈ lines, Field.ofLine? line = some e := by
  rcases mem_foldl_readLine h with h | h
  · cases h
  · exact h

theorem clean_ofLines {lines : List Bytes} {e : Field} (h : e ∈ (ofLines lines).entries) :
    e.Clean := by
  obtain ⟨line, -, he⟩ := mem_ofLines h
  exact Field.clean_of_ofLine? he

/-- Takes one more line into account by appending its field, which makes a check of its own. -/
def appendLine (f : Fields) (line : Bytes) : Except Fault Fields :=
  if isStatusLine line then .ok {}
  else match Field.split? line with
    | none => .ok f
    | some (name, value) =>
      if Field.isName name && Field.isValue value then (f.append name value).map (·.2) else .ok f

theorem appendLine_eq_ok (f : Fields) (line : Bytes) : f.appendLine line = .ok (f.readLine line) := by
  rw [appendLine, readLine]
  by_cases hs : isStatusLine line = true
  · rw [if_pos hs, if_pos hs]
  · rw [if_neg hs, if_neg hs, Field.ofLine?]
    cases hp : Field.split? line with
    | none => rfl
    | some p =>
        obtain ⟨name, value⟩ := p
        by_cases hv : (Field.isName name && Field.isValue value) = true
        · simp only [Option.bind_eq_bind, Option.bind_some, if_pos hv, append,
            check_eq_ok name value hv]
          rfl
        · simp only [Option.bind_eq_bind, Option.bind_some, if_neg hv]

/-- **Reading never refuses**: the check of an append passes every field that a line is accepted
for. -/
theorem foldlM_appendLine (lines : List Bytes) :
    lines.foldlM appendLine {} = .ok (ofLines lines) := by
  have h : appendLine = fun f line => pure (f.readLine line) := by
    funext f line
    exact f.appendLine_eq_ok line
  rw [h, List.foldlM_pure]
  rfl

/-! ### Histories -/

theorem clean_added {r : Request} {e : Field} (h : e ∈ r.added) : e.Clean := by
  have hpair : ∀ {name value : Bytes}, e ∈ (if Field.isName name && Field.isValue value
      then [Field.ofParts name value] else []) → e.Clean := fun h => by
    split at h
    · next hv =>
        rw [Bool.and_eq_true] at hv
        rw [List.mem_singleton.mp h]
        exact Field.clean_ofParts hv.1 hv.2
    · cases h
  cases r with
  | insert | append | insertIfValid | appendIfValid => exact hpair h
  | read lines => exact clean_ofLines h
  | erase | first | values | contains => cases h

/-- **A request leaves clean fields**, whether it is refused or not. -/
theorem clean_serve {f : Fields} (hf : ∀ e ∈ f.entries, e.Clean) (r : Request) :
    ∀ e ∈ (f.serve r).2.entries, e.Clean := by
  intro e he
  rw [entries_serve] at he
  rcases List.mem_append.mp he with he | he
  · exact hf e (List.mem_filter.mp he).1
  · exact clean_added he

theorem clean_afterAll {f : Fields} (hf : ∀ e ∈ f.entries, e.Clean) (rs : List Request) :
    ∀ e ∈ (f.afterAll rs).entries, e.Clean := by
  induction rs generalizing f with
  | nil => exact hf
  | cons r rs ih => exact ih (clean_serve hf r)

/-- **No map of header fields holds a byte that could break a header.**  After reading any lines,
and after any history of requests with valid and invalid arguments, every name is a token without
capitals, every value is free of control bytes but the tab, and no byte of either ends a text or a
line.  Reading never refuses a line, and the values that it leaves neither begin nor end with a
space or a tab. -/
theorem afterAll_clean (lines : List Bytes) (rs : List Request) :
    (∀ e ∈ ((ofLines lines).afterAll rs).entries,
      e.Clean ∧ ∀ b ∈ e.name ++ e.value, b ≠ 0x00 ∧ b ≠ 0x0a ∧ b ≠ 0x0d) ∧
    lines.foldlM appendLine {} = .ok (ofLines lines) ∧
    ∀ e ∈ (ofLines lines).entries, ∀ b,
      e.value.head? = some b ∨ e.value.getLast? = some b → b ≠ 0x20 ∧ b ≠ 0x09 := by
  refine ⟨fun e he => ?_, foldlM_appendLine lines, fun e he b hb => ?_⟩
  · have hc : e.Clean := clean_afterAll (fun _ h => clean_ofLines h) rs e he
    exact ⟨hc, hc.unbroken⟩
  · obtain ⟨line, -, hl⟩ := mem_ofLines he
    have hblank := Field.value_of_ofLine? hl hb
    refine ⟨?_, ?_⟩ <;> rintro rfl <;> exact absurd hblank (by decide)

/-- A cookie that is read, a value with a line break that is refused, a name that is empty, and a
field that is inserted. -/
theorem afterAll_clean_cookie :
    let lines : List Bytes :=
      [utf8 "HTTP/1.1 200", utf8 "Set-Cookie:\t a=1 \r\n", utf8 "no field"]
    let rs : List Request :=
      [.append (utf8 "SET-COOKIE") (utf8 "b\r\nc"), .insertIfValid [] (utf8 "d"),
        .insert (utf8 "X-Id") (utf8 "7")]
    let cookie : Field := ⟨utf8 "set-cookie", utf8 "a=1"⟩
    (cookie ∈ (ofLines lines).entries ∧
        ((ofLines lines).afterAll rs).entries = [cookie, ⟨utf8 "x-id", utf8 "7"⟩]) ∧
      cookie.Clean ∧ 0x0a ∉ cookie.value ∧ cookie.value.head? ≠ some 0x20 := by
  intro lines rs cookie
  have hread : cookie ∈ (ofLines lines).entries := by decide
  have hleft : ((ofLines lines).afterAll rs).entries = [cookie, ⟨utf8 "x-id", utf8 "7"⟩] := by
    decide
  have hmem : cookie ∈ ((ofLines lines).afterAll rs).entries := by
    rw [hleft]
    exact List.mem_cons_self
  obtain ⟨hclean, -, hstripped⟩ := afterAll_clean lines rs
  obtain ⟨hc, hbytes⟩ := hclean cookie hmem
  refine ⟨⟨hread, hleft⟩, hc, fun hb => ?_, fun hhead => ?_⟩
  · exact (hbytes 0x0a (List.mem_append_right _ hb)).2.1 rfl
  · exact (hstripped cookie hread 0x20 (.inl hhead)).1 rfl

end Fields

end RetryVerdict

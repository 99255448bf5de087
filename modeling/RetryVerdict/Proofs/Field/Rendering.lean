import RetryVerdict.Proofs.Field.Blocks

/-!
# Field — fields written as lines, and read again

A field is written as a line in many ways: its name in any case, any run of spaces and tabs on either
side of its value, and CR LF at the end or not (`Field.Spelling`).  A `Rendering` of fields writes
each of them in turn, in a way of its own, with any blank lines in between.

* `Spelling.ofLine?_line`: a clean field whose value is bare is read from each of its spellings, even
  if its name begins with `http` or its value has colons.
* `Rendering.entries_foldl_readLine`: so reading a rendering adds just the fields that were written.

`ofLines_rendering` says what that means for maps: every map that can be reached is read again from
its renderings if its values are bare, and every map that was read from lines is so without more ado.
-/

namespace RetryVerdict

open Bytes (utf8 lower sameFolded sameFolded_iff Blanks)

namespace Field

/-- Spaces and tabs and nothing else. -/
def Gap (w : Bytes) : Prop := ∀ b ∈ w, b = 0x20 ∨ b = 0x09

instance : DecidablePred Gap := fun w => List.decidableBAll _ w

theorem Gap.blanks {w : Bytes} (h : Gap w) : Blanks w := fun b hb => (h b hb).imp_right .inl

/-- A way to write a field as a line. -/
structure Spelling (e : Field) where
  name : Bytes
  lead : Bytes
  trail : Bytes
  /-- The line ends with CR LF. -/
  ended : Bool
  name_same : sameFolded name e.name = true
  lead_gap : Gap lead
  trail_gap : Gap trail

namespace Spelling

variable {e : Field}

/-- What ends the line. -/
def ending (s : e.Spelling) : Bytes := if s.ended then [0x0d, 0x0a] else []

def line (s : e.Spelling) : Bytes :=
  s.name ++ colon :: (s.lead ++ e.value ++ (s.trail ++ s.ending))

/-- The name as it is kept, a space in front of the value, and CR LF. -/
def plain (e : Field) : e.Spelling where
  name := e.name
  lead := [0x20]
  trail := []
  ended := true
  name_same := sameFolded_iff.mpr rfl
  lead_gap := by decide
  trail_gap := by decide

theorem blanks_ending (s : e.Spelling) : Blanks s.ending := by
  unfold ending
  split <;> simp [Blanks]

/-- A spelling of a clean field is a header line, if the value is bare. -/
theorem isLine (s : e.Spelling) (hc : e.Clean) (hb : Bare e.value) :
    IsLine s.line s.name e.value := by
  have hname : isName s.name = true := by
    rw [← isName_lower, sameFolded_iff.mp s.name_same, isName_lower, hc.isName_name]
  obtain ⟨hne, htoken⟩ := isName_iff.mp hname
  refine ⟨⟨[], [], s.lead, s.trail ++ s.ending, ?_, ?_, s.lead_gap.blanks,
    s.trail_gap.blanks.append s.blanks_ending, ?_⟩, hne, htoken, hb, hc.value_plain⟩
  · simp [Blanks]
  · simp [Blanks]
  · rw [List.nil_append, List.append_nil, line]

/-- **A field is read from each of its spellings.** -/
theorem ofLine?_line (s : e.Spelling) (hc : e.Clean) (hb : Bare e.value) :
    ofLine? s.line = some e := by
  refine ofLine?_eq_some_iff_isLine.mpr ⟨s.name, e.value, s.isLine hc hb, ?_⟩
  rw [ofParts, sameFolded_iff.mp s.name_same, hc.lower_name]

end Spelling

end Field

namespace Fields

open RetryVerdict.Field (Spelling Bare)

/-- The lines write the fields in order, with blank lines anywhere. -/
inductive Rendering : List Field → List Bytes → Prop where
  | nil : Rendering [] []
  | blank {es : List Field} {line : Bytes} {lines : List Bytes} (h : Blanks line)
      (t : Rendering es lines) : Rendering es (line :: lines)
  | field {e : Field} {es : List Field} {lines : List Bytes} (s : e.Spelling)
      (t : Rendering es lines) : Rendering (e :: es) (s.line :: lines)

/-- The lines are read as `f`, on their own and behind any others that a status line ends. -/
def ReadAs (lines : List Bytes) (f : Fields) : Prop :=
  ofLines lines = f ∧
    ∀ earlier status, isStatusLine status = true → ofLines (earlier ++ status :: lines) = f

variable {es : List Field} {lines : List Bytes}

theorem exists_rendering : ∀ es, ∃ lines, Rendering es lines
  | [] => ⟨[], .nil⟩
  | e :: es => by
      obtain ⟨lines, t⟩ := exists_rendering es
      exact ⟨_, .field (Spelling.plain e) t⟩

/-- **Reading a rendering adds the fields that were written.** -/
theorem Rendering.entries_foldl_readLine (h : Rendering es lines)
    (hes : ∀ e ∈ es, e.Clean ∧ Bare e.value) (f : Fields) :
    (lines.foldl readLine f).entries = f.entries ++ es := by
  induction h generalizing f with
  | nil => exact (List.append_nil _).symm
  | blank hb _ ih => rw [List.foldl_cons, readLine_of_idle (.inl hb), ih hes]
  | @field e es lines s _ ih =>
      obtain ⟨⟨hc, hv⟩, hes⟩ := List.forall_mem_cons.mp hes
      have hline := s.ofLine?_line hc hv
      rw [List.foldl_cons, ih hes, entries_readLine (isStatusLine_of_ofLine? hline), hline,
        List.append_assoc, Option.toList_some, List.singleton_append]

theorem Rendering.readAs {f : Fields} (h : Rendering f.entries lines)
    (hf : ∀ e ∈ f.entries, e.Clean ∧ Bare e.value) : ReadAs lines f := by
  have hread : ofLines lines = f := by
    have hentries := h.entries_foldl_readLine hf {}
    cases f
    exact congrArg mk hentries
  refine ⟨hread, fun earlier status hs => ?_⟩
  rw [ofLines, List.foldl_append, List.foldl_cons, readLine_of_isStatusLine hs]
  exact hread

/-- What is read from lines is bare. -/
theorem bare_of_mem_ofLines {e : Field} (h : e ∈ (ofLines lines).entries) : Bare e.value := by
  obtain ⟨line, -, hl⟩ := mem_ofLines h
  obtain ⟨_, _, hline, rfl⟩ := Field.ofLine?_eq_some_iff_isLine.mp hl
  exact hline.value_bare

/-- **Reading undoes rendering.**  Take a map of header fields that was read from lines and went
through any history of requests.  If none of its values begins or ends with a space or a tab, then
each way to write its fields as lines, in order and with blank lines anywhere, is read as the same
map, also behind other lines that a status line ends.  A map that was just read from lines needs no
condition: whatever way it is written, it is read again.  And every map can be written. -/
theorem ofLines_rendering (start : List Bytes) (rs : List Request) :
    ((∀ e ∈ ((ofLines start).afterAll rs).entries, Bare e.value) →
      ∀ lines, Rendering ((ofLines start).afterAll rs).entries lines →
        ReadAs lines ((ofLines start).afterAll rs)) ∧
    (∀ lines, Rendering (ofLines start).entries lines → ReadAs lines (ofLines start)) ∧
    ∀ es, ∃ lines, Rendering es lines := by
  refine ⟨fun hbare lines h => h.readAs fun e he => ⟨?_, hbare e he⟩,
    fun lines h => h.readAs fun e he => ⟨clean_ofLines he, bare_of_mem_ofLines he⟩,
    exists_rendering⟩
  exact clean_afterAll (fun _ h => clean_ofLines h) rs e he

/-- A field that was read and two that were added, one of them without a value and with a name like
the mark of a status line: written with other capitals, tabs and blank lines, and the first alone. -/
theorem ofLines_rendering_respelled :
    let start : List Bytes := [utf8 "X-Id: a: b"]
    let rs : List Request := [.append (utf8 "Http") [], .appendIfValid (utf8 "x-id") (utf8 "7")]
    let id : Field := ⟨utf8 "x-id", utf8 "a: b"⟩
    let fields : List Field := [id, ⟨utf8 "http", []⟩, ⟨utf8 "x-id", utf8 "7"⟩]
    let lines : List Bytes :=
      [utf8 "\r\n", utf8 "x-ID:\t a: b \r\n", utf8 "HTTP:\t", utf8 " ", utf8 "X-Id:7"]
    (((ofLines start).afterAll rs).entries = fields ∧ (∀ e ∈ fields, Bare e.value) ∧
        Rendering fields lines ∧ Rendering [id] [utf8 "X-ID:a: b"]) ∧
      ofLines lines = (ofLines start).afterAll rs ∧
      ofLines ([utf8 "Age: 1"] ++ utf8 "HTTP/1.1 200" :: lines) = (ofLines start).afterAll rs ∧
      ofLines [utf8 "X-ID:a: b"] = ofLines start := by
  intro start rs id fields lines
  have hentries : ((ofLines start).afterAll rs).entries = fields := by decide
  have hbare : ∀ e ∈ fields, Bare e.value := by decide
  have hlines : Rendering fields lines := by
    refine .blank (by decide) (.field ⟨utf8 "x-ID", utf8 "\t ", utf8 " ", true, ?_, ?_, ?_⟩
      (.field ⟨utf8 "HTTP", utf8 "\t", [], false, ?_, ?_, ?_⟩
        (.blank (by decide) (.field ⟨utf8 "X-Id", [], [], false, ?_, ?_, ?_⟩ .nil)))) <;> decide
  have hone : Rendering [id] [utf8 "X-ID:a: b"] :=
    .field ⟨utf8 "X-ID", [], [], false, by decide, by decide, by decide⟩ .nil
  obtain ⟨hreached, hread, -⟩ := ofLines_rendering start rs
  obtain ⟨halone, hbehind⟩ := hreached (hentries ▸ hbare) lines (hentries ▸ hlines)
  exact ⟨⟨hentries, hbare, hlines, hone⟩, halone, hbehind _ _ (by decide), (hread _ hone).1⟩

end Fields

end RetryVerdict

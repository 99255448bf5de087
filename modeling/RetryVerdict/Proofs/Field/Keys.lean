import RetryVerdict.Proofs.Field.Clean

/-!
# Field — the key of a name

A map of header fields folds case in two places: the name of a field is folded when the field is
stored, and a look-up compares the stored name with the one that is asked for, up to case.  The two
agree.

`StoredUnder name key` says of a name what becomes of it in a map, whichever request brings it: the
values of `name` stand under `key`.  Names have a key, their lower case, and what is no name has
none (`storedUnder_iff`).  The names of one key are those that are the same up to case
(`storedUnder_iff_sameFolded`), and a look-up finds a field by the names that are stored under the
name of the field, and by no others (`hasName_iff_storedUnder`).

`one_key_per_class` collects this.
-/

namespace RetryVerdict.Fields

open Bytes (utf8 lower sameFolded SameLetters sameFolded_iff lower_lower lower_eq_lower_iff)

/-! ### Storing -/

/-- The requests that add a value of a name. -/
def Request.additions (name value : Bytes) : List Request :=
  [.insert name value, .append name value, .insertIfValid name value, .appendIfValid name value]

/-- The values of `name` are stored under `key`, whichever request adds them to a map. -/
def StoredUnder (name key : Bytes) : Prop :=
  ∀ (f : Fields) (value : Bytes), Field.isValue value = true →
    ∀ r ∈ Request.additions name value, (f.serve r).2.entries.getLast? = some ⟨key, value⟩

section Keys

variable {a b name key : Bytes}

theorem added_of_mem_additions {value : Bytes} {r : Request} (h : r ∈ Request.additions name value) :
    r.added = if Field.isName name && Field.isValue value then [⟨lower name, value⟩] else [] := by
  simp only [Request.additions, List.mem_cons, List.not_mem_nil, or_false] at h
  rcases h with rfl | rfl | rfl | rfl <;> rfl

/-- **The key of a name is its lower case**, and what is no name has no key. -/
theorem storedUnder_iff : StoredUnder name key ↔ Field.isName name = true ∧ key = lower name := by
  constructor
  · intro h
    -- what a map without fields holds after an append has been added by it
    have happend : Request.append name [] ∈ Request.additions name [] := by
      simp [Request.additions]
    have hlast := h {} [] rfl _ happend
    rw [entries_serve, List.filter_nil, List.nil_append, added_of_mem_additions happend] at hlast
    split at hlast
    · next hv =>
        rw [Bool.and_eq_true] at hv
        rw [List.getLast?_singleton, Option.some.injEq, Field.mk.injEq] at hlast
        exact ⟨hv.1, hlast.1.symm⟩
    · cases hlast
  · rintro ⟨hn, rfl⟩ f value hv r hr
    rw [entries_serve, added_of_mem_additions hr, hn, hv]
    exact List.getLast?_concat

theorem exists_storedUnder_iff : (∃ key, StoredUnder name key) ↔ Field.isName name = true := by
  simp only [storedUnder_iff, exists_and_left, exists_eq, and_true]

/-- **The names that are stored under one key are those that are the same up to case.** -/
theorem storedUnder_iff_sameFolded (h : StoredUnder a key) :
    StoredUnder b key ↔ sameFolded a b = true := by
  obtain ⟨ha, rfl⟩ := storedUnder_iff.mp h
  rw [storedUnder_iff, sameFolded_iff]
  constructor
  · rintro ⟨-, hab⟩
    exact hab
  · intro hab
    rw [← Field.isName_eq_of_lower_eq hab]
    exact ⟨ha, hab⟩

/-! ### Looking up -/

/-- **A look-up finds what is stored under the key of the name.** -/
theorem hasName_iff_storedUnder {e : Field} (he : e.Clean) :
    e.hasName name = true ↔ StoredUnder name e.name := by
  have hkey : StoredUnder e.name e.name :=
    storedUnder_iff.mpr ⟨he.isName_name, he.lower_name.symm⟩
  rw [storedUnder_iff_sameFolded hkey]
  rfl

end Keys

/-- **Folding and comparing agree.**  Two byte strings compare the same up to case exactly if their
lower cases are equal, and that is if they have the same length and differ in the case of ASCII
letters only.  Folding keeps the length, changes capitals and nothing else, and changes nothing a
second time; what it makes of a byte string is a name if that was one.  So to be the same up to case
is an equivalence.  Exactly the names have a key under which a map stores their values, and the
names of one key are one class.  In every map that reading and any history of requests can lead to,
a look-up finds a field by the names that are stored under the name of the field, and by no
others. -/
theorem one_key_per_class :
    (∀ a b : Bytes, (sameFolded a b = true ↔ lower a = lower b) ∧
      (sameFolded a b = true ↔ SameLetters a b)) ∧
    (∀ s : Bytes, (lower s).length = s.length ∧
      (∀ i : ℕ, (lower s)[i]? = s[i]?.map fun b => if 0x41 ≤ b ∧ b ≤ 0x5a then b + 0x20 else b) ∧
      lower (lower s) = lower s ∧ Field.isName (lower s) = Field.isName s) ∧
    Equivalence (fun a b : Bytes => sameFolded a b = true) ∧
    (∀ name : Bytes, (∃ key, StoredUnder name key) ↔ Field.isName name = true) ∧
    (∀ a key : Bytes, StoredUnder a key → ∀ b, StoredUnder b key ↔ sameFolded a b = true) ∧
    ∀ (lines : List Bytes) (rs : List Request), ∀ e ∈ ((ofLines lines).afterAll rs).entries,
      ∀ name, e.hasName name = true ↔ StoredUnder name e.name := by
  refine ⟨fun a b => ⟨sameFolded_iff, ?_⟩,
    fun s => ⟨Bytes.length_lower s, Bytes.getElem?_lower s, lower_lower s, Field.isName_lower s⟩,
    Bytes.sameFolded_equivalence, fun name => exists_storedUnder_iff,
    fun a key h b => storedUnder_iff_sameFolded h, fun lines rs e he name => ?_⟩
  · rw [sameFolded_iff, lower_eq_lower_iff]
  · exact hasName_iff_storedUnder (clean_afterAll (fun _ h => clean_ofLines h) rs e he)

/-- A name in two spellings and the key of both; and a field that was read, found by one of them. -/
theorem one_key_per_class_etag :
    let f : Fields := ofLines [utf8 "ETAG: 7"]
    let rs : List Request := [.append (utf8 "E^ag") (utf8 "8")]
    let field : Field := ⟨utf8 "etag", utf8 "7"⟩
    (StoredUnder (utf8 "ETag") (utf8 "etag") ∧ StoredUnder (utf8 "eTAG") (utf8 "etag")) ∧
    (field ∈ (f.afterAll rs).entries ∧ field.hasName (utf8 "eTag") = true ∧
      StoredUnder (utf8 "eTag") (utf8 "etag")) := by
  intro f rs field
  have hkey : StoredUnder (utf8 "ETag") (utf8 "etag") := storedUnder_iff.mpr (by decide)
  have hmem : field ∈ (f.afterAll rs).entries := by decide
  have hfound : field.hasName (utf8 "eTag") = true := by decide
  obtain ⟨-, -, -, -, hclass, hlookup⟩ := one_key_per_class
  exact ⟨⟨hkey, (hclass _ _ hkey (utf8 "eTAG")).mpr (by decide)⟩,
    hmem, hfound, (hlookup _ rs field hmem (utf8 "eTag")).mp hfound⟩

end RetryVerdict.Fields

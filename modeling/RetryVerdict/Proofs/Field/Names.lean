import RetryVerdict.Proofs.Field.Clean

/-!
# Field — which names are one

A request can spell its name in any case.  Names that differ in the case of letters are one name to
a map of header fields, and names that differ in any other way are two.

* `serve_respelled`: a request and the same request in another spelling are answered the same, or
  both refused, and leave the same fields.  So two histories that differ in spelling only run side
  by side (`serveAll_respelled`).
* `index_afterAll_of_apart`: a history of requests about other names leaves the values of a name
  alone.

`names_up_to_case` collects both.
-/

namespace RetryVerdict.Fields

open Bytes (utf8 lower SameLetters lower_eq_lower_iff)

/-! ### Requests and their names -/

namespace Request

/-- The name that the request is about. -/
def name? : Request → Option Bytes
  | first n | values n | contains n | insert n _ | append n _ | insertIfValid n _
  | appendIfValid n _ | erase n => some n
  | read _ => none

/-- The same request about another name. -/
def withName (n : Bytes) : Request → Request
  | first _ => first n
  | values _ => values n
  | contains _ => contains n
  | insert _ value => insert n value
  | append _ value => append n value
  | insertIfValid _ value => insertIfValid n value
  | appendIfValid _ value => appendIfValid n value
  | erase _ => erase n
  | read lines => read lines

/-- The same request, with its name in another case at most. -/
def Respelled (r s : Request) : Prop :=
  ∃ n, s = r.withName n ∧ ∀ m, r.name? = some m → SameLetters m n

/-- The request is about a name, and not about this one in any case. -/
def Apart (name : Bytes) (r : Request) : Prop := ∃ n, r.name? = some n ∧ ¬ SameLetters n name

end Request

/-- The same reply, or the same refusal with the name as it was spelled. -/
inductive SameReply : Except Fault Reply → Except Fault Reply → Prop where
  | granted (x : Reply) : SameReply (.ok x) (.ok x)
  | badName {m n : Bytes} (h : SameLetters m n) :
      SameReply (.error (.badName m)) (.error (.badName n))
  | badValue {m n : Bytes} (h : SameLetters m n) :
      SameReply (.error (.badValue m)) (.error (.badValue n))

/-! ### One name in two spellings -/

section Respelling

variable {m n : Bytes} {r s : Request}

theorem isName_eq (h : SameLetters m n) : Field.isName m = Field.isName n :=
  Field.isName_eq_of_lower_eq (lower_eq_lower_iff.mpr h)

/-- A name is refused in every spelling or in none. -/
theorem sameReply_check (h : SameLetters m n) (value : Bytes) (x : Reply) :
    SameReply ((check m value).map fun _ => x) ((check n value).map fun _ => x) := by
  rw [check, check, isName_eq h]
  cases Field.isName n with
  | false => exact .badName h
  | true =>
      cases Field.isValue value with
      | false => exact .badValue h
      | true => exact .granted x

theorem reply_withName (h : ∀ m, r.name? = some m → SameLetters m n) (i : Index) :
    SameReply (i.reply r) (i.reply (r.withName n)) := by
  cases r with
  | first m | values m | contains m | erase m =>
      simp only [Request.withName, Index.reply, lower_eq_lower_iff.mpr (h m rfl)]
      exact .granted _
  | insert m value | append m value =>
      simp only [Request.withName, Index.reply, lower_eq_lower_iff.mpr (h m rfl)]
      exact sameReply_check (h m rfl) value _
  | insertIfValid m value | appendIfValid m value =>
      simp only [Request.withName, Index.reply, isName_eq (h m rfl)]
      exact .granted _
  | read => exact .granted _

theorem keeps_withName (h : ∀ m, r.name? = some m → SameLetters m n) (e : Field) :
    (r.withName n).keeps e = r.keeps e := by
  cases r with
  | first | values | contains | append | appendIfValid | read => rfl
  | insert m value | insertIfValid m value =>
      simp only [Request.withName, Request.keeps, isName_eq (h m rfl),
        lower_eq_lower_iff.mpr (h m rfl)]
  | erase m => simp only [Request.withName, Request.keeps, lower_eq_lower_iff.mpr (h m rfl)]

theorem added_withName (h : ∀ m, r.name? = some m → SameLetters m n) :
    (r.withName n).added = r.added := by
  cases r with
  | first | values | contains | erase | read => rfl
  | insert m value | insertIfValid m value | append m value | appendIfValid m value =>
      simp only [Request.withName, Request.added, isName_eq (h m rfl),
        lower_eq_lower_iff.mpr (h m rfl)]

/-- **A request does the same in every spelling.** -/
theorem serve_respelled (f : Fields) (h : r.Respelled s) :
    SameReply (f.serve r).1 (f.serve s).1 ∧ (f.serve r).2 = (f.serve s).2 := by
  obtain ⟨n, rfl, hn⟩ := h
  refine ⟨?_, ?_⟩
  · rw [reply_serve, reply_serve]
    exact reply_withName hn _
  · have hentries : (f.serve r).2.entries = (f.serve (r.withName n)).2.entries := by
      rw [entries_serve, entries_serve, added_withName hn]
      simp only [keeps_withName hn]
    exact congrArg Fields.mk hentries

/-- **Histories in different spellings run side by side.** -/
theorem serveAll_respelled {rs ss : List Request} (h : List.Forall₂ Request.Respelled rs ss)
    (f : Fields) :
    List.Forall₂ (fun x y => SameReply x.1 y.1 ∧ x.2 = y.2) (f.serveAll rs) (f.serveAll ss) := by
  induction h generalizing f with
  | nil => exact .nil
  | cons h _ ih =>
      obtain ⟨hreply, hafter⟩ := f.serve_respelled h
      refine .cons ⟨hreply, hafter⟩ ?_
      rw [hafter]
      exact ih _

end Respelling

/-! ### Two names -/

section Apart

variable {name : Bytes} {r : Request} {rs : List Request}

/-- What is asked about another name leaves the values of this one alone. -/
theorem index_serve_of_apart (h : r.Apart name) (f : Fields) :
    (f.serve r).2.index (lower name) = f.index (lower name) := by
  obtain ⟨n, hn, hne⟩ := h
  have hlower : lower name ≠ lower n := fun e => hne (lower_eq_lower_iff.mp e.symm)
  rw [index_serve]
  cases r with
  | first | values | contains => rfl
  | read => cases hn
  | erase =>
      obtain rfl := Option.some.inj hn
      exact Function.update_of_ne hlower _ _
  | insert | insertIfValid | append | appendIfValid =>
      obtain rfl := Option.some.inj hn
      rw [Index.after]
      split
      · exact Function.update_of_ne hlower _ _
      · rfl

theorem index_afterAll_of_apart (h : ∀ r ∈ rs, r.Apart name) (f : Fields) :
    (f.afterAll rs).index (lower name) = f.index (lower name) := by
  induction rs generalizing f with
  | nil => rfl
  | cons r rs ih =>
      obtain ⟨hr, hrs⟩ := List.forall_mem_cons.mp h
      exact (ih hrs (f.serve r).2).trans (index_serve_of_apart hr f)

end Apart

/-- **Names are one up to the case of letters, and not beyond.**  Let two histories ask for the same
with the same values, and let their names differ in the case of letters only.  Then they are answered
the same, step by step, or refused for the same reason, and leave the same fields.  A history of
requests about names that differ from a name in any other way, even in bytes that lie as far apart
as the cases of a letter, leaves every look-up of that name as it was. -/
theorem names_up_to_case (f : Fields) :
    (∀ rs ss, List.Forall₂ Request.Respelled rs ss →
      List.Forall₂ (fun x y => SameReply x.1 y.1 ∧ x.2.entries = y.2.entries)
        (f.serveAll rs) (f.serveAll ss)) ∧
    ∀ rs name, (∀ r ∈ rs, Request.Apart name r) →
      (f.afterAll rs).first? name = f.first? name ∧
      (f.afterAll rs).values name = f.values name ∧
      (f.afterAll rs).contains name = f.contains name := by
  refine ⟨fun rs ss h => ?_, fun rs name h => ?_⟩
  · exact (serveAll_respelled h f).imp fun _ _ hxy => ⟨hxy.1, congrArg entries hxy.2⟩
  · have hvalues : (f.afterAll rs).values name = f.values name := by
      rw [values_eq_index, values_eq_index, index_afterAll_of_apart h]
    have hfirst : (f.afterAll rs).first? name = f.first? name := by
      rw [first?_eq_head?, first?_eq_head?, hvalues]
    refine ⟨hfirst, hvalues, ?_⟩
    rw [contains, contains, hfirst]

/-- A value that is appended, a name that is refused and one that is erased, each in two spellings;
and two names that differ from `x~` as the cases of a letter would, in `^` and in `~`. -/
theorem names_up_to_case_caret :
    let f : Fields := ofLines [utf8 "X~: 1", utf8 "Set-Cookie: a"]
    let rs : List Request :=
      [.append (utf8 "SET-COOKIE") (utf8 "b"), .insert (utf8 "a b") (utf8 "c"), .erase (utf8 "x^")]
    let ss : List Request :=
      [.append (utf8 "set-Cookie") (utf8 "b"), .insert (utf8 "A B") (utf8 "c"), .erase (utf8 "X^")]
    let others : List Request := [.insert (utf8 "x^") (utf8 "2"), .erase (utf8 "X^")]
    (List.Forall₂ Request.Respelled rs ss ∧
      List.Forall₂ (fun x y => SameReply x.1 y.1 ∧ x.2.entries = y.2.entries)
        (f.serveAll rs) (f.serveAll ss)) ∧
    ((∀ r ∈ others, Request.Apart (utf8 "x~") r) ∧
      (f.afterAll others).first? (utf8 "x~") = some (utf8 "1")) := by
  intro f rs ss others
  have hspelled : ∀ {m n : Bytes}, lower m = lower n → ∀ k, some m = some k → SameLetters k n := by
    rintro m n h k ⟨⟩
    exact lower_eq_lower_iff.mp h
  have hrs : List.Forall₂ Request.Respelled rs ss :=
    .cons ⟨_, rfl, hspelled (by decide)⟩ (.cons ⟨_, rfl, hspelled (by decide)⟩
      (.cons ⟨_, rfl, hspelled (by decide)⟩ .nil))
  have hcaret : ∀ {n : Bytes}, lower n ≠ lower (utf8 "x~") → ¬ SameLetters n (utf8 "x~") :=
    fun hne h => hne (lower_eq_lower_iff.mpr h)
  have hothers : ∀ r ∈ others, Request.Apart (utf8 "x~") r := by
    simp only [others, List.forall_mem_cons]
    exact ⟨⟨_, rfl, hcaret (by decide)⟩, ⟨_, rfl, hcaret (by decide)⟩, by simp⟩
  obtain ⟨hsame, happart⟩ := names_up_to_case f
  exact ⟨⟨hrs, hsame rs ss hrs⟩, hothers, (happart others _ hothers).1.trans (by decide)⟩

end RetryVerdict.Fields

import RetryVerdict.Field.Request
import RetryVerdict.Proofs.Bytes.Folding
import Mathlib.Algebra.BigOperators.Group.Finset.Basic
import Mathlib.Logic.Function.Basic

/-!
# Field — the map beside the fields

An `Index` holds a list of values for each name, names in lower case; it knows no order among
fields of different names.  Each request has its plain meaning there: to append is to put a value
at the end of a list, to insert is to start the list again, to erase is to empty it, and a refused
request does nothing (`Index.after`, `Index.reply`).

* `index_serve`, `reply_serve`: the fields answer a request as their index does, and the index of
  the fields after it is the index after it.  So a whole history is one of the index
  (`index_afterAll`).
* `shows_index`: look-ups by any spelling of a name show what the index holds, and the size is the
  number of all its values.
* `guarded_eq`: an update that is checked first takes effect, or it is refused and changes nothing.
  Insertions and appends are such updates, and their lenient forms answer whether they took effect
  (`serve_insert`, `serve_lenient`).
* `entries_serve`: the fields that a request keeps stay in their order, and what it adds stands
  last.

`afterAll_multimap` collects this for histories of any requests.
-/

namespace RetryVerdict.Fields

open Bytes (lower lower_lower sameFolded_iff)

/-- The values of each name, the names in lower case. -/
abbrev Index := Bytes → List Bytes

/-- The values of the fields, by the lower case of their names. -/
def index (f : Fields) : Index :=
  fun name => (f.entries.filter (lower ·.name = name)).map (·.value)

/-! ### Requests to an index -/

namespace Index

/-- The index after a request. -/
def after (m : Index) : Request → Index
  | .insert name value | .insertIfValid name value =>
    if Field.isName name && Field.isValue value then Function.update m (lower name) [value] else m
  | .append name value | .appendIfValid name value =>
    if Field.isName name && Field.isValue value then
      Function.update m (lower name) (m (lower name) ++ [value])
    else m
  | .erase name => Function.update m (lower name) []
  | .read lines => (ofLines lines).index
  | .first _ | .values _ | .contains _ => m

/-- What a request is answered: an insertion and an erasure give the first value from before, and
an append says whether there was a value before. -/
def reply (m : Index) : Request → Except Fault Reply
  | .first name | .erase name => .ok (.value (m (lower name)).head?)
  | .values name => .ok (.values (m (lower name)))
  | .contains name => .ok (.flag (m (lower name) ≠ []))
  | .insert name value => (check name value).map fun _ => .value (m (lower name)).head?
  | .append name value => (check name value).map fun _ => .flag (m (lower name) ≠ [])
  | .insertIfValid name value | .appendIfValid name value =>
    .ok (.flag (Field.isName name && Field.isValue value))
  | .read _ => .ok .done

/-- The index after a history of requests. -/
def afterAll (m : Index) (rs : List Request) : Index := rs.foldl after m

end Index

namespace Request

/-- The request leaves the field in its place. -/
def keeps (e : Field) : Request → Bool
  | .insert name value | .insertIfValid name value =>
    !(Field.isName name && Field.isValue value) || lower e.name != lower name
  | .erase name => lower e.name != lower name
  | .read _ => false
  | .append _ _ | .appendIfValid _ _ | .first _ | .values _ | .contains _ => true

/-- The fields that the request adds. -/
def added : Request → List Field
  | .insert name value | .insertIfValid name value | .append name value
  | .appendIfValid name value =>
    if Field.isName name && Field.isValue value then [⟨lower name, value⟩] else []
  | .read lines => (ofLines lines).entries
  | .erase _ | .first _ | .values _ | .contains _ => []

end Request

/-! ### Look-ups -/

/-- What the look-ups in `f` show is what `m` holds. -/
structure Shows (f : Fields) (m : Index) : Prop where
  values_eq : ∀ name, f.values name = m (lower name)
  first?_eq : ∀ name, f.first? name = (m (lower name)).head?
  contains_iff : ∀ name, f.contains name = true ↔ m (lower name) ≠ []
  /-- The size counts the values of all names that have one. -/
  size_eq : ∃ names : Finset Bytes, (∀ name, name ∈ names ↔ m name ≠ []) ∧
    f.size = ∑ name ∈ names, (m name).length

section Lookups

variable (f : Fields) (name : Bytes)

theorem hasName_iff {e : Field} : e.hasName name = true ↔ lower e.name = lower name :=
  sameFolded_iff

theorem filter_hasName :
    f.entries.filter (·.hasName name) = f.entries.filter (lower ·.name = lower name) :=
  List.filter_congr fun e _ => by rw [Bool.eq_iff_iff, hasName_iff, decide_eq_true_iff]

theorem values_eq_index : f.values name = f.index (lower name) := by
  rw [values, filter_hasName, index]

theorem first?_eq_head? : f.first? name = (f.values name).head? := by
  rw [first?, values, List.head?_map, List.head?_filter]

theorem contains_iff_values_ne_nil : f.contains name = true ↔ f.values name ≠ [] := by
  rw [contains, first?_eq_head?, List.isSome_head?]

theorem length_index :
    (f.index name).length = (f.entries.map (lower ·.name)).countP (decide <| · = name) := by
  rw [index, List.length_map, List.countP_map, List.countP_eq_length_filter]
  rfl

theorem shows_index : f.Shows f.index where
  values_eq := f.values_eq_index
  first?_eq name := by rw [first?_eq_head?, values_eq_index]
  contains_iff name := by rw [contains_iff_values_ne_nil, values_eq_index]
  size_eq := by
    refine ⟨(f.entries.map (lower ·.name)).toFinset, fun name => ?_, ?_⟩
    · rw [ne_eq, ← List.length_eq_zero_iff, length_index, List.countP_eq_zero, List.mem_toFinset]
      simp
    · have hcount := List.sum_toFinset_count_eq_length (f.entries.map (lower ·.name))
      rw [List.length_map] at hcount
      refine hcount.symm.trans (Finset.sum_congr rfl fun name _ => ?_)
      rw [length_index]
      rfl

end Lookups

/-! ### Changes -/

section Changes

variable (f : Fields) (name value : Bytes)

theorem entries_without :
    (f.without name).entries = f.entries.filter (lower ·.name != lower name) := by
  refine List.filter_congr fun e _ => ?_
  rw [Bool.eq_iff_iff, Bool.not_eq_true', Bool.eq_false_iff, ne_eq, hasName_iff, bne_iff_ne]

theorem entries_push : (f.push name value).entries = f.entries ++ [⟨lower name, value⟩] := rfl

theorem entries_put :
    (f.put name value).entries
      = f.entries.filter (lower ·.name != lower name) ++ [⟨lower name, value⟩] := by
  rw [put, entries_push, entries_without]

theorem index_push :
    (f.push name value).index
      = Function.update f.index (lower name) (f.index (lower name) ++ [value]) := by
  funext n
  rw [index, entries_push, List.filter_append, List.map_append]
  by_cases hn : n = lower name
  · subst hn
    rw [Function.update_self, List.filter_cons_of_pos (by simp [lower_lower])]
    rfl
  · rw [Function.update_of_ne hn, List.filter_cons_of_neg (by simp [lower_lower, Ne.symm hn])]
    exact List.append_nil _

theorem index_without : (f.without name).index = Function.update f.index (lower name) [] := by
  funext n
  rw [index, entries_without, List.filter_filter]
  by_cases hn : n = lower name
  · subst hn
    rw [Function.update_self, List.map_eq_nil_iff, List.filter_eq_nil_iff]
    simp
  · rw [Function.update_of_ne hn, index]
    refine congrArg _ (List.filter_congr fun e _ => ?_)
    by_cases he : lower e.name = n
    · simp [he, hn]
    · simp [he]

theorem index_put : (f.put name value).index = Function.update f.index (lower name) [value] := by
  rw [put, index_push, index_without, Function.update_self, List.nil_append,
    Function.update_idem]

end Changes

/-! ### Checked updates -/

section CheckedUpdates

variable (f g : Fields) (name value : Bytes)

theorem check_eq_ok (h : (Field.isName name && Field.isValue value) = true) :
    check name value = .ok () := by
  rw [Bool.and_eq_true] at h
  simp [check, h.1, h.2]

theorem check_eq_error (h : ¬ (Field.isName name && Field.isValue value) = true) :
    ∃ fault, check name value = .error fault := by
  unfold check
  split
  · exact ⟨_, rfl⟩
  · split
    · exact ⟨_, rfl⟩
    · next hn hv => simp_all

/-- What comes of an update of `f` to `g` that is checked first: the answer `x`, or the fault and no
change. -/
def guarded {α : Type} (x : α) : Except Fault α × Fields :=
  ((check name value).map fun _ => x, if Field.isName name && Field.isValue value then g else f)

/-- **A checked update takes effect, or it is refused and changes nothing.** -/
theorem guarded_eq {α : Type} (x : α) :
    f.guarded g name value x
      = match check name value with
        | .ok _ => (.ok x, g)
        | .error fault => (.error fault, f) := by
  by_cases h : (Field.isName name && Field.isValue value) = true
  · rw [guarded, if_pos h, check_eq_ok name value h]
    rfl
  · obtain ⟨fault, hfault⟩ := check_eq_error name value h
    rw [guarded, if_neg h, hfault]
    rfl

/-- A lenient update answers whether the checked one is let through, and leaves the same. -/
theorem serve_lenient {α : Type} (x : α) :
    (match if Field.isName name && Field.isValue value then (true, g) else (false, f) with
      | (taken, h) => ((.ok (.flag taken), h) : Except Fault Reply × Fields))
      = (.ok (.flag (Field.isName name && Field.isValue value)), (f.guarded g name value x).2) := by
  rw [guarded]
  cases Field.isName name && Field.isValue value <;> rfl

theorem serve_insert :
    f.serve (.insert name value)
      = f.guarded (f.put name value) name value (.value (f.first? name)) := by
  rw [guarded_eq, serve, insert]
  cases check name value <;> rfl

theorem serve_append :
    f.serve (.append name value)
      = f.guarded (f.push name value) name value (.flag (f.contains name)) := by
  rw [guarded_eq, serve, append]
  cases check name value <;> rfl

theorem serve_insertIfValid :
    f.serve (.insertIfValid name value)
      = (.ok (.flag (Field.isName name && Field.isValue value)),
        (f.serve (.insert name value)).2) := by
  rw [serve_insert]
  exact serve_lenient f _ name value _

theorem serve_appendIfValid :
    f.serve (.appendIfValid name value)
      = (.ok (.flag (Field.isName name && Field.isValue value)),
        (f.serve (.append name value)).2) := by
  rw [serve_append]
  exact serve_lenient f _ name value _

end CheckedUpdates

/-! ### Requests -/

section Requests

variable (f g : Fields) (name value : Bytes)

theorem index_guarded {α : Type} (x : α) :
    (f.guarded g name value x).2.index
      = if Field.isName name && Field.isValue value then g.index else f.index :=
  apply_ite index _ _ _

/-- What `g` keeps of `f`, and one field more, is there if the update is let through. -/
theorem entries_guarded {α : Type} (x : α) {keeps : Field → Bool} {e : Field}
    (hg : g.entries = f.entries.filter keeps ++ [e]) :
    (f.guarded g name value x).2.entries
      = f.entries.filter (fun d => !(Field.isName name && Field.isValue value) || keeps d)
        ++ if Field.isName name && Field.isValue value then [e] else [] := by
  rw [guarded]
  split
  · next h => simp [h, hg]
  · next h => simp [h]

theorem entries_insert :
    (f.serve (.insert name value)).2.entries
      = f.entries.filter (Request.keeps · (.insert name value))
        ++ Request.added (.insert name value) := by
  rw [serve_insert]
  exact f.entries_guarded _ name value _ (f.entries_put name value)

theorem entries_append :
    (f.serve (.append name value)).2.entries
      = f.entries.filter (Request.keeps · (.append name value))
        ++ Request.added (.append name value) := by
  have hpush : (f.push name value).entries
      = f.entries.filter (fun _ => true) ++ [⟨lower name, value⟩] := by
    rw [List.filter_true, entries_push]
  rw [serve_append, f.entries_guarded _ name value _ hpush]
  simp [Request.keeps, Request.added]

/-- **What a request keeps stays in order, and what it adds stands last.** -/
theorem entries_serve (r : Request) :
    (f.serve r).2.entries = f.entries.filter (r.keeps ·) ++ r.added := by
  cases r with
  | first | values | contains => simp [serve, Request.keeps, Request.added]
  | insert name value => exact f.entries_insert name value
  | append name value => exact f.entries_append name value
  | insertIfValid name value =>
      rw [serve_insertIfValid]
      exact f.entries_insert name value
  | appendIfValid name value =>
      rw [serve_appendIfValid]
      exact f.entries_append name value
  | erase name => simp [serve, erase, Request.keeps, Request.added, entries_without]
  | read lines => simp [serve, Request.keeps, Request.added]

/-- The index follows each request. -/
theorem index_serve (r : Request) : (f.serve r).2.index = f.index.after r := by
  cases r with
  | first | values | contains | read => rfl
  | erase name => exact index_without f name
  | insert name value => rw [serve_insert, index_guarded, index_put, Index.after]
  | append name value => rw [serve_append, index_guarded, index_push, Index.after]
  | insertIfValid name value =>
      rw [serve_insertIfValid, serve_insert, index_guarded, index_put, Index.after]
  | appendIfValid name value =>
      rw [serve_appendIfValid, serve_append, index_guarded, index_push, Index.after]

/-- **A request is answered from the index.** -/
theorem reply_serve (r : Request) : (f.serve r).1 = f.index.reply r := by
  have hfirst : ∀ name, f.first? name = (f.index (lower name)).head? := f.shows_index.first?_eq
  have hcontains : ∀ name, f.contains name = decide (f.index (lower name) ≠ []) := fun name => by
    rw [Bool.eq_iff_iff, decide_eq_true_iff]
    exact f.shows_index.contains_iff name
  cases r with
  | first name | erase name => simp [serve, erase, Index.reply, hfirst]
  | values name => simp [serve, Index.reply, values_eq_index]
  | contains name => simp [serve, Index.reply, hcontains]
  | insert name value => rw [serve_insert, guarded, Index.reply, hfirst]
  | append name value => rw [serve_append, guarded, Index.reply, hcontains]
  | insertIfValid name value => rw [serve_insertIfValid, Index.reply]
  | appendIfValid name value => rw [serve_appendIfValid, Index.reply]
  | read lines => rfl

end Requests

/-! ### Histories -/

/-- **The index of what a history leaves is what the history makes of the index.** -/
theorem index_afterAll (f : Fields) (rs : List Request) :
    (f.afterAll rs).index = f.index.afterAll rs := by
  induction rs generalizing f with
  | nil => rfl
  | cons r rs ih =>
      have hf : f.afterAll (r :: rs) = (f.serve r).2.afterAll rs := rfl
      have hm : f.index.afterAll (r :: rs) = (f.index.after r).afterAll rs := rfl
      rw [hf, hm, ih, index_serve]

/-- **Fields are a map from names, up to case, to lists of values.**  Let a map start with the
values of `f` by the lower case of their names, which is the empty map for no fields, and let it go
through the same history: a request with a valid name and value puts the value at the end of the
list of its name, or makes it the only one; erasing empties the list; and a refused request does
nothing.  Then after the history every look-up, by whatever spelling of a name, shows what the map
holds, and the size is the number of its values.  The next request is answered from that map, the
fields that it keeps stay in their order, and what it adds stands last. -/
theorem afterAll_multimap (f : Fields) (rs : List Request) :
    ({} : Fields).index = (fun _ => []) ∧
    (f.afterAll rs).Shows (f.index.afterAll rs) ∧
    ∀ r, ((f.afterAll rs).serve r).1 = (f.index.afterAll rs).reply r ∧
      ((f.afterAll rs).serve r).2.entries
        = (f.afterAll rs).entries.filter (r.keeps ·) ++ r.added := by
  rw [← index_afterAll]
  exact ⟨rfl, shows_index _, fun r => ⟨reply_serve _ r, entries_serve _ r⟩⟩

end RetryVerdict.Fields

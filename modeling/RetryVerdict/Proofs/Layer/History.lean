import RetryVerdict.Layer
import RetryVerdict.Proofs.Rank.Sorting
import Mathlib.Data.List.ReduceOption

/-!
# Layer — what a history of edits leaves

A history is a list of edits, and some of them are refused.  The *registrations* of a history are
the classifiers that it leaves in a layer: of the edits that were accepted, those from the last
replacement on, each with the classifiers it was given (`registrations`).

* `edit_cases` and `edit_eq_error_iff` say all that one edit can do.  It does nothing to a frozen
  layer (`afterAll_of_frozen`).
* `Reflects` is the invariant, field by field: the classifiers are the stable sort of the
  registrations, the layer has replaced its classifiers if a replacement was accepted, and it is
  frozen if the history freezes it.  One edit keeps it (`Reflects.of_ok`, `Reflects.of_error`), so
  every history does (`reflects_afterAll`).
* Adding inserts a classifier at its place.  That is to put it at the end and to sort anew:
  `Rank.insertBy_eq_sortBy` says so of sorted lists, and `after_add_classifiers` of a layer that can
  be changed.
* `afterAll_history` adds which edits are refused after a history, and why.
-/

namespace RetryVerdict.Layer

open Rank (IsStableSort isStableSort_sortBy)

/-! ### Edits and histories -/

namespace Edit

/-- The operation on classifiers that an edit calls for; a freeze calls for none. -/
def mutation? : Edit → Option Mutation
  | add _ => some .add
  | replace _ => some .replace
  | freeze => none

/-- The classifiers that an edit is given, present or absent. -/
def arguments : Edit → List (Option Classifier)
  | add k => [k]
  | replace ks => ks
  | freeze => []

/-- The classifiers that an edit brings. -/
def classifiers (e : Edit) : List Classifier := e.arguments.reduceOption

/-- The edit puts its classifiers in the place of all others. -/
def isReplacement (e : Edit) : Bool := e.mutation? == some .replace

end Edit

/-- The edits of a history that are accepted, from the layer `l` on. -/
def accepted (l : Layer) : List Edit → List Edit
  | [] => []
  | e :: es =>
    match l.edit e with
    | .ok l' => e :: l'.accepted es
    | .error _ => l.accepted es

/-- The edits from the last replacement on; all of them if none replaces. -/
def sinceReplacement : List Edit → List Edit
  | [] => []
  | e :: es => if es.any Edit.isReplacement then sinceReplacement es else e :: es

/-- The classifiers that a history leaves in a layer that was empty, in order of arrival. -/
def registrations (es : List Edit) : List Classifier :=
  (sinceReplacement (accepted {} es)).flatMap Edit.classifiers

/-! ### One edit -/

section Arguments

variable {α : Type} {ks : List (Option α)} {xs : List α}

theorem mapM_id_eq_some_iff : ks.mapM id = some xs ↔ ks = xs.map some := by
  induction ks generalizing xs with
  | nil => cases xs <;> simp
  | cons k ks ih =>
      cases k with
      | none => cases xs <;> simp
      | some x =>
          cases xs with
          | nil => cases h : ks.mapM id <;> simp [h]
          | cons y ys =>
              have hys : ks.mapM id = some ys ↔ ks = ys.map some := ih
              simp only [List.mapM_cons, id, List.map_cons, List.cons.injEq, Option.some.injEq, ← hys]
              cases ks.mapM id <;> simp

theorem mapM_id_eq_none_iff : ks.mapM id = none ↔ none ∈ ks := by
  induction ks with
  | nil => simp
  | cons k ks ih =>
      cases k with
      | none => simp
      | some x =>
          simp only [List.mapM_cons, id, List.mem_cons, reduceCtorEq, false_or, ← ih]
          cases ks.mapM id <;> simp

theorem reduceOption_map_some (xs : List α) : (xs.map some).reduceOption = xs := by
  simp [List.reduceOption, List.filterMap_map]

theorem map_some_reduceOption (h : none ∉ ks) : ks.reduceOption.map some = ks := by
  cases hks : ks.mapM id with
  | none => exact absurd (mapM_id_eq_none_iff.mp hks) h
  | some xs => rw [mapM_id_eq_some_iff.mp hks, reduceOption_map_some]

end Arguments

/-- **All that an accepted edit can do.** -/
theorem edit_cases {l l' : Layer} {e : Edit} (h : l.edit e = .ok l') :
    (∃ k, e = .add (some k)
      ∧ l' = { l with classifiers := Rank.insertBy Classifier.rank k l.classifiers }) ∨
    (∃ ks, e = .replace (ks.map some)
      ∧ l' = { l with classifiers := Rank.sortBy Classifier.rank ks, replaced := true }) ∨
    (e = .freeze ∧ l' = l.freeze) := by
  cases e with
  | add k =>
      simp only [edit, add] at h
      split at h
      · cases h
      · cases k with
        | none => cases h
        | some k => exact .inl ⟨k, rfl, (Except.ok.inj h).symm⟩
  | replace ks =>
      simp only [edit, replace] at h
      split at h
      · cases h
      · cases hks : ks.mapM id with
        | none => rw [hks] at h; cases h
        | some xs =>
            rw [hks] at h
            exact .inr (.inl ⟨xs, congrArg _ (mapM_id_eq_some_iff.mp hks),
              (Except.ok.inj h).symm⟩)
  | freeze => exact .inr (.inr ⟨rfl, (Except.ok.inj h).symm⟩)

/-- **When an edit is refused, and why.**  A frozen layer is refused before its arguments are
looked at. -/
theorem edit_eq_error_iff {l : Layer} {e : Edit} {f : Fault} :
    l.edit e = .error f ↔ ∃ m, e.mutation? = some m ∧
      (l.frozen = true ∧ f = .frozen m ∨
        l.frozen = false ∧ none ∈ e.arguments ∧ f = .absent m) := by
  cases e with
  | add k =>
      cases hl : l.frozen with
      | true => simp [edit, add, hl, Edit.mutation?, eq_comm]
      | false => cases k <;> simp [edit, add, hl, Edit.mutation?, Edit.arguments, eq_comm]
  | replace ks =>
      cases hl : l.frozen with
      | true => simp [edit, replace, hl, Edit.mutation?, eq_comm]
      | false =>
          have hks : ks.mapM id = none ↔ none ∈ ks := mapM_id_eq_none_iff
          cases h : ks.mapM id with
          | none => simp [edit, replace, hl, h, Edit.mutation?, Edit.arguments, hks.mp h, eq_comm]
          | some xs =>
              have hne : none ∉ ks := fun hm => by cases h.symm.trans (hks.mpr hm)
              simp [edit, replace, hl, h, Edit.mutation?, Edit.arguments, hne]
  | freeze => simp [edit, Edit.mutation?]

theorem after_of_ok {l l' : Layer} {e : Edit} (h : l.edit e = .ok l') : l.after e = l' := by
  rw [after, h]

/-- A refused edit leaves the layer as it was. -/
theorem after_of_error {l : Layer} {e : Edit} {f : Fault} (h : l.edit e = .error f) :
    l.after e = l := by
  rw [after, h]

/-! ### Frozen layers -/

theorem freeze_eq_self {l : Layer} (h : l.frozen = true) : l.freeze = l := by
  rw [freeze, ← h]

/-- No edit changes a frozen layer. -/
theorem after_of_frozen {l : Layer} (h : l.frozen = true) (e : Edit) : l.after e = l := by
  cases e with
  | add k => simp [after, edit, add, h]
  | replace ks => simp [after, edit, replace, h]
  | freeze => exact freeze_eq_self h

/-- **A frozen layer stays as it is**, whatever edits are tried. -/
theorem afterAll_of_frozen {l : Layer} (h : l.frozen = true) (es : List Edit) :
    l.afterAll es = l := by
  induction es with
  | nil => rfl
  | cons e es ih => rw [afterAll, List.foldl_cons, after_of_frozen h]; exact ih

/-! ### One more edit at the end of a history -/

section History

variable {l l' : Layer} {e : Edit} {f : Fault} {es : List Edit}

theorem afterAll_cons (l : Layer) (e : Edit) (es : List Edit) :
    l.afterAll (e :: es) = (l.after e).afterAll es :=
  rfl

theorem afterAll_concat (l : Layer) (es : List Edit) (e : Edit) :
    l.afterAll (es ++ [e]) = (l.afterAll es).after e := by
  rw [afterAll, List.foldl_append]
  rfl

theorem afterAll_append (l : Layer) (es fs : List Edit) :
    l.afterAll (es ++ fs) = (l.afterAll es).afterAll fs :=
  List.foldl_append

theorem accepted_append (l : Layer) (es fs : List Edit) :
    l.accepted (es ++ fs) = l.accepted es ++ (l.afterAll es).accepted fs := by
  induction es generalizing l with
  | nil => rfl
  | cons e es ih =>
      cases h : l.edit e with
      | ok l' => simp only [List.cons_append, accepted, h, ih, afterAll_cons, after_of_ok h]
      | error f => simp only [List.cons_append, accepted, h, ih, afterAll_cons, after_of_error h]

theorem accepted_concat_of_ok (h : (l.afterAll es).edit e = .ok l') :
    l.accepted (es ++ [e]) = l.accepted es ++ [e] := by
  simp only [accepted_append, accepted, h]

theorem accepted_concat_of_error (h : (l.afterAll es).edit e = .error f) :
    l.accepted (es ++ [e]) = l.accepted es := by
  simp only [accepted_append, accepted, h, List.append_nil]

theorem sinceReplacement_concat (es : List Edit) (e : Edit) :
    sinceReplacement (es ++ [e])
      = if e.isReplacement then [e] else sinceReplacement es ++ [e] := by
  induction es with
  | nil => cases h : e.isReplacement <;> simp [sinceReplacement]
  | cons d es ih =>
      cases h : e.isReplacement with
      | true => simp [sinceReplacement, ih, h]
      | false =>
          simp only [List.cons_append, sinceReplacement, List.any_append, List.any_cons, h,
            List.any_nil, Bool.or_false, ih]
          split <;> simp

theorem sinceReplacement_eq_self (h : es.any Edit.isReplacement = false) :
    sinceReplacement es = es := by
  cases es with
  | nil => rfl
  | cons e es =>
      rw [List.any_cons, Bool.or_eq_false_iff] at h
      rw [sinceReplacement, if_neg (by simp [h.2])]

theorem registrations_concat_of_error (h : (afterAll {} es).edit e = .error f) :
    registrations (es ++ [e]) = registrations es := by
  rw [registrations, accepted_concat_of_error h, registrations]

theorem registrations_concat_of_replacement (h : (afterAll {} es).edit e = .ok l')
    (he : e.isReplacement = true) : registrations (es ++ [e]) = e.classifiers := by
  rw [registrations, accepted_concat_of_ok h, sinceReplacement_concat, if_pos he,
    List.flatMap_singleton]

theorem registrations_concat_of_not_replacement (h : (afterAll {} es).edit e = .ok l')
    (he : e.isReplacement = false) :
    registrations (es ++ [e]) = registrations es ++ e.classifiers := by
  rw [registrations, accepted_concat_of_ok h, sinceReplacement_concat, if_neg (by simp [he]),
    List.flatMap_append, List.flatMap_singleton, registrations]

end History

/-! ### What a whole history leaves -/

/-- The fields of a layer are what a history makes of those of an empty one. -/
structure Reflects (l : Layer) (es : List Edit) : Prop where
  /-- The classifiers are sorted, and none of the registrations is lost. -/
  sorted : IsStableSort Classifier.rank (registrations es) l.classifiers
  /-- The layer hides those below it if a replacement was accepted. -/
  replaced_eq : l.replaced = (accepted {} es).any Edit.isReplacement
  frozen_iff : l.frozen = true ↔ .freeze ∈ es

theorem Reflects.of_error {es : List Edit} {e : Edit} {f : Fault}
    (h : (afterAll {} es).Reflects es) (he : (afterAll {} es).edit e = .error f) :
    (afterAll {} es).Reflects (es ++ [e]) where
  sorted := by
    rw [registrations_concat_of_error he]
    exact h.sorted
  replaced_eq := by
    rw [accepted_concat_of_error he]
    exact h.replaced_eq
  frozen_iff := by
    obtain ⟨m, hm, -⟩ := edit_eq_error_iff.mp he
    have hne : .freeze ≠ e := fun hf => by rw [← hf] at hm; cases hm
    simp [h.frozen_iff, hne]

theorem Reflects.of_ok {es : List Edit} {e : Edit} {l' : Layer}
    (h : (afterAll {} es).Reflects es) (he : (afterAll {} es).edit e = .ok l') :
    l'.Reflects (es ++ [e]) := by
  have hreplaced := accepted_concat_of_ok he
  rcases edit_cases he with ⟨k, rfl, rfl⟩ | ⟨ks, rfl, rfl⟩ | ⟨rfl, rfl⟩
  · refine ⟨?_, ?_, by simp [h.frozen_iff]⟩
    · rw [registrations_concat_of_not_replacement he rfl]
      exact h.sorted.insertBy k
    · rw [hreplaced, List.any_append, ← h.replaced_eq]
      exact (Bool.or_false _).symm
  · refine ⟨?_, ?_, by simp [h.frozen_iff]⟩
    · rw [registrations_concat_of_replacement he rfl, Edit.classifiers, Edit.arguments,
        reduceOption_map_some]
      exact isStableSort_sortBy ks
    · rw [hreplaced, List.any_append]
      exact (Bool.or_true _).symm
  · refine ⟨?_, ?_, by simp [freeze]⟩
    · rw [registrations_concat_of_not_replacement he rfl, Edit.classifiers, Edit.arguments,
        List.reduceOption_nil, List.append_nil]
      exact h.sorted
    · rw [hreplaced, List.any_append, ← h.replaced_eq]
      exact (Bool.or_false _).symm

/-- **A layer reflects its history.** -/
theorem reflects_afterAll (es : List Edit) : (afterAll {} es).Reflects es := by
  -- from the end, since an edit that is accepted later may drop what was registered before
  induction es using List.reverseRecOn with
  | nil => exact ⟨.nil, rfl, by simp [afterAll]⟩
  | append_singleton es e ih =>
      rw [afterAll_concat]
      cases he : (afterAll {} es).edit e with
      | error f =>
          rw [after_of_error he]
          exact ih.of_error he
      | ok l' =>
          rw [after_of_ok he]
          exact ih.of_ok he

/-- **Adding is sorting anew** what the layer holds, with the classifier at the end. -/
theorem after_add_classifiers {es : List Edit} (h : .freeze ∉ es) (k : Classifier) :
    ((afterAll {} es).after (.add (some k))).classifiers
      = Rank.sortBy Classifier.rank ((afterAll {} es).classifiers ++ [k]) := by
  have hl := reflects_afterAll es
  have hf : (afterAll {} es).frozen = false :=
    Bool.eq_false_iff.mpr fun hf => h (hl.frozen_iff.mp hf)
  rw [← Rank.insertBy_eq_sortBy k hl.sorted.ascending]
  simp [after, edit, add, hf]

/-- An accepted edit is given no absent classifier. -/
theorem none_notMem_arguments {es : List Edit} {e : Edit} (h : e ∈ accepted {} es) :
    none ∉ e.arguments := by
  induction es using List.reverseRecOn with
  | nil => cases h
  | append_singleton es d ih =>
      cases hd : (afterAll {} es).edit d with
      | error f =>
          rw [accepted_concat_of_error hd] at h
          exact ih h
      | ok l' =>
          rw [accepted_concat_of_ok hd] at h
          rcases List.mem_append.mp h with h | h
          · exact ih h
          · obtain rfl := List.mem_singleton.mp h
            rcases edit_cases hd with ⟨k, rfl, -⟩ | ⟨ks, rfl, -⟩ | ⟨rfl, -⟩ <;>
              simp [Edit.arguments]

theorem mem_of_mem_sinceReplacement {e : Edit} {es : List Edit} (h : e ∈ sinceReplacement es) :
    e ∈ es := by
  induction es with
  | nil => exact h
  | cons d es ih =>
      rw [sinceReplacement] at h
      split at h
      · exact List.mem_cons_of_mem d (ih h)
      · exact h

/-- **Nothing is lost.**  The registrations are what the accepted edits from the last replacement
on were given, one for one. -/
theorem map_some_registrations (es : List Edit) :
    (registrations es).map some
      = (sinceReplacement (accepted {} es)).flatMap Edit.arguments := by
  rw [registrations, List.map_flatMap]
  exact List.flatMap_congr fun e he =>
    map_some_reduceOption (none_notMem_arguments (mem_of_mem_sinceReplacement he))

/-- **What a history leaves, and what it lets through.**  The classifiers of the layer are the one
stable sort of the registrations, and the registrations are what the accepted edits from the last
replacement on were given.  The layer has replaced its classifiers if a replacement was accepted,
and it is frozen if the history freezes it.  A further edit is refused if it changes classifiers
and the layer is frozen, or if one of its arguments is absent; a frozen layer is refused in any
case, and a refused edit leaves the layer as it was. -/
theorem afterAll_history (es : List Edit) :
    (∀ ks, IsStableSort Classifier.rank (registrations es) ks
      ↔ ks = (afterAll {} es).classifiers) ∧
    (registrations es).map some
      = (sinceReplacement (accepted {} es)).flatMap Edit.arguments ∧
    ((afterAll {} es).replaced = true ↔ ∃ e ∈ accepted {} es, e.isReplacement = true) ∧
    ((afterAll {} es).frozen = true ↔ .freeze ∈ es) ∧
    ∀ e f, ((afterAll {} es).edit e = .error f ↔ ∃ m, e.mutation? = some m ∧
        (.freeze ∈ es ∧ f = .frozen m ∨
          .freeze ∉ es ∧ none ∈ e.arguments ∧ f = .absent m)) ∧
      ((afterAll {} es).edit e = .error f → afterAll {} (es ++ [e]) = afterAll {} es) := by
  have h := reflects_afterAll es
  refine ⟨fun ks => ⟨fun hks => hks.unique h.sorted, ?_⟩, map_some_registrations es, ?_,
    h.frozen_iff, fun e f => ⟨?_, ?_⟩⟩
  · rintro rfl
    exact h.sorted
  · rw [h.replaced_eq, List.any_eq_true]
  · rw [edit_eq_error_iff, ← h.frozen_iff, Bool.not_eq_true]
  · intro he
    rw [afterAll_concat, after_of_error he]

end RetryVerdict.Layer

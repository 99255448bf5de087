import RetryVerdict.Workspace.Command
import RetryVerdict.Proofs.Layer.History

/-!
# Layer — one layer over another

Two layers with their histories, put one over the other, hold the stable sort of one list: the
registrations of the upper history alone if it replaced, and otherwise those of the lower history
followed by those of the upper one (`effective`, `isStableSort_stack`).

So a stack depends on what was registered and in which order, and neither on how the registrations
are shared out between the layers nor on the edits that brought them.  `stack_histories` says this
by comparing the stack with a single layer, to which the same classifiers were added one by one
(`additions`).
-/

namespace RetryVerdict.Layer

open Rank (IsStableSort isStableSort_sortBy)

/-- The classifiers that count when a layer of history `fs` is put over one of history `es`. -/
def effective (es fs : List Edit) : List Classifier :=
  if (accepted {} fs).any Edit.isReplacement then registrations fs
  else registrations es ++ registrations fs

/-- The history that adds these classifiers one by one. -/
def additions (ks : List Classifier) : List Edit := ks.map fun k => .add (some k)

/-! ### Adding one by one -/

/-- If nothing freezes the layer and no classifier is absent, all edits are accepted. -/
theorem accepted_eq_self {es : List Edit} (hf : .freeze ∉ es)
    (hn : ∀ e ∈ es, none ∉ e.arguments) : accepted {} es = es := by
  induction es using List.reverseRecOn with
  | nil => rfl
  | append_singleton es e ih =>
      have hf' : .freeze ∉ es := fun h => hf (List.mem_append_left _ h)
      cases he : (afterAll {} es).edit e with
      | ok l' =>
          rw [accepted_concat_of_ok he, ih hf' fun d hd => hn d (List.mem_append_left _ hd)]
      | error f =>
          obtain ⟨m, -, ⟨hl, -⟩ | ⟨-, hm, -⟩⟩ := edit_eq_error_iff.mp he
          · exact absurd ((reflects_afterAll es).frozen_iff.mp hl) hf'
          · exact absurd hm (hn e (List.mem_append_right _ List.mem_cons_self))

theorem accepted_additions (ks : List Classifier) : accepted {} (additions ks) = additions ks :=
  accepted_eq_self (by simp [additions]) (by simp [additions, Edit.arguments])

theorem any_isReplacement_additions (ks : List Classifier) :
    (additions ks).any Edit.isReplacement = false := by
  simp [additions, Edit.isReplacement, Edit.mutation?]

/-- What is added one by one is registered. -/
theorem registrations_additions (ks : List Classifier) : registrations (additions ks) = ks := by
  rw [registrations, accepted_additions,
    sinceReplacement_eq_self (any_isReplacement_additions ks), additions, List.flatMap_map]
  simp [Edit.classifiers, Edit.arguments]

/-- What was added at the start is registered, unless there is a replacement. -/
theorem prefix_registrations {ks : List Classifier} {es : List Edit}
    (h : ∀ e ∈ accepted {} (additions ks ++ es), e.isReplacement = false) :
    ks <+: registrations (additions ks ++ es) := by
  have hno : (accepted {} (additions ks ++ es)).any Edit.isReplacement = false := by simpa using h
  have hks : (additions ks).flatMap Edit.classifiers = ks := by
    simp [additions, List.flatMap_map, Edit.classifiers, Edit.arguments]
  rw [registrations, sinceReplacement_eq_self hno, accepted_append, accepted_additions,
    List.flatMap_append, hks]
  exact List.prefix_append _ _

/-- The layer with the shipped classifiers is one to which they were added. -/
theorem standard_eq_afterAll : standard = afterAll {} (additions Classifier.shipped) := rfl

/-! ### The stack of two histories -/

/-- A layer that has replaced its classifiers hides every layer below it. -/
theorem stack_of_replaced {upper : Layer} (h : upper.replaced = true) (lower : Layer) :
    lower.stack upper = upper.classifiers := by
  rw [stack, if_pos h]

/-- **The stack of two histories is the stable sort of what counts of them.** -/
theorem isStableSort_stack (es fs : List Edit) :
    IsStableSort Classifier.rank (effective es fs)
      ((afterAll {} es).stack (afterAll {} fs)) := by
  have hlower := reflects_afterAll es
  have hupper := reflects_afterAll fs
  rw [effective, stack, ← hupper.replaced_eq]
  split
  · exact hupper.sorted
  · exact hlower.sorted.of_append hupper.sorted (isStableSort_sortBy _)

/-- Without a replacement, the upper layer might have been part of the lower one. -/
theorem stack_eq_additions {es fs : List Edit}
    (h : (accepted {} fs).any Edit.isReplacement = false) :
    (afterAll {} es).stack (afterAll {} fs)
      = (afterAll {} (additions (registrations es ++ registrations fs))).classifiers := by
  have hstack := isStableSort_stack es fs
  have hone := (reflects_afterAll (additions (registrations es ++ registrations fs))).sorted
  rw [effective, if_neg (by simp [h])] at hstack
  rw [registrations_additions] at hone
  exact hstack.unique hone

/-- **Stacking is registering on one layer.**  If the upper history replaced nothing, the stack is
what one layer holds after the registrations of both, those of the lower one first; so it does not
matter where a list of classifiers is cut into a lower and an upper part.  If the upper history
replaced, at whatever time and by however few, the stack is what the upper layer holds, and
whatever is put below it freezes to the same chain.  Listing a stack changes no layer. -/
theorem stack_histories (es fs : List Edit) :
    ((∀ e ∈ accepted {} fs, e.isReplacement = false) →
      (afterAll {} es).stack (afterAll {} fs)
        = (afterAll {} (additions (registrations es ++ registrations fs))).classifiers) ∧
    (∀ ks n, (afterAll {} (additions (ks.take n))).stack (afterAll {} (additions (ks.drop n)))
      = (afterAll {} (additions ks)).classifiers) ∧
    ((∃ e ∈ accepted {} fs, e.isReplacement = true) →
      (∀ lower : Layer, lower.stack (afterAll {} fs) = (afterAll {} fs).classifiers) ∧
      ∀ lower lower' : Layer,
        Chain.ofLayers lower.freeze (some (afterAll {} fs).freeze)
          = Chain.ofLayers lower'.freeze (some (afterAll {} fs).freeze)) ∧
    ∀ (w : Workspace) (lower upper : String),
      w.perform (.stack lower upper)
        = ⟨.ok (.sequence ((w.layer lower).stack (w.layer upper))), [], w⟩ := by
  refine ⟨fun h => stack_eq_additions (by simpa using h), fun ks n => ?_, fun h => ?_,
    fun w lower upper => rfl⟩
  · have hno : (accepted {} (additions (ks.drop n))).any Edit.isReplacement = false := by
      rw [accepted_additions, any_isReplacement_additions]
    rw [stack_eq_additions hno, registrations_additions, registrations_additions,
      List.take_append_drop]
  · have hr : (afterAll {} fs).replaced = true := by
      rw [(reflects_afterAll fs).replaced_eq, List.any_eq_true]
      exact h
    have hf : (afterAll {} fs).freeze.replaced = true := hr
    refine ⟨stack_of_replaced hr, fun lower lower' => ?_⟩
    rw [Chain.ofLayers, Chain.ofLayers, stack_of_replaced hf, stack_of_replaced hf]

/-- An upper layer that only adds, and one that is emptied before it adds. -/
theorem stack_histories_added_and_emptied :
    ((∀ e ∈ accepted {} [.add (some .service), .add none], e.isReplacement = false) ∧
      (afterAll {} [.add none, .add (some .modeled), .freeze]).stack
          (afterAll {} [.add (some .service), .add none])
        = (afterAll {} (additions [.modeled, .service])).classifiers) ∧
    ((∃ e ∈ accepted {} [.replace [], .add (some .transient)], e.isReplacement = true) ∧
      standard.stack (afterAll {} [.replace [], .add (some .transient)]) = [.transient]) := by
  refine ⟨⟨by decide, ?_⟩, by decide, ?_⟩
  · exact (stack_histories [.add none, .add (some .modeled), .freeze] _).1 (by decide)
  · exact ((stack_histories [] [.replace [], .add (some .transient)]).2.2.1 (by decide)).1 standard

end RetryVerdict.Layer

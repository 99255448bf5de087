import RetryVerdict.Proofs.Walk.Law

/-!
# Walk — what is recorded

A *change* is an opinion that takes the place of the verdict before it.  A walk leaves a message for
each of its changes, and one more when it ends.

* `Walks.map_old`: a change takes the place of what the change before it brought, and the first one
  takes the place of the verdict from which the walk started.
* `Walks.exists_closing`: the messages are those of the changes and the closing one, as far as the
  logger admits them.  The level of the logger decides nothing else, since a walk makes the same
  calls at every level (`Walks.walk_eq`).

`judge_recorded` says this of a walk from the start.
-/

namespace RetryVerdict

open Bytes (utf8)

/-! ### Changes -/

/-- One verdict in the place of another. -/
structure Change where
  classifier : Classifier
  old : Verdict
  new : Verdict

/-- The message of a change. -/
def Change.entry (c : Change) : Entry :=
  ⟨.trace, utf8 "classifier '" ++ c.classifier.name ++ utf8 "' (" ++ c.classifier.rank.text
    ++ utf8 ") overrides " ++ c.old.text ++ utf8 " with " ++ c.new.text⟩

/-- The change that a call makes, unless it is an abstention. -/
def Call.change? (c : Call) : Option Change :=
  c.opinion?.map fun w => ⟨c.classifier, c.preceding, w⟩

/-- The changes that these calls make, in order. -/
def changesOf (cs : List Call) : List Change := cs.filterMap Call.change?

/-- The text of the closing message: it names who vetoed, and without a veto the verdict. -/
inductive Closing (cs : List Call) (w : Verdict) : Bytes → Prop where
  | veto {c : Call} (hw : w = .forbid) (hc : c ∈ cs) (h : c.answer = some .forbid) :
      Closing cs w (utf8 "retry forbidden by classifier '" ++ c.classifier.name ++ utf8 "'")
  | verdict (hw : w ≠ .forbid) : Closing cs w (utf8 "classified attempt as " ++ w.text)

section Changes

variable {c : Call} {cs : List Call} {w : Verdict} {text : Bytes}

theorem changesOf_cons_of_abstained (cs : List Call) (h : c.opinion? = none) :
    changesOf (c :: cs) = changesOf cs := by
  rw [changesOf, List.filterMap_cons_none (by rw [Call.change?, h]; rfl), changesOf]

theorem changesOf_cons_of_opinion (cs : List Call) (h : c.opinion? = some w) :
    changesOf (c :: cs) = ⟨c.classifier, c.preceding, w⟩ :: changesOf cs := by
  rw [changesOf, List.filterMap_cons_some (by rw [Call.change?, h]; rfl), changesOf]

/-- The changes bring the opinions. -/
theorem map_new_changesOf (cs : List Call) :
    (changesOf cs).map (·.new) = cs.filterMap Call.opinion? := by
  rw [changesOf, List.map_filterMap]
  refine List.filterMap_congr fun c _ => ?_
  rw [Call.change?, Option.map_map]
  exact Option.map_id'

theorem Closing.cons (h : Closing cs w text) (c : Call) : Closing (c :: cs) w text := by
  cases h with
  | veto hw hc h => exact .veto hw (List.mem_cons_of_mem c hc) h
  | verdict hw => exact .verdict hw

end Changes

/-! ### Levels -/

theorem Level.filter_singleton (l m : Level) (text : Bytes) :
    [Entry.mk m text].filter (l.admits ·.level) = l.record m text := by
  rw [record, List.filter_cons, List.filter_nil]

theorem Level.filter_cons_change (l : Level) (c : Call) (w : Verdict) (es : List Entry) :
    (Change.entry ⟨c.classifier, c.preceding, w⟩ :: es).filter (l.admits ·.level)
      = l.record .trace (c.overrideText w) ++ es.filter (l.admits ·.level) := by
  rw [← List.singleton_append, List.filter_append]
  exact congrArg (· ++ _) (l.filter_singleton .trace _)

theorem Level.admits_trace (m : Level) : Level.trace.admits m = true := by
  cases m <;> rfl

/-! ### The messages of a walk -/

namespace Walks

variable {a : Attempt} {v w : Verdict} {ks : List Classifier} {cs : List Call}

/-- A change takes the place of what the one before it brought. -/
theorem map_old (h : Walks a v ks cs w) :
    (changesOf cs).map (·.old) = (v :: (changesOf cs).map (·.new)).dropLast := by
  induction h with
  | done => rfl
  | abstain h _ ih => rw [changesOf_cons_of_abstained _ h, ih]
  | opinion h _ ih =>
      rw [changesOf_cons_of_opinion _ h, List.map_cons, List.map_cons, ih]
      rfl
  | veto h =>
      rw [changesOf_cons_of_opinion _ h]
      rfl

/-- **The messages are those of the changes and the closing one**, as far as the logger admits
them. -/
theorem exists_closing (h : Walks a v ks cs w) (hv : v ≠ .forbid) :
    ∃ text, Closing cs w text ∧ ∀ l : Level, (walk l a v ks).log
      = ((changesOf cs).map Change.entry ++ [Entry.mk .debug text]).filter (l.admits ·.level) := by
  induction h with
  | done => exact ⟨_, .verdict hv, fun l => (l.filter_singleton .debug _).symm⟩
  | abstain h _ ih =>
      obtain ⟨text, hclosing, hlog⟩ := ih hv
      refine ⟨text, hclosing.cons _, fun l => ?_⟩
      rw [walk_cons_of_abstained _ h, changesOf_cons_of_abstained _ h, ← hlog l]
      rfl
  | opinion h _ ih =>
      obtain ⟨text, hclosing, hlog⟩ := ih (by simp)
      refine ⟨text, hclosing.cons _, fun l => ?_⟩
      rw [walk_cons_of_retry _ h, changesOf_cons_of_opinion _ h, List.map_cons, List.cons_append,
        l.filter_cons_change, ← hlog l]
      rfl
  | veto h =>
      refine ⟨_, .veto rfl List.mem_cons_self (Call.opinion?_eq_forbid_iff.mp h), fun l => ?_⟩
      rw [walk_cons_of_veto _ h, changesOf_cons_of_opinion _ h, List.map_cons, List.cons_append,
        l.filter_cons_change]
      exact congrArg (_ ++ ·) (l.filter_singleton .debug _).symm

end Walks

/-! ### A walk from the start -/

/-- What is recorded of a run when nothing is left out. -/
structure FullyRecorded (r : Run) : Prop where
  /-- A message for each change, and one that closes the walk. -/
  log_eq : ∃ text, Closing r.calls r.verdict text ∧
    r.log = (changesOf r.calls).map Change.entry ++ [Entry.mk .debug text]
  /-- The changes bring the opinions, one by one. -/
  new_eq : (changesOf r.calls).map (·.new) = r.calls.filterMap Call.opinion?
  /-- The first change takes the place of `undecided`, and each other one of what the one before it
  brought. -/
  old_eq : (changesOf r.calls).map (·.old)
    = (.undecided :: (changesOf r.calls).map (·.new)).dropLast
  /-- The last change brings the verdict. -/
  verdict_eq : r.verdict = ((changesOf r.calls).map (·.new)).getLast?.getD .undecided

/-- **What is recorded shows the walk, and changes nothing of it.**  At any two levels of the logger
the same is asked and answered, and the verdict is the same.  At the lowest level there is one
message for each opinion, which tells what it takes the place of, and one more for the end, which
names who vetoed or tells the verdict.  At any other level there are those of these messages that
the level admits. -/
theorem judge_recorded (ks : List Classifier) (a : Attempt) :
    (∀ l l', (judge l ks a).verdict = (judge l' ks a).verdict ∧
      (judge l ks a).calls = (judge l' ks a).calls) ∧
    FullyRecorded (judge .trace ks a) ∧
    ∀ l, (judge l ks a).log = (judge .trace ks a).log.filter (l.admits ·.level) := by
  have h : Walks a .undecided ks (judge .trace ks a).calls (judge .trace ks a).verdict :=
    walk_walks .trace a .undecided ks
  have hsame : ∀ l, (judge l ks a).calls = (judge .trace ks a).calls ∧
      (judge l ks a).verdict = (judge .trace ks a).verdict := h.walk_eq
  obtain ⟨text, hclosing, hlog⟩ := h.exists_closing (by simp)
  have hfull : (judge .trace ks a).log
      = (changesOf (judge .trace ks a).calls).map Change.entry ++ [Entry.mk .debug text] := by
    rw [judge, hlog .trace]
    exact List.filter_eq_self.mpr fun e _ => Level.admits_trace e.level
  refine ⟨fun l l' => ⟨?_, ?_⟩, ⟨⟨text, hclosing, hfull⟩, map_new_changesOf _, h.map_old, ?_⟩,
    fun l => ?_⟩
  · rw [(hsame l).2, (hsame l').2]
  · rw [(hsame l).1, (hsame l').1]
  · rw [map_new_changesOf]
    exact h.verdict_eq
  · rw [hfull, judge, hlog l]

end RetryVerdict

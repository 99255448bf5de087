import RetryVerdict.Proofs.Workspace.Decision

/-!
# Workspace — the history of a layer

A command does one of two things to a layer.  Either it puts another layer in its place
(`Command.assigns`): an empty one, the one with the shipped classifiers, or a copy.  Or it makes
edits of it (`Command.edits`), and most commands make none; a freeze of the layer, alone, below or
above another one, is one edit.

* `layer_perform`: a command that assigns nothing to a layer makes its edits of the layer, and does
  nothing else to it.  `layer_assemble` says this of freezing.
* `history`: so the commands of a workspace give each layer a history of edits, and the layer is
  what the history makes of an empty one (`layer_afterAll`).
-/

namespace RetryVerdict

open Layer (Edit additions)

/-! ### Adding up to a refusal -/

/-- Adding one by one up to the first refusal is adding those in front of the first absent one. -/
theorem Layer.addAll_eq_afterAll (l : Layer) (ks : List (Option Classifier)) :
    (l.addAll ks).2 = l.afterAll ((ks.takeWhile (·.isSome)).map .add) := by
  induction ks generalizing l with
  | nil => rfl
  | cons k ks ih =>
      rw [addAll]
      cases hf : l.frozen with
      | true =>
          rw [afterAll_of_frozen hf]
          simp [add, hf]
      | false =>
          cases k with
          | none => simp [add, hf, afterAll]
          | some k =>
              simp only [add, hf, Bool.false_eq_true, if_false, ih]
              simp [afterAll_cons, after, edit, add, hf]

namespace Workspace

/-! ### What a command does to a layer -/

namespace Command

/-- The command puts another layer in the place of the one of this name. -/
def assigns (name : String) : Command → Bool
  | fresh n | standard n | copy n _ => n = name
  | edit .. | addAll .. | stack .. | assemble .. | inspect _ | judge .. | setLevel _ | removeLogger
  | installLogger _ | reportLogger => false

/-- The edits that the command makes of the layer of this name. -/
def edits (name : String) : Command → List Edit
  | edit n e => if n = name then [e] else []
  | addAll n ks => if n = name then (ks.takeWhile (·.isSome)).map .add else []
  | assemble base upper _ => if name = base ∨ upper = some name then [.freeze] else []
  | fresh _ | standard _ | copy .. | stack .. | inspect _ | judge .. | setLevel _ | removeLogger
  | installLogger _ | reportLogger => []

/-- The histories of the layers after one more command. -/
def record (h : String → List Edit) (c : Command) (name : String) : List Edit :=
  match c with
  | fresh n => if n = name then [] else h name
  | standard n => if n = name then additions Classifier.shipped else h name
  | copy n source => if n = name then h source else h name
  | c => h name ++ c.edits name

end Command

variable (w : Workspace) (name : String)

/-- **Freezing changes no layer**, but that the layers it is asked for are frozen. -/
theorem layer_assemble (base : String) (upper : Option String) (chain : String) :
    (w.assemble base upper chain).2.layer name
      = if name = base ∨ upper = some name then (w.layer name).freeze else w.layer name := by
  have hlayers : (w.assemble base upper chain).2.layer = (w.freezeAll base upper).layer := by
    rw [assemble]
    split <;> rfl
  rw [hlayers]
  by_cases hbase : name = base
  · subst hbase
    rw [if_pos (.inl rfl)]
    cases upper with
    | none => simp [freezeAll, freeze, setLayer]
    | some upper => exact (layer_freezeAll w name upper).1
  · cases upper with
    | none => simp [freezeAll, freeze, setLayer, hbase]
    | some upper =>
        by_cases hupper : upper = name
        · subst hupper
          rw [if_pos (.inr rfl)]
          exact (layer_freezeAll w base upper).2
        · simp [freezeAll, freeze, setLayer, hbase, hupper, Ne.symm hupper]

/-- **A command that assigns nothing to a layer makes its edits of it.** -/
theorem layer_perform {c : Command} (h : c.assigns name = false) :
    (w.perform c).after.layer name = (w.layer name).afterAll (c.edits name) := by
  cases c with
  | fresh n | standard n | copy n =>
      have hn : name ≠ n := by simpa [Command.assigns, eq_comm] using h
      simp [perform, setLayer, hn, Command.edits, Layer.afterAll]
  | edit n e =>
      rw [w.layer_perform_edit (n, e) name, Command.edits]
      by_cases hn : n = name
      · rw [if_pos hn.symm, if_pos hn]
        rfl
      · rw [if_neg (Ne.symm hn), if_neg hn]
        rfl
  | addAll n ks =>
      rw [Command.edits]
      by_cases hn : n = name
      · subst hn
        rw [if_pos rfl, ← Layer.addAll_eq_afterAll]
        simp [perform, setLayer]
      · rw [if_neg hn]
        simp [perform, setLayer, Ne.symm hn, Layer.afterAll]
  | assemble base upper chain =>
      rw [Command.edits]
      refine (w.layer_assemble name base upper chain).trans ?_
      split <;> rfl
  | stack | inspect | judge | setLevel | removeLogger | installLogger | reportLogger => rfl

/-! ### Histories -/

/-- The edits that made each layer of the workspace after these commands. -/
def history (cs : List Command) : String → List Edit := cs.foldl Command.record fun _ => []

theorem history_concat (cs : List Command) (c : Command) :
    history (cs ++ [c]) name = c.record (history cs) name := by
  rw [history, List.foldl_append]
  rfl

theorem afterAll_concat (cs : List Command) (c : Command) :
    w.afterAll (cs ++ [c]) = ((w.afterAll cs).perform c).after := by
  rw [afterAll, List.foldl_append]
  rfl

/-- What a command does to a layer is what it does to the history of the layer. -/
theorem layer_perform_record {w : Workspace} {h : String → List Edit}
    (hw : ∀ n, w.layer n = Layer.afterAll {} (h n)) (c : Command) (name : String) :
    (w.perform c).after.layer name = Layer.afterAll {} (c.record h name) := by
  cases hc : c.assigns name with
  | true =>
      cases c with
      | fresh n =>
          obtain rfl : n = name := by simpa [Command.assigns] using hc
          simp [perform, setLayer, Command.record, Layer.afterAll]
      | standard n =>
          obtain rfl : n = name := by simpa [Command.assigns] using hc
          simp [perform, setLayer, Command.record, Layer.standard_eq_afterAll]
      | copy n source =>
          obtain rfl : n = name := by simpa [Command.assigns] using hc
          simp [perform, setLayer, Command.record, hw]
      | _ => cases hc
  | false =>
      have hrecord : c.record h name = h name ++ c.edits name := by
        cases c with
        | fresh n | standard n | copy n =>
            have hn : n ≠ name := by simpa [Command.assigns] using hc
            simp [Command.record, Command.edits, hn]
        | _ => rfl
      rw [w.layer_perform name hc, hrecord, Layer.afterAll_append, hw]

/-- **A layer is what its history makes of an empty one.** -/
theorem layer_afterAll (cs : List Command) (name : String) :
    (afterAll {} cs).layer name = Layer.afterAll {} (history cs name) := by
  induction cs using List.reverseRecOn generalizing name with
  | nil => rfl
  | append_singleton cs c ih =>
      rw [afterAll_concat, history_concat]
      exact layer_perform_record ih c name

end Workspace

end RetryVerdict

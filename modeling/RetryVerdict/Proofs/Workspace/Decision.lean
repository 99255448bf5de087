import RetryVerdict.Proofs.Chain.Decision

/-!
# Workspace — the decision of two layers

A workspace is edited layer by layer, in any order.  What an edit leaves in one layer depends on
the edits of that layer alone (`layer_edited`), so a layer of a workspace has a history of its own
(`editsOf`).

`decision_decides`: after any edits, two layers freeze to a chain, and what the chain says of an
attempt is what the registrations of the two histories decide (`Decides`).  The one layer may be
frozen over itself.
-/

namespace RetryVerdict.Workspace

open Layer (Edit effective)

/-- The edits of one layer, in order. -/
def editsOf (name : String) (history : List (String × Edit)) : List Edit :=
  (history.filter (·.1 = name)).map (·.2)

/-- The workspace after edits of named layers. -/
def edited (history : List (String × Edit)) : Workspace :=
  afterAll {} (history.map fun e => .edit e.1 e.2)

/-- The verdict on `a` of the chain of two layers, after edits. -/
def decision (history : List (String × Edit)) (base upper chain : String) (a : Attempt) : Verdict :=
  (((edited history).assemble base (some upper) chain).2.judge chain a).1.verdict

/-! ### Edits of named layers -/

/-- An edit of one layer leaves the others alone. -/
theorem layer_perform_edit (w : Workspace) (e : String × Edit) (name : String) :
    (w.perform (.edit e.1 e.2)).after.layer name
      = if name = e.1 then (w.layer name).after e.2 else w.layer name := by
  rw [perform]
  by_cases hn : name = e.1
  · subst hn
    rw [if_pos rfl, Layer.after]
    cases (w.layer e.1).edit e.2 <;> simp [setLayer]
  · rw [if_neg hn]
    cases (w.layer e.1).edit e.2 <;> simp [setLayer, hn]

theorem layer_afterAll_edits (w : Workspace) (history : List (String × Edit)) (name : String) :
    (w.afterAll (history.map fun e => .edit e.1 e.2)).layer name
      = (w.layer name).afterAll (editsOf name history) := by
  induction history generalizing w with
  | nil => rfl
  | cons e history ih =>
      rw [List.map_cons, afterAll, List.foldl_cons]
      refine (ih _).trans ?_
      rw [layer_perform_edit]
      by_cases hn : name = e.1
      · rw [if_pos hn, editsOf, editsOf, List.filter_cons_of_pos (by simpa using hn.symm)]
        rfl
      · rw [if_neg hn, editsOf, editsOf, List.filter_cons_of_neg (by simpa using Ne.symm hn)]

/-- **Each layer has the history of its own edits.** -/
theorem layer_edited (history : List (String × Edit)) (name : String) :
    (edited history).layer name = Layer.afterAll {} (editsOf name history) :=
  layer_afterAll_edits {} history name

/-! ### Freezing layers -/

/-- Freezing stores the chain of the frozen layers, whether it is empty or not. -/
theorem chain_assemble_eq_ofLayers (w : Workspace) (base : String) (upper : Option String)
    (chain : String) :
    (w.assemble base upper chain).2.chain chain
      = Chain.ofLayers ((w.freezeAll base upper).layer base)
          (upper.map (w.freezeAll base upper).layer) := by
  rw [assemble]
  split <;> simp [withLogger, setChain]

theorem layer_freezeAll (w : Workspace) (base upper : String) :
    (w.freezeAll base (some upper)).layer base = (w.layer base).freeze ∧
      (w.freezeAll base (some upper)).layer upper = (w.layer upper).freeze := by
  by_cases h : base = upper
  · simp [freezeAll, freeze, setLayer, h, Layer.freeze]
  · simp [freezeAll, freeze, setLayer, h, Ne.symm h]

/-- The chain of two layers holds their stack. -/
theorem chain_assemble (w : Workspace) (base upper chain : String) :
    (w.assemble base (some upper) chain).2.chain chain
      = ⟨(w.layer base).stack (w.layer upper)⟩ := by
  obtain ⟨hbase, hupper⟩ := layer_freezeAll w base upper
  rw [chain_assemble_eq_ofLayers, Option.map_some, hbase, hupper]
  rfl

/-- The chain of one layer alone holds its classifiers. -/
theorem chain_assemble_alone (w : Workspace) (base chain : String) :
    (w.assemble base none chain).2.chain chain = ⟨(w.layer base).classifiers⟩ := by
  have hbase : (w.freezeAll base none).layer base = (w.layer base).freeze := by
    simp [freezeAll, freeze, setLayer]
  rw [chain_assemble_eq_ofLayers, hbase]
  rfl

/-! ### The decision -/

/-- **Two layers decide as their registrations do.**  After any edits of the layers of a workspace,
in any order and with refused ones among them, let the registrations that count be steady about
`a`.  Then the chain that the two layers freeze to forbids a retry if one of them vetoes, at
whatever rank, decides nothing if all of them abstain, and otherwise says what the highest of them
says, the latest among equals. -/
theorem decision_decides (history : List (String × Edit)) (base upper chain : String) (a : Attempt)
    (hs : ∀ k ∈ effective (editsOf base history) (editsOf upper history), k.Steady a) :
    Decides a (effective (editsOf base history) (editsOf upper history))
      (decision history base upper chain a) := by
  have hsort := Layer.isStableSort_stack (editsOf base history) (editsOf upper history)
  rw [← layer_edited, ← layer_edited] at hsort
  rw [decision, judge, chain_assemble]
  exact (walk_walks _ a .undecided _).lawful.decides hsort hs

/-- Edits of two layers, interleaved and with refused ones among them, and an attempt about which
three of the four shipped classifiers are asked. -/
theorem decision_decides_unparseable :
    let history : List (String × Edit) :=
      [("client", .add (some .transient)), ("call", .add none), ("call", .add (some .status)),
        ("client", .replace [some .modeled, none]), ("client", .add (some .service))]
    let a : Attempt := .ofUnparseable { status := 503 }
    (∀ k ∈ effective (editsOf "client" history) (editsOf "call" history), k.Steady a) ∧
      Decides a [.transient, .service, .status] (decision history "client" "call" "chain" a) ∧
      decision history "client" "call" "chain" a = .ofCategory .transient := by
  intro history a
  have hs : ∀ k ∈ [Classifier.transient, .service, .status], k.Steady a := by
    simp only [List.forall_mem_cons]
    exact ⟨fun _ _ => rfl, fun _ _ => rfl, fun _ _ => rfl, by simp⟩
  exact ⟨hs, decision_decides history "client" "call" "chain" a hs, by decide⟩

end RetryVerdict.Workspace

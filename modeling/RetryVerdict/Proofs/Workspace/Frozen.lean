import RetryVerdict.Proofs.Workspace.History

/-!
# Workspace — frozen layers

A layer that was frozen once, in whatever role, is what it was for as long as no other layer is put
in its place.

* `layer_perform_of_frozen`: one command leaves it alone, so every run of commands does
  (`layer_afterAll_of_frozen`).
* `perform_of_frozen`: a command that would change its classifiers is refused, before its argument
  is looked at, and leaves the whole workspace as it was.
* `reply_assemble`, `reply_assemble_alone`: the chain that layers freeze to is made from what they
  hold.  So layers that are frozen freeze to the same chain again and again
  (`reply_assemble_again`).

`frozen_layer_stays` collects this for a layer that a freeze has reached.
-/

namespace RetryVerdict.Workspace

open Layer (Edit)

/-- The operation on the classifiers of the layer of this name that a command calls for. -/
def Command.mutation? (name : String) : Command → Option Mutation
  | edit n e => if n = name then e.mutation? else none
  | addAll n (_ :: _) => if n = name then some .add else none
  | addAll _ [] | fresh _ | standard _ | copy .. | stack .. | assemble .. | inspect _ | judge ..
  | setLevel _ | removeLogger | installLogger _ | reportLogger => none

variable {w : Workspace} {name : String}

/-! ### Commands that leave a frozen layer alone -/

theorem layer_perform_of_frozen {c : Command} (hc : c.assigns name = false)
    (hw : (w.layer name).frozen = true) : (w.perform c).after.layer name = w.layer name := by
  rw [layer_perform w name hc, Layer.afterAll_of_frozen hw]

/-- **A frozen layer stays what it was.** -/
theorem layer_afterAll_of_frozen {cs : List Command} (hcs : ∀ c ∈ cs, c.assigns name = false)
    (hw : (w.layer name).frozen = true) : (w.afterAll cs).layer name = w.layer name := by
  induction cs generalizing w with
  | nil => rfl
  | cons c cs ih =>
      obtain ⟨hc, hcs⟩ := List.forall_mem_cons.mp hcs
      have hstep : (w.perform c).after.layer name = w.layer name := layer_perform_of_frozen hc hw
      exact (ih hcs (by rw [hstep]; exact hw)).trans hstep

/-! ### Commands that are refused -/

/-- To store a layer where it was changes nothing. -/
theorem setLayer_layer (w : Workspace) (name : String) : w.setLayer name (w.layer name) = w := by
  have hlayers : (fun n => if n = name then w.layer name else w.layer n) = w.layer := by
    funext n
    split
    · next hn => rw [hn]
    · rfl
  rw [setLayer, hlayers]

/-- **What would change a frozen layer is refused**, whatever it is given. -/
theorem perform_of_frozen {c : Command} {m : Mutation} (hw : (w.layer name).frozen = true)
    (hm : c.mutation? name = some m) : w.perform c = ⟨.error (.frozen m), [], w⟩ := by
  cases c with
  | edit n e =>
      simp only [Command.mutation?, Option.ite_none_right_eq_some] at hm
      obtain ⟨rfl, hm⟩ := hm
      have he : (w.layer n).edit e = .error (.frozen m) :=
        Layer.edit_eq_error_iff.mpr ⟨m, hm, .inl ⟨hw, rfl⟩⟩
      rw [perform, he]
  | addAll n ks =>
      cases ks with
      | nil => cases hm
      | cons k ks =>
          simp only [Command.mutation?, Option.ite_none_right_eq_some] at hm
          obtain ⟨rfl, hm⟩ := hm
          have hadd : (w.layer n).addAll (k :: ks) = (.error (.frozen .add), w.layer n) := by
            simp [Layer.addAll, Layer.add, hw]
          rw [perform, hadd, ← Option.some.inj hm]
          simp only [setLayer_layer]
          rfl
  | _ => cases hm

/-! ### The chain that layers freeze to -/

theorem reply_assemble_alone (w : Workspace) (base chain : String) :
    (w.perform (.assemble base none chain)).reply = .ok (.chain ⟨(w.layer base).classifiers⟩) := by
  rw [← w.chain_assemble_alone base chain]
  rfl

theorem reply_assemble (w : Workspace) (base upper chain : String) :
    (w.perform (.assemble base (some upper) chain)).reply
      = .ok (.chain ⟨(w.layer base).stack (w.layer upper)⟩) := by
  rw [← w.chain_assemble base upper chain]
  rfl

/-- **Frozen layers freeze to the same chain again**, whatever comes between and whatever the chain
is called. -/
theorem reply_assemble_again {base upper : String} {cs : List Command}
    (hbase : (w.layer base).frozen = true) (hupper : (w.layer upper).frozen = true)
    (hcsb : ∀ c ∈ cs, c.assigns base = false) (hcsu : ∀ c ∈ cs, c.assigns upper = false)
    (chain₁ chain₂ : String) :
    ((w.afterAll cs).perform (.assemble base (some upper) chain₂)).reply
      = (w.perform (.assemble base (some upper) chain₁)).reply := by
  rw [reply_assemble, reply_assemble, layer_afterAll_of_frozen hcsb hbase,
    layer_afterAll_of_frozen hcsu hupper]

/-! ### A layer that a freeze has reached -/

/-- **A frozen layer stays what it was.**  Let a freeze reach a layer, alone, below or above
another one, in any workspace, and let any commands follow of which none puts another layer in its
place.  Then every change of the layer is refused for being frozen, whatever it is given, and
leaves the workspace as it was; the layer holds what it held, and is frozen; and it freezes to the
chain of what it held before.  With another layer that is frozen as well and not replaced it
freezes to the same chain every time, below it or above it.  The freeze itself changes no layer,
but that the layers it is asked for are frozen. -/
theorem frozen_layer_stays (w : Workspace) (name base : String) (upper : Option String)
    (chain : String) (later : List Command) (hname : name = base ∨ upper = some name)
    (hlater : ∀ c ∈ later, c.assigns name = false) :
    let w₁ := (w.perform (.assemble base upper chain)).after
    let w₂ := w₁.afterAll later
    (∀ c m, c.mutation? name = some m → w₂.perform c = ⟨.error (.frozen m), [], w₂⟩) ∧
    (w₂.layer name = w₁.layer name ∧ (w₂.layer name).frozen = true) ∧
    (∀ chain', (w₂.perform (.assemble name none chain')).reply
      = .ok (.chain ⟨(w.layer name).classifiers⟩)) ∧
    (∀ other pre post, later = pre ++ post → ((w₁.afterAll pre).layer other).frozen = true →
      (∀ c ∈ post, c.assigns other = false) → ∀ chain₁ chain₂,
        (w₂.perform (.assemble other (some name) chain₂)).reply
          = ((w₁.afterAll pre).perform (.assemble other (some name) chain₁)).reply ∧
        (w₂.perform (.assemble name (some other) chain₂)).reply
          = ((w₁.afterAll pre).perform (.assemble name (some other) chain₁)).reply) ∧
    ∀ n, w₁.layer n = if n = base ∨ upper = some n then (w.layer n).freeze else w.layer n := by
  intro w₁ w₂
  have hfreeze : ∀ n,
      w₁.layer n = if n = base ∨ upper = some n then (w.layer n).freeze else w.layer n :=
    fun n => w.layer_assemble n base upper chain
  have hname₁ : w₁.layer name = (w.layer name).freeze := by rw [hfreeze, if_pos hname]
  have hfrozen₁ : (w₁.layer name).frozen = true := by rw [hname₁]; rfl
  have hname₂ : w₂.layer name = w₁.layer name := layer_afterAll_of_frozen hlater hfrozen₁
  have hfrozen₂ : (w₂.layer name).frozen = true := by rw [hname₂]; exact hfrozen₁
  refine ⟨fun c m hm => perform_of_frozen hfrozen₂ hm, ⟨hname₂, hfrozen₂⟩, fun chain' => ?_, ?_,
    hfreeze⟩
  · rw [reply_assemble_alone, hname₂, hname₁]
    rfl
  · rintro other pre post rfl hother hpost chain₁ chain₂
    obtain ⟨hpre, hpost'⟩ := List.forall_mem_append.mp hlater
    have hsplit : w₂ = (w₁.afterAll pre).afterAll post := List.foldl_append
    have hpre' : ((w₁.afterAll pre).layer name).frozen = true := by
      rw [layer_afterAll_of_frozen hpre hfrozen₁]
      exact hfrozen₁
    rw [hsplit]
    exact ⟨reply_assemble_again hother hpre' hpost hpost' chain₁ chain₂,
      reply_assemble_again hpre' hother hpost' hpost chain₁ chain₂⟩

/-- A layer that was frozen above another one: it is emptied and added to in vain, frozen alone and
over itself, and put over two layers, of which one is not frozen and starts again later. -/
theorem frozen_layer_stays_override :
    let w : Workspace := afterAll {} [.standard "client", .edit "call" (.add (some .status))]
    let pre : List Command := [.edit "call" (.replace []), .assemble "call" (some "call") "own"]
    let post : List Command :=
      [.addAll "call" [none], .assemble "new" (some "call") "chain", .fresh "new",
        .edit "new" (.add (some .modeled)), .copy "spare" "call"]
    let w₁ := (w.perform (.assemble "client" (some "call") "chain")).after
    let w₂ := w₁.afterAll (pre ++ post)
    (∀ c ∈ pre ++ post, c.assigns "call" = false) ∧
    ((w₁.afterAll pre).layer "client").frozen = true ∧
    w₂.perform (.edit "call" (.add none)) = ⟨.error (.frozen .add), [], w₂⟩ ∧
    (w₂.perform (.assemble "call" none "again")).reply = .ok (.chain ⟨[.status]⟩) ∧
    (w₂.perform (.assemble "client" (some "call") "chain")).reply
      = ((w₁.afterAll pre).perform (.assemble "client" (some "call") "chain")).reply := by
  intro w pre post w₁ w₂
  have hlater : ∀ c ∈ pre ++ post, c.assigns "call" = false := by decide
  have hclient : ((w₁.afterAll pre).layer "client").frozen = true := by decide
  obtain ⟨hrefused, -, halone, hboth, -⟩ :=
    frozen_layer_stays w "call" "client" (some "call") "chain" (pre ++ post) (.inr rfl) hlater
  exact ⟨hlater, hclient, hrefused (.edit "call" (.add none)) .add rfl, halone "again",
    (hboth "client" pre post rfl hclient (by decide) "chain" "chain").1⟩

end RetryVerdict.Workspace

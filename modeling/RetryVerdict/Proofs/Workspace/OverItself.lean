import RetryVerdict.Proofs.Workspace.Override

/-!
# Workspace — a layer over itself

Nothing forbids to freeze a layer over itself.  If it has replaced its classifiers it hides itself,
so to speak, and the chain is that of the layer alone.  Otherwise all that was registered counts
twice (`Assembly.registered_overItself`), so the chain shows each rank's block of classifiers twice
in a row.

Who prevails in a list that is doubled prevails in the list, so the doubled chain decides nothing
else.  `Assembly.over_itself` says both.
-/

namespace RetryVerdict.Workspace.Assembly

open Layer (accepted effective)
open Rank (ranksOf block)

/-- The base is frozen over itself. -/
def overItself (m : Assembly) : Assembly := { m with upper := some m.base }

variable {m : Assembly} {a : Attempt}

/-! ### The chain -/

/-- A layer over itself counts twice, unless it has replaced its classifiers. -/
theorem registered_overItself (m : Assembly) :
    m.overItself.registered
      = if (accepted {} (history m.commands m.base)).any Layer.Edit.isReplacement then
          m.alone.registered
        else m.alone.registered ++ m.alone.registered :=
  rfl

theorem chain_overItself_of_replaced
    (h : ∃ e ∈ accepted {} (history m.commands m.base), e.isReplacement = true) :
    m.overItself.chain = m.alone.chain :=
  chain_eq_iff.mpr fun r => by rw [registered_overItself, if_pos (List.any_eq_true.mpr h)]

theorem registered_overItself_of_kept
    (h : ∀ e ∈ accepted {} (history m.commands m.base), e.isReplacement = false) :
    m.overItself.registered = m.alone.registered ++ m.alone.registered := by
  rw [registered_overItself, if_neg (by simpa using h)]

/-- The chain of the layer alone shows the block of each rank once. -/
theorem classifiers_alone (m : Assembly) :
    m.alone.chain.classifiers
      = (ranksOf Classifier.rank m.alone.registered).flatMap
          (block Classifier.rank m.alone.registered) :=
  m.alone.isStableSort_chain.eq_flatMap_block (Rank.ranksOf_ascending _ _)
    fun k hk => Rank.mem_ranksOf.mpr ⟨k, hk, rfl⟩

/-! ### The decision -/

/-- **A chain decides what was registered for it decides.** -/
theorem decides_run (m : Assembly) (l : Level) (hs : ∀ k ∈ m.registered, k.Steady a) :
    Decides a m.registered (m.run l a).verdict :=
  (walk_walks l a .undecided m.chain.classifiers).lawful.decides m.isStableSort_chain hs

theorem mem_registered_alone {k : Classifier} :
    k ∈ m.alone.registered ↔ k ∈ (m.layer m.base).classifiers := by
  rw [← m.alone.isStableSort_chain.perm.mem_iff, chain_alone]

/-- Classifiers that do not look at the verdict before them decide the same if all are asked
twice. -/
theorem verdict_overItself (l : Level) (hs : ∀ k ∈ (m.layer m.base).classifiers, k.Steady a) :
    (m.overItself.run l a).verdict = (m.alone.run l a).verdict := by
  have hs' : ∀ k ∈ m.alone.registered, k.Steady a := fun k hk => hs k (mem_registered_alone.mp hk)
  by_cases h : ∃ e ∈ accepted {} (history m.commands m.base), e.isReplacement = true
  · rw [run_eq_judge, run_eq_judge, chain_overItself_of_replaced h]
  · have hkept : m.overItself.registered = m.alone.registered ++ m.alone.registered :=
      registered_overItself_of_kept (by simpa using h)
    have htwice : Decides a m.overItself.registered (m.overItself.run l a).verdict :=
      m.overItself.decides_run l (by simpa [hkept] using hs')
    rw [hkept, decides_append_self_iff] at htwice
    exact htwice.unique (m.alone.decides_run l hs')

/-- **A layer over itself.**  After any commands, let a layer be frozen over itself.  If it ever
replaced its classifiers, the chain is that of the layer alone.  Otherwise, where the chain of the
layer alone shows the classifiers of each rank as one block, in the order in which they were
registered and the ranks ascending, the chain shows each block twice in a row.  In either case, the
two chains come to the same verdict on every attempt about which the answers of the layer's
classifiers do not depend on the verdict before. -/
theorem over_itself (m : Assembly) :
    ((∃ e ∈ accepted {} (history m.commands m.base), e.isReplacement = true) →
      m.overItself.chain = m.alone.chain) ∧
    ((∀ e ∈ accepted {} (history m.commands m.base), e.isReplacement = false) →
      (ranksOf Classifier.rank m.alone.registered).Pairwise (· < ·) ∧
      m.alone.chain.classifiers
        = (ranksOf Classifier.rank m.alone.registered).flatMap
            (block Classifier.rank m.alone.registered) ∧
      m.overItself.chain.classifiers
        = (ranksOf Classifier.rank m.alone.registered).flatMap fun r =>
            block Classifier.rank m.alone.registered r
              ++ block Classifier.rank m.alone.registered r) ∧
    ∀ (l : Level) (a : Attempt), (∀ k ∈ (m.layer m.base).classifiers, k.Steady a) →
      (m.overItself.run l a).verdict = (m.alone.run l a).verdict := by
  refine ⟨chain_overItself_of_replaced, fun h => ⟨Rank.ranksOf_ascending _ _, m.classifiers_alone,
    ?_⟩, fun l a hs => verdict_overItself l hs⟩
  have hsort := m.overItself.isStableSort_chain
  rw [registered_overItself_of_kept h] at hsort
  exact hsort.eq_flatMap_block_twice

/-- Two classifiers of one rank with one of a lower rank between them, and a layer that has replaced
its classifiers and then got another one. -/
theorem over_itself_blocks :
    let veto : Classifier := { name := Bytes.utf8 "veto", answer := fun _ _ => some .forbid }
    let mute : Classifier := { name := Bytes.utf8 "mute", answer := fun _ _ => none }
    let add (k : Option Classifier) : Command := .edit "call" (.add k)
    let m : Assembly := ⟨[add (some mute), add (some .status), add none, add (some veto)], "call",
      none, "chain"⟩
    let n : Assembly := ⟨[add (some mute), .edit "call" (.replace []), add (some .status)], "call",
      none, "chain"⟩
    let a : Attempt := .ofResponse { status := 503 }
    ((∀ e ∈ accepted {} (history m.commands m.base), e.isReplacement = false) ∧
      m.overItself.chain.classifiers = [.status, .status, mute, veto, mute, veto]) ∧
    ((∃ e ∈ accepted {} (history n.commands n.base), e.isReplacement = true) ∧
      n.overItself.chain = n.alone.chain) ∧
    (∀ k ∈ (m.layer m.base).classifiers, k.Steady a) ∧
      (m.overItself.run .off a).verdict = .forbid := by
  intro veto mute add m n a
  have hkept : ∀ e ∈ accepted {} (history m.commands m.base), e.isReplacement = false := by decide
  have hreplaced : ∃ e ∈ accepted {} (history n.commands n.base), e.isReplacement = true := by
    decide
  have hs : ∀ k ∈ (m.layer m.base).classifiers, k.Steady a := by
    have hlayer : (m.layer m.base).classifiers = [.status, mute, veto] := rfl
    rw [hlayer]
    simp only [List.forall_mem_cons]
    exact ⟨fun _ _ => rfl, fun _ _ => rfl, fun _ _ => rfl, by simp⟩
  have hregistered : m.alone.registered = [mute, .status, veto] := rfl
  have hranks : ranksOf Classifier.rank m.alone.registered
      = [Classifier.status.rank, .standard] := by decide
  obtain ⟨-, -, hchain⟩ := (over_itself m).2.1 hkept
  rw [hranks, hregistered] at hchain
  have hveto : (m.alone.run .off a).verdict = .forbid := by decide
  exact ⟨⟨hkept, hchain.trans rfl⟩, ⟨hreplaced, (over_itself n).1 hreplaced⟩, hs,
    ((over_itself m).2.2 .off a hs).trans hveto⟩

end RetryVerdict.Workspace.Assembly

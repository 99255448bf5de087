import RetryVerdict.Proofs.Workspace.History

/-!
# Workspace — ways to a chain

An `Assembly` is a way to a chain: some commands, and then the freeze of a layer, alone or with
another one above it.  Its chain is the stable sort of what was registered, the lower layer first
(`Assembly.registered`, `Assembly.isStableSort_chain`).  So two assemblies have the same chain if,
and only if, they register the same classifiers of each rank in the same order
(`Assembly.chain_eq_iff`).  How the classifiers are shared out between layers, and which classifiers
of other ranks come between them, does not matter.

`Assembly.order_within_ranks` says what that means for what the chains decide, ask and record.
-/

namespace RetryVerdict.Workspace

open Layer (effective registrations)
open Rank (IsStableSort)

/-- Some commands, and the freeze of a layer, and of one above it if it is named. -/
structure Assembly where
  commands : List Command
  base : String
  upper : Option String := none
  /-- The name under which the chain is stored. -/
  chainName : String := "chain"

namespace Assembly

/-- The workspace after the freeze. -/
def workspace (m : Assembly) : Workspace :=
  ((afterAll {} m.commands).perform (.assemble m.base m.upper m.chainName)).after

def chain (m : Assembly) : Chain := m.workspace.chain m.chainName

/-- What the chain makes of an attempt, with a logger of this level. -/
def run (m : Assembly) (l : Level) (a : Attempt) : Run :=
  ((m.workspace.setLevel l).judge m.chainName a).1

/-- The classifiers that count, in order of arrival: those of the base, then those of the layer
above it, or the latter alone if that layer replaced. -/
def registered (m : Assembly) : List Classifier :=
  match m.upper with
  | none => registrations (history m.commands m.base)
  | some name => effective (history m.commands m.base) (history m.commands name)

variable {m n : Assembly}

/-- **The chain is the stable sort of what was registered.** -/
theorem isStableSort_chain (m : Assembly) :
    IsStableSort Classifier.rank m.registered m.chain.classifiers := by
  obtain ⟨cs, base, upper, chain⟩ := m
  cases upper with
  | none =>
      have h := (Layer.reflects_afterAll (history cs base)).sorted
      rw [← layer_afterAll] at h
      rw [Assembly.chain, workspace, perform, chain_assemble_alone]
      exact h
  | some upper =>
      have h := Layer.isStableSort_stack (history cs base) (history cs upper)
      rw [← layer_afterAll, ← layer_afterAll] at h
      rw [Assembly.chain, workspace, perform, chain_assemble]
      exact h

/-- What a chain makes of an attempt depends on nothing but the chain. -/
theorem run_eq_judge (m : Assembly) (l : Level) (a : Attempt) : m.run l a = m.chain.judge l a :=
  rfl

/-- **Chains are equal if the registrations of each rank are.** -/
theorem chain_eq_iff :
    m.chain = n.chain ↔
      ∀ r, m.registered.filter (·.rank = r) = n.registered.filter (·.rank = r) := by
  have hm := m.isStableSort_chain
  have hn := n.isStableSort_chain
  constructor
  · intro h r
    rw [← hm.stable r, ← hn.stable r, h]
  · intro h
    have hsame : m.chain.classifiers = n.chain.classifiers :=
      Rank.eq_of_stable hm.ascending hn.ascending fun r => by rw [hm.stable r, hn.stable r, h r]
    cases hmc : m.chain
    cases hnc : n.chain
    rw [hmc, hnc] at hsame
    exact congrArg Chain.mk hsame

/-- If no two of the registrations share a rank, their order does not matter at all. -/
theorem chain_eq_of_perm (hne : m.registered.Pairwise fun j k => j.rank ≠ k.rank)
    (hp : n.registered.Perm m.registered) : m.chain = n.chain := by
  refine chain_eq_iff.mpr fun r => ?_
  have hn := m.isStableSort_chain.of_perm hne hp
  rw [← m.isStableSort_chain.stable r, hn.stable r]

/-- **Order matters within a rank only.**  Let two assemblies register the same classifiers of each
rank in the same order, however these are shared out between the layers and whatever comes between
them.  Then their chains are the same, and show the same names; and asked about any attempt, with
loggers of the same level, they come to the same verdict by the same calls, each classifier being
told the same, and record the same messages.  The chains are the same in no other case.  If no two
registrations share a rank, any order of them gives the same chain. -/
theorem order_within_ranks (m n : Assembly) :
    ((∀ r, m.registered.filter (·.rank = r) = n.registered.filter (·.rank = r)) →
      m.chain = n.chain ∧ m.chain.names = n.chain.names ∧ ∀ l a, m.run l a = n.run l a) ∧
    (m.chain = n.chain →
      ∀ r, m.registered.filter (·.rank = r) = n.registered.filter (·.rank = r)) ∧
    (m.registered.Pairwise (fun j k => j.rank ≠ k.rank) → n.registered.Perm m.registered →
      m.chain = n.chain ∧ m.chain.names = n.chain.names ∧ ∀ l a, m.run l a = n.run l a) := by
  have hshow : m.chain = n.chain →
      m.chain = n.chain ∧ m.chain.names = n.chain.names ∧ ∀ l a, m.run l a = n.run l a := by
    intro h
    refine ⟨h, congrArg Chain.names h, fun l a => ?_⟩
    rw [run_eq_judge, run_eq_judge, h]
  exact ⟨fun h => hshow (chain_eq_iff.mpr h), chain_eq_iff.mp,
    fun hne hp => hshow (chain_eq_of_perm hne hp)⟩

/-- Three classifiers, of which two share a rank: on one layer, and on two with the edits of the
upper layer first.  Without the one that shares a rank, the two others in either order. -/
theorem order_within_ranks_shared_out :
    let own : Classifier := { name := Bytes.utf8 "own", answer := fun _ v => some v }
    let add (layer : String) (k : Classifier) : Command := .edit layer (.add (some k))
    let one : Assembly := ⟨[add "a" .transient, add "a" .status, add "a" own], "a", none, "one"⟩
    let two : Assembly := ⟨[add "c" own, add "b" .status, add "b" .transient], "b", some "c", "two"⟩
    let high : Assembly := ⟨[add "a" .transient, add "a" .status], "a", none, "high"⟩
    let low : Assembly := ⟨[add "a" .status, add "b" .transient], "a", some "b", "low"⟩
    ((∀ r, one.registered.filter (·.rank = r) = two.registered.filter (·.rank = r)) ∧
      one.chain = two.chain ∧ ∀ l a, one.run l a = two.run l a) ∧
    (high.registered.Pairwise (fun j k => j.rank ≠ k.rank) ∧
      low.registered.Perm high.registered ∧ high.chain = low.chain) := by
  intro own add one two high low
  have hone : one.registered = [.transient, .status, own] := rfl
  have htwo : two.registered = [.status, .transient, own] := rfl
  have hsame : ∀ r, one.registered.filter (·.rank = r) = two.registered.filter (·.rank = r) := by
    intro r
    have hne : Classifier.transient.rank ≠ Classifier.status.rank := by decide
    rw [hone, htwo]
    by_cases hr : Classifier.transient.rank = r
    · have hs : Classifier.status.rank ≠ r := fun h => hne (hr.trans h.symm)
      simp [hr, hs]
    · simp [List.filter_cons, hr]
  have hne : high.registered.Pairwise fun j k => j.rank ≠ k.rank := by
    have hhigh : high.registered = [.transient, .status] := rfl
    rw [hhigh]
    decide
  have hp : low.registered.Perm high.registered := .swap _ _ _
  obtain ⟨hchain, -, hrun⟩ := (order_within_ranks one two).1 hsame
  exact ⟨⟨hsame, hchain, hrun⟩, hne, hp, ((order_within_ranks high low).2.2 hne hp).1⟩

end Assembly

end RetryVerdict.Workspace

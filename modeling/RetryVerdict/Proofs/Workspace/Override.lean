import RetryVerdict.Proofs.Walk.Append
import RetryVerdict.Proofs.Workspace.Assembly

/-!
# Workspace — an override behind its client

An override that replaces nothing, and of which nothing ranks below the client, is asked behind the
client (`Assembly.chain_eq_append`).  So the client is to it what one classifier would be that
always answers the client's own verdict.

`summed_up_by_verdict` says this, and what it is a case of: in front of any classifiers, a walk can
be replaced by its verdict.
-/

namespace RetryVerdict

namespace Workspace.Assembly

variable {m : Assembly} {upper : String}

/-- The layer of this name as the freeze finds it. -/
def layer (m : Assembly) (name : String) : Layer := (afterAll {} m.commands).layer name

/-- The base is frozen with no layer above it. -/
def alone (m : Assembly) : Assembly := { m with upper := none }

theorem chain_alone (m : Assembly) : m.alone.chain = ⟨(m.layer m.base).classifiers⟩ :=
  chain_assemble_alone _ _ _

theorem chain_of_upper (hm : m.upper = some upper) :
    m.chain = ⟨(m.layer m.base).stack (m.layer upper)⟩ := by
  rw [chain, workspace, hm]
  exact chain_assemble _ _ _ _

/-- A layer of a workspace is in ascending order. -/
theorem ascending_layer (m : Assembly) (name : String) :
    (m.layer name).classifiers.Pairwise fun j k => j.rank ≤ k.rank := by
  rw [layer, layer_afterAll]
  exact (Layer.reflects_afterAll _).sorted.ascending

/-- **Behind the client**: if it replaces nothing, and nothing in it ranks below the client, the
override is asked last. -/
theorem chain_eq_append (hm : m.upper = some upper) (hr : (m.layer upper).replaced = false)
    (hle : ∀ j ∈ (m.layer m.base).classifiers, ∀ k ∈ (m.layer upper).classifiers,
      j.rank ≤ k.rank) :
    m.chain = ⟨(m.layer m.base).classifiers ++ (m.layer upper).classifiers⟩ := by
  have hboth : ((m.layer m.base).classifiers ++ (m.layer upper).classifiers).Pairwise
      fun j k => j.rank ≤ k.rank :=
    List.pairwise_append.mpr ⟨m.ascending_layer m.base, m.ascending_layer upper, hle⟩
  rw [chain_of_upper hm, Layer.stack, if_neg (by simp [hr]),
    (Rank.isStableSort_sortBy _).unique ⟨hboth, .refl _, fun _ => rfl⟩]

end Workspace.Assembly

/-- **A walk is summed up by its verdict.**  Let `k` always answer the verdict on `xs`, whatever
that is.  Then the walks over `xs` and over `k`, with any `ys` behind them, come to the same verdict,
and ask `ys` the same, in the same order and with the same answers; nobody is asked behind a veto.
So a client, below an override that replaces nothing and in which nothing ranks below the client,
is summed up by its own verdict, with the override behind it. -/
theorem summed_up_by_verdict :
    (∀ (l : Level) (a : Attempt) (xs ys : List Classifier) (k : Classifier),
      k.AlwaysAnswers a (judge l xs a).verdict →
      (judge l (k :: ys) a).SumsUp (judge l xs a) xs.length (judge l (xs ++ ys) a)) ∧
    ∀ (m : Workspace.Assembly) (upper : String), m.upper = some upper →
      (m.layer upper).replaced = false →
      (∀ j ∈ (m.layer m.base).classifiers, ∀ k ∈ (m.layer upper).classifiers, j.rank ≤ k.rank) →
      ∀ (l : Level) (a : Attempt) (k : Classifier),
        k.AlwaysAnswers a (m.alone.run l a).verdict →
        (judge l (k :: (m.layer upper).classifiers) a).SumsUp (m.alone.run l a)
          (m.layer m.base).classifiers.length (m.run l a) := by
  refine ⟨fun l a xs ys k hk => sumsUp_append hk ys, ?_⟩
  intro m upper hm hr hle l a k hk
  rw [m.alone.run_eq_judge, m.chain_alone] at hk ⊢
  rw [m.run_eq_judge, Workspace.Assembly.chain_eq_append hm hr hle]
  exact sumsUp_append hk _

/-- A client of which only one classifier has an opinion, and an override that looks at the opinion
before it. -/
theorem summed_up_by_verdict_override :
    let stern : Classifier :=
      { name := Bytes.utf8 "stern",
        answer := fun _ v => if v = .ofCategory .server then some .forbid else none }
    let m : Workspace.Assembly :=
      ⟨[.standard "client", .edit "call" (.add (some stern))], "client", some "call", "chain"⟩
    let a : Attempt := .ofResponse { status := 503 }
    let k : Classifier :=
      { name := Bytes.utf8 "client", answer := fun _ _ => some (.ofCategory .server) }
    (m.upper = some "call" ∧ (m.layer "call").replaced = false ∧
      (∀ j ∈ (m.layer m.base).classifiers, ∀ k ∈ (m.layer "call").classifiers, j.rank ≤ k.rank) ∧
      k.AlwaysAnswers a (m.alone.run .info a).verdict) ∧
    (judge .info [k, stern] a).SumsUp (m.alone.run .info a) 4 (m.run .info a) ∧
    (m.run .info a).verdict = .forbid := by
  intro stern m a k
  have hr : (m.layer "call").replaced = false := rfl
  have hle : ∀ j ∈ (m.layer m.base).classifiers, ∀ k ∈ (m.layer "call").classifiers,
      j.rank ≤ k.rank := by decide
  have hown : (m.alone.run .info a).verdict = .ofCategory .server := by decide
  have hk : k.AlwaysAnswers a (m.alone.run .info a).verdict := fun _ => congrArg some hown.symm
  have hsum := summed_up_by_verdict.2 m "call" rfl hr hle .info a k hk
  exact ⟨⟨rfl, hr, hle, hk⟩, hsum, by decide⟩

end RetryVerdict

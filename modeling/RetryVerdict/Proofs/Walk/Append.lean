import RetryVerdict.Proofs.Walk.Law

/-!
# Walk — one list behind another

Of the classifiers that were asked before, those behind them see nothing but the verdict.

* `Walks.append`, `Walks.append_of_forbid`: a walk over `xs ++ ys` is a walk over `xs`, and unless
  that meets a veto, a walk over `ys` from its verdict on.
* `Walks.summary`: so `xs` can be replaced by one classifier that always answers the verdict on
  `xs`, in front of any `ys`.  `sumsUp_append` says this by the places of the calls.
-/

namespace RetryVerdict

/-- The classifier answers `v` about `a`, whatever it is told. -/
def Classifier.AlwaysAnswers (k : Classifier) (a : Attempt) (v : Verdict) : Prop :=
  ∀ w, k.answer a w = some v

/-- The run `s` sums up `r`: where `r` makes the calls of the run `own`, at its first `n` places, `s`
makes one call, and both go on in the same way. -/
structure Run.SumsUp (s own : Run) (n : Nat) (r : Run) : Prop where
  verdict_eq : s.verdict = r.verdict
  calls_before : r.calls.take n = own.calls
  calls_behind : r.calls.drop n = s.calls.drop 1
  /-- Nobody is asked behind a veto. -/
  none_behind_veto : own.verdict = .forbid → r.calls.drop n = []

namespace Walks

variable {a : Attempt} {u v w : Verdict} {xs ys : List Classifier} {cs ds : List Call}
  {k : Classifier}

/-! ### A walk in two parts -/

/-- A walk that does not end with a veto can go on. -/
theorem append (h : Walks a v xs cs w) (hw : w ≠ .forbid) (t : Walks a w ys ds u) :
    Walks a v (xs ++ ys) (cs ++ ds) u := by
  induction h with
  | done => exact t
  | abstain h _ ih => exact .abstain h (ih hw t)
  | opinion h _ ih => exact .opinion h (ih hw t)
  | veto => exact absurd rfl hw

/-- A veto ends the walk, whoever else is there. -/
theorem append_of_forbid (h : Walks a v xs cs w) (hv : v ≠ .forbid) (hw : w = .forbid) :
    Walks a v (xs ++ ys) cs .forbid := by
  induction h with
  | done => exact absurd hw hv
  | abstain h _ ih => exact .abstain h (ih hv hw)
  | opinion h _ ih => exact .opinion h (ih (by simp) hw)
  | veto h => exact .veto h

/-! ### One classifier for many -/

/-- A walk goes on from one who always answers the verdict `w` as it goes on from `w`. -/
theorem cons_of_alwaysAnswers (hk : k.AlwaysAnswers a w) (hw : w ≠ .forbid)
    (t : Walks a w ys ds u) : Walks a .undecided (k :: ys) (k.ask a .undecided :: ds) u := by
  have ho : (k.ask a .undecided).opinion? = opinionOf (some w) := congrArg opinionOf (hk .undecided)
  cases w with
  | undecided => exact .abstain ho t
  | retry r => exact .opinion ho t
  | forbid => exact absurd rfl hw

/-- **A walk over `xs` can be replaced by its verdict**, in front of any `ys`. -/
theorem summary (h : Walks a .undecided xs cs w) (hk : k.AlwaysAnswers a w)
    (ys : List Classifier) :
    ∃ ds u, Walks a .undecided (xs ++ ys) (cs ++ ds) u ∧
      Walks a .undecided (k :: ys) (k.ask a .undecided :: ds) u ∧ (w = .forbid → ds = []) := by
  by_cases hw : w = .forbid
  · subst hw
    have ho : (k.ask a .undecided).opinion? = some .forbid :=
      Call.opinion?_eq_forbid_iff.mpr (hk .undecided)
    refine ⟨[], .forbid, ?_, .veto ho, fun _ => rfl⟩
    rw [List.append_nil]
    exact h.append_of_forbid (by simp) rfl
  · have t := walk_walks .off a w ys
    exact ⟨_, _, h.append hw t, cons_of_alwaysAnswers hk hw t, fun e => absurd e hw⟩

/-- At most one call is made of each classifier. -/
theorem length_calls_le (h : Walks a v xs cs w) : cs.length ≤ xs.length := by
  have hle := h.asked_prefix.length_le
  rwa [List.length_map] at hle

/-- Without a veto, everyone is asked. -/
theorem length_calls_eq (h : Walks a v xs cs w) (hv : v ≠ .forbid) (hw : w ≠ .forbid) :
    cs.length = xs.length := by
  rw [← h.asked_eq fun c hc hf => hw ((h.forbid_iff hv).mpr ⟨c, hc, hf⟩), List.length_map]

/-- The calls about `xs` stand at the places of `xs`, whatever calls `ds` follow them. -/
theorem take_drop_calls (h : Walks a v xs cs w) (hv : v ≠ .forbid) (hds : w = .forbid → ds = []) :
    (cs ++ ds).take xs.length = cs ∧ (cs ++ ds).drop xs.length = ds := by
  by_cases hw : w = .forbid
  · have hle := h.length_calls_le
    rw [hds hw, List.append_nil]
    exact ⟨List.take_of_length_le hle, List.drop_of_length_le hle⟩
  · rw [← h.length_calls_eq hv hw]
    exact ⟨List.take_left, List.drop_left⟩

end Walks

/-! ### Walks from the start -/

/-- **A walk is summed up by its verdict**: the walk over `xs ++ ys` goes on from `xs` as the walk
over `k :: ys` goes on from one who answers the verdict on `xs`. -/
theorem sumsUp_append {l : Level} {a : Attempt} {xs : List Classifier} {k : Classifier}
    (hk : k.AlwaysAnswers a (judge l xs a).verdict) (ys : List Classifier) :
    (judge l (k :: ys) a).SumsUp (judge l xs a) xs.length (judge l (xs ++ ys) a) := by
  have hxs : Walks a .undecided xs (judge l xs a).calls (judge l xs a).verdict :=
    walk_walks l a .undecided xs
  obtain ⟨ds, u, hboth, hone, hforbid⟩ := hxs.summary hk ys
  obtain ⟨hcalls, hverdict⟩ := hboth.walk_eq l
  obtain ⟨hcalls', hverdict'⟩ := hone.walk_eq l
  obtain ⟨htake, hrest⟩ := hxs.take_drop_calls (by simp) hforbid
  have hdrop : (judge l (xs ++ ys) a).calls.drop xs.length = ds := by
    rw [judge, hcalls, hrest]
  exact
    { verdict_eq := hverdict'.trans hverdict.symm
      calls_before := by rw [judge, hcalls, htake]
      calls_behind := by rw [hdrop, judge, hcalls', List.drop_one, List.tail_cons]
      none_behind_veto := fun hf => hdrop.trans (hforbid hf) }

end RetryVerdict

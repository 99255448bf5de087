import RetryVerdict.Chain
import Mathlib.Data.List.Basic

/-!
# Walk — what a walk asks, and what comes of it

`Walks a v ks cs w` says that asking `ks` about the attempt `a`, from the verdict `v` on, makes the
calls `cs` and ends with the verdict `w`.  It leaves out what is recorded, so it is the same at
every level of the logger (`walk_walks`, `Walks.walk_eq`).

* `walk_cons_of_abstained`, `walk_cons_of_retry` and `walk_cons_of_veto` say all that one question
  can lead to.
* `Walks.asked_prefix`, `Walks.asked_eq`: a prefix of the classifiers is asked, and all of them
  unless one vetoes.
* `Walks.verdict_eq`: the walk ends with the last opinion.
* `Walks.resume`: from each of its calls on, a walk is the walk that starts there, from the last
  opinion so far (`lastOpinion`).  So each classifier is told that opinion (`Walks.preceding_eq`),
  and a veto is the last answer and the only veto (`Walks.veto_last`).

`judge_lawful` collects what this comes to for a walk from the start.
-/

namespace RetryVerdict

/-! ### Opinions -/

/-- An opinion is an answer, and not the answer `undecided`. -/
theorem opinionOf_eq_some_iff {o : Option Verdict} {v : Verdict} :
    opinionOf o = some v ↔ o = some v ∧ v ≠ .undecided := by
  rcases o with - | - | r | - <;> simp [opinionOf] <;> rintro rfl <;> simp

theorem opinionOf_eq_none_iff {o : Option Verdict} :
    opinionOf o = none ↔ o = none ∨ o = some .undecided := by
  rcases o with - | - | r | - <;> simp [opinionOf]

namespace Call

theorem opinion?_eq_forbid_iff {c : Call} :
    c.opinion? = some .forbid ↔ c.answer = some .forbid := by
  simp [opinion?, opinionOf_eq_some_iff]

end Call

/-- The last opinion among the answers to these calls, or `v` if all abstained. -/
def lastOpinion (v : Verdict) (cs : List Call) : Verdict :=
  (cs.filterMap Call.opinion?).getLast?.getD v

theorem lastOpinion_cons (v : Verdict) (c : Call) (cs : List Call) :
    lastOpinion v (c :: cs) = lastOpinion (c.opinion?.getD v) cs := by
  cases h : c.opinion? with
  | none => simp [lastOpinion, h]
  | some w => simp [lastOpinion, h, List.getLast?_cons]

/-- Either all abstained, or the last opinion is that of one of the calls. -/
theorem lastOpinion_cases (v : Verdict) (cs : List Call) :
    (∀ c ∈ cs, c.opinion? = none) ∧ lastOpinion v cs = v ∨
      ∃ c ∈ cs, c.opinion? = some (lastOpinion v cs) := by
  cases h : (cs.filterMap Call.opinion?).getLast? with
  | none =>
      rw [List.getLast?_eq_none_iff, List.filterMap_eq_nil_iff] at h
      exact .inl ⟨h, by rw [lastOpinion, List.filterMap_eq_nil_iff.mpr h]; rfl⟩
  | some w =>
      obtain ⟨c, hc, hw⟩ := List.mem_filterMap.mp (List.mem_of_getLast? h)
      exact .inr ⟨c, hc, by rw [lastOpinion, h, hw]; rfl⟩

/-- An opinion is never `undecided`, so the last one is `undecided` only if there is none. -/
theorem lastOpinion_eq_undecided_iff {cs : List Call} :
    lastOpinion .undecided cs = .undecided ↔ ∀ c ∈ cs, c.opinion? = none := by
  rcases lastOpinion_cases .undecided cs with ⟨hnone, e⟩ | ⟨c, hc, ho⟩
  · exact ⟨fun _ => hnone, fun _ => e⟩
  · refine ⟨fun e => absurd e (opinionOf_eq_some_iff.mp ho).2, fun hnone => ?_⟩
    rw [hnone c hc] at ho
    cases ho

/-! ### One question -/

/-- A classifier abstains, asks for a retry, or vetoes. -/
theorem Call.opinion?_cases (c : Call) :
    c.opinion? = none ∨ (∃ r, c.opinion? = some (.retry r)) ∨ c.opinion? = some .forbid := by
  cases h : c.opinion? with
  | none => exact .inl rfl
  | some w =>
      cases w with
      | undecided => exact absurd rfl (opinionOf_eq_some_iff.mp h).2
      | retry r => exact .inr (.inl ⟨r, rfl⟩)
      | forbid => exact .inr (.inr rfl)

section Question

variable {l : Level} {a : Attempt} {v : Verdict} {k : Classifier}

theorem walk_cons_of_abstained (ks : List Classifier) (h : (k.ask a v).opinion? = none) :
    walk l a v (k :: ks) = (walk l a v ks).preceded (k.ask a v) := by
  simp only [walk, h]

theorem walk_cons_of_retry {r : Reason} (ks : List Classifier)
    (h : (k.ask a v).opinion? = some (.retry r)) :
    walk l a v (k :: ks)
      = (walk l a (.retry r) ks).preceded (k.ask a v)
          (l.record .trace ((k.ask a v).overrideText (.retry r))) := by
  simp only [walk, h]

/-- After a veto nobody is asked. -/
theorem walk_cons_of_veto (ks : List Classifier) (h : (k.ask a v).opinion? = some .forbid) :
    walk l a v (k :: ks)
      = { verdict := .forbid, calls := [k.ask a v],
          log := l.record .trace ((k.ask a v).overrideText .forbid)
            ++ l.record .debug (k.ask a v).vetoText } := by
  simp only [walk, h]

end Question

/-! ### Walks as a relation -/

/-- Asking `ks` from the verdict `v` on makes the calls `cs` and ends with the verdict `w`. -/
inductive Walks (a : Attempt) : Verdict → List Classifier → List Call → Verdict → Prop where
  | done (v : Verdict) : Walks a v [] [] v
  | abstain {v w : Verdict} {k : Classifier} {ks : List Classifier} {cs : List Call}
      (h : (k.ask a v).opinion? = none) (t : Walks a v ks cs w) :
      Walks a v (k :: ks) (k.ask a v :: cs) w
  | opinion {v w : Verdict} {r : Reason} {k : Classifier} {ks : List Classifier} {cs : List Call}
      (h : (k.ask a v).opinion? = some (.retry r)) (t : Walks a (.retry r) ks cs w) :
      Walks a v (k :: ks) (k.ask a v :: cs) w
  | veto {v : Verdict} {k : Classifier} {ks : List Classifier}
      (h : (k.ask a v).opinion? = some .forbid) : Walks a v (k :: ks) [k.ask a v] .forbid

/-- **Every walk is one**, whatever is recorded of it. -/
theorem walk_walks (l : Level) (a : Attempt) (v : Verdict) (ks : List Classifier) :
    Walks a v ks (walk l a v ks).calls (walk l a v ks).verdict := by
  induction ks generalizing v with
  | nil => exact .done v
  | cons k ks ih =>
      rcases (k.ask a v).opinion?_cases with h | ⟨r, h⟩ | h
      · rw [walk_cons_of_abstained ks h]
        exact .abstain h (ih v)
      · rw [walk_cons_of_retry ks h]
        exact .opinion h (ih (.retry r))
      · rw [walk_cons_of_veto ks h]
        exact .veto h

namespace Walks

variable {a : Attempt} {v w : Verdict} {ks : List Classifier} {cs pre post : List Call} {c : Call}

/-- Classifiers are asked in order, each once, from the first one on. -/
theorem asked_prefix (h : Walks a v ks cs w) : cs.map (·.classifier) <+: ks := by
  induction h with
  | done => exact List.prefix_rfl
  | abstain _ _ ih | opinion _ _ ih => exact List.cons_prefix_cons.mpr ⟨rfl, ih⟩
  | veto => exact List.cons_prefix_cons.mpr ⟨rfl, List.nil_prefix⟩

/-- Without a veto all are asked. -/
theorem asked_eq (h : Walks a v ks cs w) (hc : ∀ c ∈ cs, c.answer ≠ some .forbid) :
    cs.map (·.classifier) = ks := by
  induction h with
  | done => rfl
  | abstain _ _ ih | opinion _ _ ih =>
      rw [List.map_cons, ih fun c hc' => hc c (List.mem_cons_of_mem _ hc')]
      rfl
  | veto h => exact absurd (Call.opinion?_eq_forbid_iff.mp h) (hc _ List.mem_cons_self)

/-- A walk ends with the last opinion. -/
theorem verdict_eq (h : Walks a v ks cs w) : w = lastOpinion v cs := by
  induction h with
  | done => rfl
  | abstain h _ ih | opinion h _ ih => rw [lastOpinion_cons, h, ih]; rfl
  | veto h => rw [lastOpinion_cons, h]; rfl

/-- A walk that did not start from a veto ends with one only if it meets one. -/
theorem forbid_iff (h : Walks a v ks cs w) (hv : v ≠ .forbid) :
    w = .forbid ↔ ∃ c ∈ cs, c.answer = some .forbid := by
  induction h with
  | done => simpa using hv
  | abstain h _ ih =>
      rw [ih hv, List.exists_mem_cons_iff, ← Call.opinion?_eq_forbid_iff, h]
      simp
  | opinion h _ ih =>
      rw [ih (by simp), List.exists_mem_cons_iff, ← Call.opinion?_eq_forbid_iff, h]
      simp
  | veto h => simpa using Call.opinion?_eq_forbid_iff.mp h

/-- **A walk is determined** by where it starts, whatever is recorded of it. -/
theorem walk_eq (h : Walks a v ks cs w) (l : Level) :
    (walk l a v ks).calls = cs ∧ (walk l a v ks).verdict = w := by
  induction h with
  | done => exact ⟨rfl, rfl⟩
  | abstain h _ ih =>
      rw [walk_cons_of_abstained _ h]
      exact ⟨congrArg _ ih.1, ih.2⟩
  | opinion h _ ih =>
      rw [walk_cons_of_retry _ h]
      exact ⟨congrArg _ ih.1, ih.2⟩
  | veto h =>
      rw [walk_cons_of_veto _ h]
      exact ⟨rfl, rfl⟩

/-! ### A walk from one of its calls on -/

/-- **A walk can be resumed at each of its calls**, from the last opinion before it.  Nobody asked
before that call vetoed. -/
theorem resume (h : Walks a v ks (pre ++ c :: post) w) :
    (∃ ls, Walks a (lastOpinion v pre) ls (c :: post) w) ∧ ∀ d ∈ pre, d.answer ≠ some .forbid := by
  -- along `pre`, since the calls of the walk are what is cut in two
  induction pre generalizing v ks with
  | nil => exact ⟨⟨ks, h⟩, by simp⟩
  | cons d pre ih =>
      rw [List.cons_append] at h
      generalize hrest : pre ++ c :: post = rest at h
      cases h with
      | abstain hd t | opinion hd t =>
          subst hrest
          obtain ⟨hls, hpre⟩ := ih t
          rw [lastOpinion_cons, hd]
          refine ⟨hls, List.forall_mem_cons.mpr ⟨fun hf => ?_, hpre⟩⟩
          rw [Call.opinion?_eq_forbid_iff.mpr hf] at hd
          cases hd
      | veto => simp at hrest

/-- The first call puts the question to its classifier with the verdict of the start. -/
theorem head_eq (h : Walks a v ks (c :: cs) w) : c = c.classifier.ask a v := by
  cases h <;> rfl

/-- A veto ends the walk. -/
theorem eq_nil_of_veto (h : Walks a v ks (c :: cs) w) (hc : c.answer = some .forbid) :
    cs = [] := by
  have ho := Call.opinion?_eq_forbid_iff.mpr hc
  cases h with
  | abstain h _ | opinion h _ => rw [h] at ho; cases ho
  | veto => rfl

/-- Each classifier is told the last opinion before it. -/
theorem preceding_eq (h : Walks a v ks (pre ++ c :: post) w) :
    c.preceding = lastOpinion v pre := by
  obtain ⟨⟨ls, hc⟩, -⟩ := h.resume
  rw [hc.head_eq]
  rfl

/-- A call records what its classifier answers to what it is told. -/
theorem answer_eq (h : Walks a v ks cs w) (hc : c ∈ cs) :
    c.answer = c.classifier.answer a c.preceding := by
  obtain ⟨pre, post, rfl⟩ := List.append_of_mem hc
  obtain ⟨⟨ls, hc⟩, -⟩ := h.resume
  rw [hc.head_eq]
  rfl

/-- Nobody is asked after a veto, and nobody vetoed before. -/
theorem veto_last (h : Walks a v ks (pre ++ c :: post) w) (hc : c.answer = some .forbid) :
    post = [] ∧ ∀ d ∈ pre, d.answer ≠ some .forbid := by
  obtain ⟨⟨ls, h'⟩, hpre⟩ := h.resume
  exact ⟨h'.eq_nil_of_veto hc, hpre⟩

/-- What a classifier is told is no veto, unless the walk started from one. -/
theorem preceding_ne_forbid (h : Walks a v ks (pre ++ c :: post) w) (hv : v ≠ .forbid) :
    c.preceding ≠ .forbid := by
  rw [h.preceding_eq]
  rcases lastOpinion_cases v pre with ⟨-, e⟩ | ⟨d, hd, ho⟩
  · rw [e]
    exact hv
  · intro hf
    rw [hf, Call.opinion?_eq_forbid_iff] at ho
    exact h.resume.2 d hd ho

end Walks

/-! ### A walk from the start -/

/-- What asking `ks` about `a` comes to. -/
structure LawfulRun (a : Attempt) (ks : List Classifier) (r : Run) : Prop where
  /-- A prefix of the classifiers is asked, each once and in order. -/
  asked_prefix : r.calls.map (·.classifier) <+: ks
  /-- A call records what its classifier answers to what it is told. -/
  answered : ∀ c ∈ r.calls, c.answer = c.classifier.answer a c.preceding
  /-- The run ends with a veto if a classifier vetoes. -/
  forbid_iff : r.verdict = .forbid ↔ ∃ c ∈ r.calls, c.answer = some .forbid
  /-- Who vetoes is the last one asked, and the only one to veto. -/
  veto_last : ∀ pre c post, r.calls = pre ++ c :: post → c.answer = some .forbid →
    post = [] ∧ ∀ d ∈ pre, d.answer ≠ some .forbid
  /-- Without a veto all are asked. -/
  asked_all : (∀ c ∈ r.calls, c.answer ≠ some .forbid) → r.calls.map (·.classifier) = ks
  /-- Without a veto the last opinion stands. -/
  verdict_eq : (∀ c ∈ r.calls, c.answer ≠ some .forbid) →
    r.verdict = lastOpinion .undecided r.calls
  /-- Nothing is decided if all abstain, in either way. -/
  undecided_iff : r.verdict = .undecided ↔
    ∀ c ∈ r.calls, c.answer = none ∨ c.answer = some .undecided
  /-- Each classifier is told the last opinion before it. -/
  preceding_eq : ∀ pre c post, r.calls = pre ++ c :: post →
    c.preceding = lastOpinion .undecided pre
  /-- Nobody is told of a veto. -/
  preceding_ne_forbid : ∀ c ∈ r.calls, c.preceding ≠ .forbid
  /-- From the first opinion on everybody is told of a retry. -/
  preceding_retry : ∀ pre c post, r.calls = pre ++ c :: post →
    (∃ d ∈ pre, ∃ v, d.answer = some v ∧ v ≠ .undecided) → ∃ x, c.preceding = .retry x

theorem Walks.lawful {a : Attempt} {ks : List Classifier} {r : Run}
    (h : Walks a .undecided ks r.calls r.verdict) : LawfulRun a ks r where
  asked_prefix := h.asked_prefix
  answered _ hc := h.answer_eq hc
  forbid_iff := h.forbid_iff (by simp)
  veto_last _ _ _ e := (e ▸ h).veto_last
  asked_all := h.asked_eq
  verdict_eq _ := h.verdict_eq
  undecided_iff := by
    simp only [h.verdict_eq, lastOpinion_eq_undecided_iff, Call.opinion?, opinionOf_eq_none_iff]
  preceding_eq _ _ _ e := (e ▸ h).preceding_eq
  preceding_ne_forbid c hc := by
    obtain ⟨pre, post, e⟩ := List.append_of_mem hc
    exact (e ▸ h).preceding_ne_forbid (by simp)
  preceding_retry pre c post e := by
    rintro ⟨d, hd, v, hv, hne⟩
    have hd' : d.opinion? = some v := opinionOf_eq_some_iff.mpr ⟨hv, hne⟩
    rw [e] at h
    cases hc : c.preceding with
    | retry x => exact ⟨x, rfl⟩
    | forbid => exact absurd hc (h.preceding_ne_forbid (by simp))
    | undecided =>
        -- then all of `pre` abstained, and `d` did not
        have hp := h.preceding_eq
        rw [hc, eq_comm, lastOpinion_eq_undecided_iff] at hp
        rw [hp d hd] at hd'
        cases hd'

/-- **The law of the walk**: for classifiers in any order, whatever their answers depend on, and
at every level of the logger. -/
theorem judge_lawful (l : Level) (ks : List Classifier) (a : Attempt) :
    LawfulRun a ks (judge l ks a) ∧ LawfulRun a ks ((Chain.mk ks).judge l a) :=
  ⟨(walk_walks l a .undecided ks).lawful, (walk_walks l a .undecided ks).lawful⟩

end RetryVerdict

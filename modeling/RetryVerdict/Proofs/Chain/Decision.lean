import RetryVerdict.Proofs.Layer.Stack
import RetryVerdict.Proofs.Walk.Law

/-!
# Chain — what a configuration decides

A classifier is *steady* about an attempt if its answer does not depend on the verdict before it.
What a chain of steady classifiers decides can be read off the registrations, without sorting and
without walking: a veto forbids the retry, wherever it stands; otherwise the opinion of the highest
rank prevails, and among those of that rank the latest (`Prevails`, `Decides`).

* `Prevails.unique`, `exists_prevails`: at most one classifier prevails, and if the last opinion in
  the stable sort of a list is `v`, one of that opinion does.
* `Decides.unique`, `decides_append_self_iff`: a list decides one thing, and so does the list that
  is doubled, since who prevails in it is the same.
* `LawfulRun.forbid_iff_of_steady`, `LawfulRun.undecided_iff_of_steady`,
  `LawfulRun.verdict_prevails`: what a walk of steady classifiers ends with, said of the list.
* `LawfulRun.decides`: so a walk over the stable sort of a list decides as the list does.
-/

namespace RetryVerdict

open Layer (Edit effective)
open Rank (IsStableSort)

/-! ### Deciding without a walk -/

namespace Classifier

/-- The answer about `a` does not depend on the verdict before. -/
def Steady (k : Classifier) (a : Attempt) : Prop := ∀ v w, k.answer a v = k.answer a w

/-- The opinion about `a`, asked first. -/
def opinion? (k : Classifier) (a : Attempt) : Option Verdict := opinionOf (k.answer a .undecided)

end Classifier

/-- `k` has an opinion about `a`; among `ks` no opinion before it ranks higher, and all opinions
behind it rank lower. -/
def Prevails (a : Attempt) (ks : List Classifier) (k : Classifier) : Prop :=
  ∃ xs ys, ks = xs ++ k :: ys ∧ k.opinion? a ≠ none ∧
    (∀ x ∈ xs, x.opinion? a ≠ none → x.rank ≤ k.rank) ∧
    ∀ y ∈ ys, y.opinion? a ≠ none → y.rank < k.rank

/-- `v` is what the registrations `ks` decide about `a`. -/
structure Decides (a : Attempt) (ks : List Classifier) (v : Verdict) : Prop where
  /-- A veto of any rank forbids. -/
  forbid_iff : v = .forbid ↔ ∃ k ∈ ks, k.answer a .undecided = some .forbid
  /-- Without a veto, if there is an opinion, there is one that prevails. -/
  prevails : (∀ k ∈ ks, k.answer a .undecided ≠ some .forbid) →
    (∃ k ∈ ks, k.opinion? a ≠ none) →
    ∃ k, Prevails a ks k ∧ (∀ k', Prevails a ks k' → k' = k) ∧ k.answer a .undecided = some v
  /-- Nothing is decided if all abstain, in either way. -/
  undecided_iff : v = .undecided ↔
    ∀ k ∈ ks, k.answer a .undecided = none ∨ k.answer a .undecided = some .undecided

/-! ### The opinion that prevails -/

section Prevailing

variable {a : Attempt} {ks ls : List Classifier} {k k' : Classifier} {v : Verdict}

/-- Nobody prevails from behind one who prevails. -/
theorem Prevails.eq_of_append {xs ys zs ws : List Classifier} (e : k :: ys = zs ++ k' :: ws)
    (hy : ∀ y ∈ ys, y.opinion? a ≠ none → y.rank < k.rank) (hk : k.opinion? a ≠ none)
    (hk' : k'.opinion? a ≠ none)
    (hx : ∀ x ∈ xs ++ zs, x.opinion? a ≠ none → x.rank ≤ k'.rank) : k' = k := by
  cases zs with
  | nil => exact (List.cons.inj e).1.symm
  | cons z zs =>
      obtain ⟨rfl, rfl⟩ := List.cons.inj e
      have hlt : k'.rank < k.rank := hy k' (by simp) hk'
      exact absurd (hx k (by simp) hk) hlt.not_ge

/-- **At most one classifier prevails.** -/
theorem Prevails.unique (h : Prevails a ks k) (h' : Prevails a ks k') : k' = k := by
  obtain ⟨xs, ys, rfl, hk, hx, hy⟩ := h
  obtain ⟨xs', ys', e, hk', hx', hy'⟩ := h'
  rcases List.append_eq_append_iff.mp e with ⟨zs, rfl, e'⟩ | ⟨zs, rfl, e'⟩
  · exact Prevails.eq_of_append e' hy hk hk' hx'
  · exact (Prevails.eq_of_append e' hy' hk' hk hx).symm

/-- The last opinion in the stable sort of a list prevails in the list. -/
theorem exists_prevails (h : IsStableSort Classifier.rank ks ls)
    (hv : (ls.filterMap (·.opinion? a)).getLast? = some v) :
    ∃ k, Prevails a ks k ∧ k.opinion? a = some v := by
  obtain ⟨vs, e⟩ := List.getLast?_eq_some_iff.mp hv
  obtain ⟨s, u, rfl, -, hu⟩ := List.filterMap_eq_append_iff.mp e
  obtain ⟨s', k, t, rfl, hs', hk, ht⟩ := List.filterMap_eq_cons_iff.mp hu
  have ht' : t.filter (fun x => (x.opinion? a).isSome) = [] :=
    List.filter_eq_nil_iff.mpr fun x hx => by simp [List.filterMap_eq_nil_iff.mp ht x hx]
  -- leave out who has no opinion, so that `k` stands last
  have hlast := h.filter fun x => (x.opinion? a).isSome
  rw [← List.append_assoc, List.filter_append, List.filter_cons_of_pos (by simp [hk]), ht']
    at hlast
  obtain ⟨p, q, e', hp, hq⟩ := hlast.exists_split
  obtain ⟨p₁, u', rfl, rfl, hu'⟩ := List.filter_eq_append_iff.mp e'
  obtain ⟨p₂, q', rfl, hp₂, -, rfl⟩ := List.filter_eq_cons_iff.mp hu'
  refine ⟨k, ⟨p₁ ++ p₂, q', by simp, by simp [hk], fun x hx ho => ?_, fun y hy ho => ?_⟩, hk⟩
  · have ho' : (x.opinion? a).isSome = true := Option.isSome_iff_ne_none.mpr ho
    rcases List.mem_append.mp hx with hx | hx
    · exact hp x (List.mem_filter.mpr ⟨hx, ho'⟩)
    · exact absurd ho' (hp₂ x hx)
  · exact hq y (List.mem_filter.mpr ⟨hy, Option.isSome_iff_ne_none.mpr ho⟩)

end Prevailing

/-! ### One decision, and a list that is doubled -/

section Doubling

variable {a : Attempt} {ks : List Classifier} {k : Classifier} {v w : Verdict}

/-- **A list decides one thing.** -/
theorem Decides.unique (h : Decides a ks v) (h' : Decides a ks w) : v = w := by
  by_cases hforbid : ∃ k ∈ ks, k.answer a .undecided = some .forbid
  · rw [h.forbid_iff.mpr hforbid, h'.forbid_iff.mpr hforbid]
  by_cases hopinion : ∃ k ∈ ks, k.opinion? a ≠ none
  · have hno : ∀ k ∈ ks, k.answer a .undecided ≠ some .forbid := fun k hk hf => hforbid ⟨k, hk, hf⟩
    obtain ⟨k, -, honly, hv⟩ := h.prevails hno hopinion
    obtain ⟨k', hk', -, hw⟩ := h'.prevails hno hopinion
    rw [honly k' hk', hv] at hw
    exact Option.some.inj hw
  · have hnone : ∀ k ∈ ks, k.answer a .undecided = none ∨ k.answer a .undecided = some .undecided :=
      fun k hk => opinionOf_eq_none_iff.mp (by_contra fun ho => hopinion ⟨k, hk, ho⟩)
    rw [h.undecided_iff.mpr hnone, h'.undecided_iff.mpr hnone]

/-- Who prevails in a list prevails in the second half of the list doubled, and nobody else does. -/
theorem prevails_append_self_iff : Prevails a (ks ++ ks) k ↔ Prevails a ks k := by
  constructor
  · rintro ⟨xs, ys, e, hk, hx, hy⟩
    rcases List.append_eq_append_iff.mp e with ⟨zs, rfl, e'⟩ | ⟨zs, rfl, e'⟩
    · exact ⟨zs, ys, e', hk, fun x hxz => hx x (List.mem_append_right _ hxz), hy⟩
    · cases zs with
      | nil => exact ⟨[], ys, by simpa using e'.symm, hk, by simp, hy⟩
      | cons z zs =>
          -- then `k` stands in the first half, and once more behind itself
          obtain ⟨rfl, rfl⟩ := List.cons.inj e'
          exact absurd (hy k (by simp) hk) (lt_irrefl _)
  · rintro ⟨xs, ys, rfl, hk, hx, hy⟩
    refine ⟨xs ++ k :: ys ++ xs, ys, by simp, hk, fun x hm ho => ?_, hy⟩
    simp only [List.mem_append, List.mem_cons] at hm
    rcases hm with (hm | rfl | hm) | hm
    · exact hx x hm ho
    · exact le_rfl
    · exact (hy x hm ho).le
    · exact hx x hm ho

/-- **A list that is doubled decides what the list decides.** -/
theorem decides_append_self_iff : Decides a (ks ++ ks) v ↔ Decides a ks v := by
  have hmem : ∀ {k}, k ∈ ks ++ ks ↔ k ∈ ks := by simp
  constructor
  · rintro ⟨hforbid, hprevails, hundecided⟩
    simp only [hmem, prevails_append_self_iff] at hforbid hprevails hundecided
    exact ⟨hforbid, hprevails, hundecided⟩
  · rintro ⟨hforbid, hprevails, hundecided⟩
    constructor
    · simpa only [hmem] using hforbid
    · simpa only [hmem, prevails_append_self_iff] using hprevails
    · simpa only [hmem] using hundecided

end Doubling

/-! ### Walks of steady classifiers -/

section Walks

variable {a : Attempt} {ks ls : List Classifier} {r : Run}

/-- A steady classifier answers in a walk as it would if asked first. -/
theorem LawfulRun.answer_eq (h : LawfulRun a ls r) (hs : ∀ k ∈ ls, k.Steady a) {c : Call}
    (hc : c ∈ r.calls) : c.classifier ∈ ls ∧ c.answer = c.classifier.answer a .undecided := by
  have hm : c.classifier ∈ ls := h.asked_prefix.subset (List.mem_map_of_mem hc)
  exact ⟨hm, (h.answered c hc).trans (hs _ hm _ _)⟩

/-- A walk that does not end with a veto has asked everybody. -/
theorem LawfulRun.map_classifier (h : LawfulRun a ls r) (hf : r.verdict ≠ .forbid) :
    r.calls.map (·.classifier) = ls :=
  h.asked_all fun c hc hc' => hf (h.forbid_iff.mpr ⟨c, hc, hc'⟩)

theorem LawfulRun.exists_call (h : LawfulRun a ls r) (hf : r.verdict ≠ .forbid) {k : Classifier}
    (hk : k ∈ ls) : ∃ c ∈ r.calls, c.classifier = k := by
  rw [← h.map_classifier hf] at hk
  exact List.mem_map.mp hk

/-- What such a walk ends with can be read off the list. -/
theorem LawfulRun.verdict_of_steady (h : LawfulRun a ls r) (hs : ∀ k ∈ ls, k.Steady a)
    (hf : r.verdict ≠ .forbid) :
    r.verdict = (ls.filterMap (·.opinion? a)).getLast?.getD .undecided := by
  have hopinions : ls.filterMap (·.opinion? a) = r.calls.filterMap Call.opinion? := by
    conv_lhs => rw [← h.map_classifier hf, List.filterMap_map]
    refine List.filterMap_congr fun c hc => ?_
    rw [Function.comp, Classifier.opinion?, ← (h.answer_eq hs hc).2, Call.opinion?]
  rw [hopinions]
  exact h.verdict_eq fun c hc hc' => hf (h.forbid_iff.mpr ⟨c, hc, hc'⟩)

/-- A walk of steady classifiers ends with a veto if one of them vetoes, asked or not. -/
theorem LawfulRun.forbid_iff_of_steady (h : LawfulRun a ls r) (hs : ∀ k ∈ ls, k.Steady a) :
    r.verdict = .forbid ↔ ∃ k ∈ ls, k.answer a .undecided = some .forbid := by
  constructor
  · intro hf
    obtain ⟨c, hc, hcf⟩ := h.forbid_iff.mp hf
    obtain ⟨hm, ha⟩ := h.answer_eq hs hc
    exact ⟨c.classifier, hm, ha.symm.trans hcf⟩
  · rintro ⟨k, hk, hkf⟩
    by_contra hf
    obtain ⟨c, hc, rfl⟩ := h.exists_call hf hk
    exact hf (h.forbid_iff.mpr ⟨c, hc, (h.answer_eq hs hc).2.trans hkf⟩)

theorem LawfulRun.undecided_iff_of_steady (h : LawfulRun a ls r) (hs : ∀ k ∈ ls, k.Steady a) :
    r.verdict = .undecided ↔
      ∀ k ∈ ls, k.answer a .undecided = none ∨ k.answer a .undecided = some .undecided := by
  constructor
  · intro hu k hk
    have hf : r.verdict ≠ .forbid := by
      rw [hu]
      simp
    obtain ⟨c, hc, rfl⟩ := h.exists_call hf hk
    rw [← (h.answer_eq hs hc).2]
    exact h.undecided_iff.mp hu c hc
  · intro hnone
    refine h.undecided_iff.mpr fun c hc => ?_
    obtain ⟨hm, ha⟩ := h.answer_eq hs hc
    rw [ha]
    exact hnone _ hm

/-- A walk over the stable sort of a list ends with the opinion that prevails in the list. -/
theorem LawfulRun.verdict_prevails (h : LawfulRun a ls r)
    (hsort : IsStableSort Classifier.rank ks ls) (hs : ∀ k ∈ ls, k.Steady a)
    (hf : r.verdict ≠ .forbid) (hsome : ∃ k ∈ ls, k.opinion? a ≠ none) :
    ∃ k, Prevails a ks k ∧ k.answer a .undecided = some r.verdict := by
  -- all are asked, so the last opinion of the sorted list stands
  have hv := h.verdict_of_steady hs hf
  cases hlast : (ls.filterMap (·.opinion? a)).getLast? with
  | none =>
      obtain ⟨k, hk, hko⟩ := hsome
      rw [List.getLast?_eq_none_iff, List.filterMap_eq_nil_iff] at hlast
      exact absurd (hlast k hk) hko
  | some w =>
      rw [hlast, Option.getD_some] at hv
      obtain ⟨k, hk, hko⟩ := exists_prevails hsort hlast
      exact ⟨k, hk, hv ▸ (opinionOf_eq_some_iff.mp hko).1⟩

/-- **A walk over the stable sort of a list decides as the list does.** -/
theorem LawfulRun.decides (h : LawfulRun a ls r) (hsort : IsStableSort Classifier.rank ks ls)
    (hs : ∀ k ∈ ks, k.Steady a) : Decides a ks r.verdict := by
  have hmem : ∀ {k}, k ∈ ls ↔ k ∈ ks := hsort.perm.mem_iff
  have hs' : ∀ k ∈ ls, k.Steady a := fun k hk => hs k (hmem.mp hk)
  have hforbid := h.forbid_iff_of_steady hs'
  have hundecided := h.undecided_iff_of_steady hs'
  simp only [hmem] at hforbid hundecided
  refine ⟨hforbid, fun hno hsome => ?_, hundecided⟩
  have hf : r.verdict ≠ .forbid := fun hf => by
    obtain ⟨k, hk, hkf⟩ := hforbid.mp hf
    exact hno k hk hkf
  obtain ⟨k, hk, hkv⟩ := h.verdict_prevails hsort hs' hf (by simpa only [hmem] using hsome)
  exact ⟨k, hk, fun k' hk' => hk.unique hk', hkv⟩

end Walks

end RetryVerdict

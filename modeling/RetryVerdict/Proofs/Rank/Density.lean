import RetryVerdict.Proofs.Rank.Dyadic

/-!
# Rank — room between ranks

What is made from a rank stays in its place: a rank that is not made from `p` is on the same side of
`p` and of all that is made from `p` (`compare_follow`).  So of two ranks, one step up from the lower
or one step down from the higher leads to a rank between them (`after_lt_or_lt_before`), and
`between` picks one that does.

`fillGap i` puts a rank into the gap behind place `i` of an ascending list.  What it leaves ascends
again and has one gap more, so gaps can be filled without end (`isChain_fillGaps`,
`length_fillGaps`).

`nested_and_dense` collects this.
-/

namespace RetryVerdict.Rank

variable {p q : Rank}

/-! ### Ranks that are not made from one another -/

/-- A list of steps that does not begin with `s` differs from `s` before `s` ends. -/
theorem compareSteps_append_of_not_prefix :
    ∀ {s t : List Step} (w : List Step), ¬ s <+: t → compareSteps t (s ++ w) = compareSteps t s
  | [], _, _, h => absurd List.nil_prefix h
  | .before :: _, [], _, _ | .after :: _, [], _, _ => rfl
  | .before :: _, .after :: _, _, _ | .after :: _, .before :: _, _, _ => rfl
  | .before :: s, .before :: t, w, h | .after :: s, .after :: t, w, h =>
      compareSteps_append_of_not_prefix (s := s) (t := t) w fun hs =>
        h (List.cons_prefix_cons.mpr ⟨rfl, hs⟩)

theorem exists_eq_follow (h : p.steps <+: q.steps) : ∃ w, q = p.follow w := by
  obtain ⟨w, hw⟩ := h
  refine ⟨w, ?_⟩
  rw [follow_eq, hw, standard_follow_steps]

/-- **A rank that is not made from `p` does not tell `p` from what is made from it.** -/
theorem compare_follow (h : ∀ w, q ≠ p.follow w) (path : List Step) :
    compare q (p.follow path) = compare q p := by
  have hp : ¬ p.steps <+: q.steps := fun hp => by
    obtain ⟨w, hw⟩ := exists_eq_follow hp
    exact h w hw
  have hs := compareSteps_append_of_not_prefix path hp
  rw [← steps_follow] at hs
  exact hs

theorem lt_iff_lt_follow (h : ∀ w, q ≠ p.follow w) (path : List Step) :
    q < p ↔ q < p.follow path := by
  rw [← compare_lt_iff_lt, ← compare_lt_iff_lt, compare_follow h]

theorem lt_iff_follow_lt (h : ∀ w, q ≠ p.follow w) (path : List Step) :
    p < q ↔ p.follow path < q := by
  rw [← compare_gt_iff_gt, ← compare_gt_iff_gt, compare_follow h]

/-! ### A rank between two others -/

theorem before_lt (p : Rank) : p.before < p := follow_before_lt p []

theorem lt_after (p : Rank) : p < p.after := lt_follow_after p []

/-- **There is room above the lower of two ranks, or below the higher.** -/
theorem after_lt_or_lt_before (h : p < q) : p.after < q ∨ p < q.before := by
  by_cases hq : ∃ w, q = p.follow w
  · obtain ⟨w, rfl⟩ := hq
    cases w with
    | nil => exact absurd h (lt_irrefl p)
    | cons s w =>
        cases s with
        | before => exact absurd h (follow_before_lt p w).not_gt
        | after =>
            -- one step more, and the first one still leads up
            have hmade : (p.follow (.after :: w)).before = p.after.follow (w ++ [.before]) := by
              rw [follow, follow, List.foldl_append]
              rfl
            rw [hmade]
            exact .inr (lt_follow_after p _)
  · exact .inl ((lt_iff_follow_lt (not_exists.mp hq) [.after]).mp h)

/-- A rank between two others, one step from one of them. -/
def between (p q : Rank) : Rank := if p.after < q then p.after else q.before

theorem between_bounds (h : p < q) : p < between p q ∧ between p q < q := by
  rw [between]
  split
  · next hup => exact ⟨lt_after p, hup⟩
  · next hup => exact ⟨(after_lt_or_lt_before h).resolve_left hup, before_lt q⟩

/-! ### Filling gaps -/

/-- Puts a rank between the one at place `i` and the next. -/
def fillGap : ℕ → List Rank → List Rank
  | 0, p :: q :: rs => p :: between p q :: q :: rs
  | i + 1, p :: rs => p :: fillGap i rs
  | _, rs => rs

/-- Fills gaps in turn, each at its place in the list as it is then. -/
def fillGaps (gaps : List ℕ) (rs : List Rank) : List Rank :=
  gaps.foldl (fun rs i => fillGap i rs) rs

variable {rs : List Rank}

theorem head?_fillGap : ∀ (i : ℕ) (rs : List Rank), (fillGap i rs).head? = rs.head?
  | 0, [] | 0, [_] | 0, _ :: _ :: _ | _ + 1, [] | _ + 1, _ :: _ => rfl

theorem sublist_fillGap : ∀ (i : ℕ) (rs : List Rank), rs.Sublist (fillGap i rs)
  | 0, [] | 0, [_] | _ + 1, [] => .refl _
  | 0, _ :: q :: rs => .cons_cons _ (List.sublist_cons_self _ (q :: rs))
  | i + 1, _ :: rs => .cons_cons _ (sublist_fillGap i rs)

theorem length_fillGap : ∀ {i : ℕ} {rs : List Rank}, i + 1 < rs.length →
    (fillGap i rs).length = rs.length + 1
  | 0, _ :: _ :: _, _ => rfl
  | _ + 1, _ :: _, h => congrArg (· + 1) (length_fillGap (Nat.lt_of_succ_lt_succ h))

/-- **Filling a gap leaves an ascending list.** -/
theorem isChain_fillGap : ∀ (i : ℕ) {rs : List Rank}, rs.IsChain (· < ·) →
    (fillGap i rs).IsChain (· < ·)
  | 0, [], h | 0, [_], h | _ + 1, [], h => h
  | 0, p :: q :: rs, h => by
      obtain ⟨hpq, hrs⟩ := List.isChain_cons_cons.mp h
      obtain ⟨hlow, hhigh⟩ := between_bounds hpq
      exact .cons_cons hlow (.cons_cons hhigh hrs)
  | i + 1, p :: rs, h => by
      obtain ⟨hp, hrs⟩ := List.isChain_cons.mp h
      refine List.isChain_cons.mpr ⟨fun r hr => hp r ?_, isChain_fillGap i hrs⟩
      rwa [head?_fillGap] at hr

theorem isChain_fillGaps (gaps : List ℕ) {rs : List Rank} (h : rs.IsChain (· < ·)) :
    (fillGaps gaps rs).IsChain (· < ·) := by
  induction gaps generalizing rs with
  | nil => exact h
  | cons i gaps ih => exact ih (isChain_fillGap i h)

theorem sublist_fillGaps (gaps : List ℕ) (rs : List Rank) : rs.Sublist (fillGaps gaps rs) := by
  induction gaps generalizing rs with
  | nil => exact .refl rs
  | cons i gaps ih => exact (sublist_fillGap i rs).trans (ih _)

/-- Each gap that is there when its turn comes is filled. -/
theorem length_fillGaps {gaps : List ℕ} {rs : List Rank}
    (h : ∀ k (hk : k < gaps.length), gaps[k] + 1 < rs.length + k) :
    (fillGaps gaps rs).length = rs.length + gaps.length := by
  induction gaps generalizing rs with
  | nil => rfl
  | cons i gaps ih =>
      have hone : (fillGap i rs).length = rs.length + 1 :=
        length_fillGap (h 0 (Nat.succ_pos _))
      have hrest : ∀ k (hk : k < gaps.length), gaps[k] + 1 < (fillGap i rs).length + k := by
        intro k hk
        have hnext := h (k + 1) (Nat.succ_lt_succ hk)
        rw [List.getElem_cons_succ] at hnext
        omega
      have hfill : fillGaps (i :: gaps) rs = fillGaps gaps (fillGap i rs) := rfl
      rw [hfill, ih hrest, hone, List.length_cons]
      omega

/-- **Ranks made from a rank stay in its place, and there is always room for one more.**  Every rank
is made from the standard one.  A rank `q` that is neither `p` nor made from it is on the same side
of `p` and of all that is made from `p`, and that is below `p` or above it as its first step says.  If
`p` is below `q`, then `p.after` or `q.before` is between them.  So the gaps of an ascending list can
be filled again and again with ranks one step from a neighbour: the list ascends after that, still
holds what it held, and is longer by one for each gap. -/
theorem nested_and_dense :
    (∀ p : Rank, ∃ path, p = standard.follow path) ∧
    (∀ (p q : Rank) (path : List Step), path ≠ [] → (∀ w, q ≠ p.follow w) →
      ((q < p ↔ q < p.follow path) ∧ (q > p ↔ q > p.follow path))) ∧
    (∀ (p : Rank) (path : List Step),
      p.follow (.before :: path) < p ∧ p.follow (.after :: path) > p) ∧
    (∀ p q : Rank, p < q → (p < p.after ∧ p.after < q) ∨ (p < q.before ∧ q.before < q)) ∧
    ∀ (rs : List Rank) (gaps : List ℕ), rs.Pairwise (· < ·) →
      (fillGaps gaps rs).Pairwise (· < ·) ∧ rs.Sublist (fillGaps gaps rs) ∧
      ((∀ k (hk : k < gaps.length), gaps[k] + 1 < rs.length + k) →
        (fillGaps gaps rs).length = rs.length + gaps.length) := by
  refine ⟨fun p => ⟨p.steps, (standard_follow_steps p).symm⟩,
    fun p q path _ h => ⟨lt_iff_lt_follow h path, lt_iff_follow_lt h path⟩,
    fun p path => ⟨follow_before_lt p path, lt_follow_after p path⟩, fun p q h => ?_,
    fun rs gaps h => ⟨?_, sublist_fillGaps gaps rs, length_fillGaps⟩⟩
  · rcases after_lt_or_lt_before h with hup | hdown
    · exact .inl ⟨lt_after p, hup⟩
    · exact .inr ⟨hdown, before_lt q⟩
  · exact (isChain_fillGaps gaps h.isChain).pairwise

/-- Between two slots: a rank that is made from the lower by steps up and back, and three more ranks
in gaps that open one after the other. -/
theorem nested_and_dense_slots :
    let low := Slot.modeled.rank
    let high := Slot.transient.rank
    let gaps := [0, 1, 0]
    (low < high ∧ (∀ w, high ≠ low.follow w) ∧ [low, high].Pairwise (· < ·) ∧
        ∀ k (hk : k < gaps.length), gaps[k] + 1 < [low, high].length + k) ∧
      (low < low.follow [.after, .before] ∧ low.follow [.after, .before] < high) ∧
      ((low < low.after ∧ low.after < high) ∨ (low < high.before ∧ high.before < high)) ∧
      (fillGaps gaps [low, high]).Pairwise (· < ·) ∧ (fillGaps gaps [low, high]).length = 5 := by
  intro low high gaps
  have hlt : low < high := by decide
  have hnew : ∀ w, high ≠ low.follow w := fun w h => by
    have hsteps := congrArg steps h
    rw [steps_follow] at hsteps
    cases hsteps
  have hpair : [low, high].Pairwise (· < ·) := by decide
  have hgaps : ∀ k (hk : k < gaps.length), gaps[k] + 1 < [low, high].length + k := by decide
  obtain ⟨-, hplace, hside, hroom, hfill⟩ := nested_and_dense
  obtain ⟨hascending, -, hlength⟩ := hfill [low, high] gaps hpair
  have hhigh := (hplace low high [.after, .before] (by decide) hnew).2.mp hlt
  exact ⟨⟨hlt, hnew, hpair, hgaps⟩, ⟨(hside low [.before]).2, hhigh⟩, hroom low high hlt,
    hascending, hlength hgaps⟩

end RetryVerdict.Rank

import RetryVerdict.Proofs.Rank.Value
import Mathlib.Data.List.Dedup
import Mathlib.Data.List.Induction

/-!
# Rank — the stable sort

`IsStableSort rank xs ys` says what a stable sort of `xs` is, without an algorithm: `ys` ascends by
rank, holds the elements of `xs` and no others, and shows those of each rank in the order in which
`xs` has them.

* `IsStableSort.unique`: a list has one stable sort.
* `IsStableSort.of_lt`, `IsStableSort.of_perm`: where no two elements share a rank, every ascending
  permutation is it, and a list in another order has the same one.
* `IsStableSort.insertBy`: inserting an element into the sort of `xs` sorts `xs` with the element
  behind it.  So sorting anew after each arrival (`insertBy_eq_sortBy`) is sorting once
  (`isStableSort_sortBy`).
* `IsStableSort.of_append`: sorting the sorts of two lists sorts the two lists.
* `IsStableSort.filter`: a sort that forgets elements is the sort of what is left.
* `IsStableSort.exists_split`: what stands last in the sort ranks highest, and is the latest of its
  rank.
* `IsStableSort.eq_flatMap_block`: a stable sort shows its elements rank by rank, those of one rank
  as a block, in the order in which they came.  So the sort of a list that is doubled shows each
  block twice in a row (`IsStableSort.eq_flatMap_block_twice`).
-/

namespace RetryVerdict.Rank

variable {α : Type} {rank : α → Rank} {x y : α} {xs ys zs : List α}

/-- `ys` is `xs` in ascending order of rank, those of equal rank as they were. -/
structure IsStableSort (rank : α → Rank) (xs ys : List α) : Prop where
  ascending : ys.Pairwise fun a b => rank a ≤ rank b
  perm : ys.Perm xs
  stable : ∀ r, ys.filter (rank · = r) = xs.filter (rank · = r)

/-! ### There is one stable sort -/

/-- Two ascending lists with the same elements of each rank have the same first element. -/
theorem head_eq_of_stable (hy : (y :: ys).Pairwise fun a b => rank a ≤ rank b)
    (hx : (x :: xs).Pairwise fun a b => rank a ≤ rank b)
    (h : ∀ r, (y :: ys).filter (rank · = r) = (x :: xs).filter (rank · = r)) : y = x := by
  have mem : ∀ z, z ∈ y :: ys ↔ z ∈ x :: xs := fun z => by
    have hz := congrArg (z ∈ ·) (h (rank z))
    simpa using hz
  have hyx : rank y ≤ rank x := by
    rcases List.mem_cons.mp ((mem x).mpr List.mem_cons_self) with e | hm
    · rw [e]
    · exact (List.pairwise_cons.mp hy).1 x hm
  have hxy : rank x ≤ rank y := by
    rcases List.mem_cons.mp ((mem y).mp List.mem_cons_self) with e | hm
    · rw [e]
    · exact (List.pairwise_cons.mp hx).1 y hm
  have hr := h (rank x)
  rw [List.filter_cons_of_pos (by simpa using le_antisymm hyx hxy),
    List.filter_cons_of_pos (by simp)] at hr
  exact (List.cons.inj hr).1

/-- Ascending lists with the same elements of each rank are equal. -/
theorem eq_of_stable : ∀ {ys zs : List α},
    ys.Pairwise (fun a b => rank a ≤ rank b) → zs.Pairwise (fun a b => rank a ≤ rank b) →
    (∀ r, ys.filter (rank · = r) = zs.filter (rank · = r)) → ys = zs
  | [], [], _, _, _ => rfl
  | [], z :: zs, _, _, h => by
      have hz := h (rank z)
      simp at hz
  | y :: ys, [], _, _, h => by
      have hy := h (rank y)
      simp at hy
  | y :: ys, z :: zs, hy, hz, h => by
      obtain rfl := head_eq_of_stable hy hz h
      refine congrArg (y :: ·) (eq_of_stable hy.of_cons hz.of_cons fun r => ?_)
      have hr := h r
      by_cases e : rank y = r
      · simpa [e] using hr
      · simpa [e] using hr

/-- **A list has one stable sort.** -/
theorem IsStableSort.unique (hy : IsStableSort rank xs ys) (hz : IsStableSort rank xs zs) :
    ys = zs :=
  eq_of_stable hy.ascending hz.ascending fun r => (hy.stable r).trans (hz.stable r).symm

/-- If no two elements share a rank, the order in which they come does not matter. -/
theorem IsStableSort.of_lt (hy : ys.Pairwise fun a b => rank a < rank b) (hp : ys.Perm xs) :
    IsStableSort rank xs ys where
  ascending := hy.imp le_of_lt
  perm := hp
  stable r := by
    have hfilter : (ys.filter (rank · = r)).Perm (xs.filter (rank · = r)) := hp.filter _
    have hlt := hy.filter (rank · = r)
    have hr : ∀ z ∈ ys.filter (rank · = r), rank z = r := fun z hz => by
      simpa using (List.mem_filter.mp hz).2
    -- at most one element has the rank `r`
    cases hys : ys.filter (rank · = r) with
    | nil =>
        rw [hys] at hfilter
        exact hfilter.nil_eq
    | cons z zs =>
        rw [hys] at hfilter hlt hr
        cases zs with
        | nil => exact List.singleton_perm.mp hfilter
        | cons z' zs =>
            have hzz' : rank z < rank z' := (List.pairwise_cons.mp hlt).1 z' List.mem_cons_self
            rw [hr z List.mem_cons_self, hr z' (by simp)] at hzz'
            exact absurd hzz' (lt_irrefl r)

/-- If no two elements share a rank, the sort of a list is that of each of its permutations. -/
theorem IsStableSort.of_perm (h : IsStableSort rank xs ys)
    (hne : xs.Pairwise fun a b => rank a ≠ rank b) (hp : zs.Perm xs) :
    IsStableSort rank zs ys := by
  have hne' : ys.Pairwise fun a b => rank a ≠ rank b := hne.perm h.perm.symm Ne.symm
  exact .of_lt ((h.ascending.and hne').imp fun hab => lt_of_le_of_ne hab.1 hab.2)
    (h.perm.trans hp.symm)

/-! ### Insertion keeps a list sorted -/

theorem insertBy_perm (x : α) : ∀ ys : List α, (insertBy rank x ys).Perm (x :: ys)
  | [] => .refl _
  | y :: ys => by
      rw [insertBy]
      split
      · exact .refl _
      · exact ((insertBy_perm x ys).cons y).trans (.swap x y ys)

theorem insertBy_ascending (x : α) : ∀ {ys : List α},
    ys.Pairwise (fun a b => rank a ≤ rank b) →
    (insertBy rank x ys).Pairwise fun a b => rank a ≤ rank b
  | [], _ => List.pairwise_singleton _ _
  | y :: ys, h => by
      obtain ⟨hy, hys⟩ := List.pairwise_cons.mp h
      rw [insertBy]
      split
      · next hxy =>
          refine List.pairwise_cons.mpr ⟨fun z hz => ?_, h⟩
          rcases List.mem_cons.mp hz with rfl | hz
          · exact hxy.le
          · exact hxy.le.trans (hy z hz)
      · next hxy =>
          refine List.pairwise_cons.mpr ⟨fun z hz => ?_, insertBy_ascending x hys⟩
          rcases List.mem_cons.mp ((insertBy_perm x ys).mem_iff.mp hz) with rfl | hz
          · exact not_lt.mp hxy
          · exact hy z hz

/-- The new element goes behind those of its rank. -/
theorem filter_insertBy (x : α) (r : Rank) : ∀ {ys : List α},
    ys.Pairwise (fun a b => rank a ≤ rank b) →
    (insertBy rank x ys).filter (rank · = r) = ys.filter (rank · = r) ++ [x].filter (rank · = r)
  | [], _ => rfl
  | y :: ys, h => by
      rw [insertBy]
      split
      · next hxy =>
          by_cases hx : rank x = r
          · -- nothing behind an element of higher rank has the rank of `x`
            have hnone : (y :: ys).filter (rank · = r) = [] := by
              refine List.filter_eq_nil_iff.mpr fun z hz => ?_
              have hyz : rank y ≤ rank z := by
                rcases List.mem_cons.mp hz with rfl | hz
                · exact le_rfl
                · exact (List.pairwise_cons.mp h).1 z hz
              simpa [← hx] using (hxy.trans_le hyz).ne'
            rw [List.filter_cons_of_pos (by simpa using hx), hnone]
            simp [hx]
          · simp [hx]
      · rw [List.filter_cons, List.filter_cons, filter_insertBy x r h.of_cons]
        split <;> rfl

namespace IsStableSort

protected theorem nil : IsStableSort rank [] [] := ⟨.nil, .refl _, fun _ => rfl⟩

/-- **Inserting is sorting with one more element.** -/
protected theorem insertBy (x : α) (h : IsStableSort rank xs ys) :
    IsStableSort rank (xs ++ [x]) (Rank.insertBy rank x ys) where
  ascending := insertBy_ascending x h.ascending
  perm := (insertBy_perm x ys).trans
    ((h.perm.cons x).trans (List.perm_append_singleton x xs).symm)
  stable r := by rw [filter_insertBy x r h.ascending, h.stable r, List.filter_append]

end IsStableSort

/-- **Sorting by insertion is the stable sort.** -/
theorem isStableSort_sortBy (xs : List α) : IsStableSort rank xs (sortBy rank xs) := by
  induction xs using List.reverseRecOn with
  | nil => exact .nil
  | append_singleton xs x ih =>
      rw [sortBy, List.foldl_append]
      exact ih.insertBy x

/-- Inserting into a sorted list is sorting it anew with the element behind it. -/
theorem insertBy_eq_sortBy (x : α) (h : ys.Pairwise fun a b => rank a ≤ rank b) :
    insertBy rank x ys = sortBy rank (ys ++ [x]) := by
  have hys : IsStableSort rank ys ys := ⟨h, .refl _, fun _ => rfl⟩
  exact (hys.insertBy x).unique (isStableSort_sortBy (ys ++ [x]))

/-! ### What can be done to both lists -/

namespace IsStableSort

/-- Sorting the sorts of two lists sorts the two lists, one behind the other. -/
theorem of_append {xs' ys' : List α} (h : IsStableSort rank xs ys)
    (h' : IsStableSort rank xs' ys') (hz : IsStableSort rank (ys ++ ys') zs) :
    IsStableSort rank (xs ++ xs') zs where
  ascending := hz.ascending
  perm := hz.perm.trans (h.perm.append h'.perm)
  stable r := by
    rw [hz.stable r, List.filter_append, List.filter_append, h.stable r, h'.stable r]

/-- Elements can be left out before or after sorting. -/
protected theorem filter (p : α → Bool) (h : IsStableSort rank xs ys) :
    IsStableSort rank (xs.filter p) (ys.filter p) where
  ascending := h.ascending.filter p
  perm := h.perm.filter p
  stable r := by
    have swap : ∀ zs : List α,
        (zs.filter p).filter (rank · = r) = (zs.filter (rank · = r)).filter p := fun zs => by
      simp only [List.filter_filter, Bool.and_comm]
    rw [swap, h.stable r, swap]

/-! ### The last element -/

/-- The last element of the sort ranks at least as high as those before it in the list, and higher
than those behind it. -/
theorem exists_split (h : IsStableSort rank xs (ys ++ [y])) :
    ∃ s t, xs = s ++ y :: t ∧ (∀ x ∈ s, rank x ≤ rank y) ∧ ∀ x ∈ t, rank x < rank y := by
  have hle : ∀ x ∈ xs, rank x ≤ rank y := fun x hx => by
    rcases List.mem_append.mp (h.perm.mem_iff.mpr hx) with hy | hy
    · exact (List.pairwise_append.mp h.ascending).2.2 x hy y List.mem_cons_self
    · rw [List.mem_singleton.mp hy]
  -- among those of its rank, `y` is the latest
  have hlast := h.stable (rank y)
  rw [List.filter_append, List.filter_cons_of_pos (by simp), List.filter_nil, eq_comm,
    List.filter_eq_append_iff] at hlast
  obtain ⟨s₁, u, rfl, -, hu⟩ := hlast
  obtain ⟨s₂, t, rfl, -, -, ht⟩ := List.filter_eq_cons_iff.mp hu
  refine ⟨s₁ ++ s₂, t, by simp, fun x hx => hle x ?_, fun x hx => lt_of_le_of_ne (hle x ?_) ?_⟩
  · rw [← List.append_assoc]
    exact List.mem_append_left _ hx
  · exact List.mem_append_right _ (List.mem_append_right _ (List.mem_cons_of_mem _ hx))
  · exact fun e => List.filter_eq_nil_iff.mp ht x hx (by simpa using e)

end IsStableSort

/-! ### A sorted list in blocks -/

section Blocks

variable {rs : List Rank}

/-- The ranks that occur, each once, in ascending order. -/
def ranksOf (rank : α → Rank) (xs : List α) : List Rank := (sortBy id (xs.map rank)).dedup

/-- The elements of rank `r`, in order. -/
def block (rank : α → Rank) (xs : List α) (r : Rank) : List α := xs.filter (rank · = r)

theorem mem_ranksOf {r : Rank} : r ∈ ranksOf rank xs ↔ ∃ x ∈ xs, rank x = r := by
  rw [ranksOf, List.mem_dedup, (isStableSort_sortBy _).perm.mem_iff, List.mem_map]

theorem ranksOf_ascending (rank : α → Rank) (xs : List α) :
    (ranksOf rank xs).Pairwise (· < ·) := by
  have hsort : IsStableSort id (xs.map rank) (sortBy id (xs.map rank)) := isStableSort_sortBy _
  have hle : (ranksOf rank xs).Pairwise (· ≤ ·) :=
    hsort.ascending.sublist (List.dedup_sublist _)
  exact (hle.and (List.nodup_dedup _)).imp fun h => lt_of_le_of_ne h.1 h.2

theorem filter_block (r s : Rank) :
    (block rank xs s).filter (rank · = r) = if s = r then block rank xs r else [] := by
  rw [block, List.filter_filter]
  split
  · next hsr => simp [block, hsr]
  · next hsr =>
      refine List.filter_eq_nil_iff.mpr fun x _ hx => hsr ?_
      simp only [Bool.and_eq_true, decide_eq_true_eq] at hx
      exact hx.2.symm.trans hx.1

/-- Of the blocks of several ranks, one is that of rank `r`, or none. -/
theorem filter_flatMap_block (r : Rank) (h : rs.Nodup) :
    (rs.flatMap (block rank xs)).filter (rank · = r) = if r ∈ rs then block rank xs r else [] := by
  induction rs with
  | nil => rfl
  | cons s rs ih =>
      obtain ⟨hs, hrs⟩ := List.nodup_cons.mp h
      rw [List.flatMap_cons, List.filter_append, filter_block, ih hrs]
      by_cases hsr : s = r
      · subst hsr
        simp [hs]
      · simp [hsr, Ne.symm hsr]

/-- **A stable sort is its blocks**, in ascending order of their ranks. -/
theorem IsStableSort.eq_flatMap_block (h : IsStableSort rank xs ys) (hrs : rs.Pairwise (· < ·))
    (hmem : ∀ x ∈ xs, rank x ∈ rs) : ys = rs.flatMap (block rank xs) := by
  have hblock : ∀ {r x}, x ∈ block rank xs r → rank x = r := fun hx => by
    simpa using (List.mem_filter.mp hx).2
  have hascending : (rs.flatMap (block rank xs)).Pairwise fun x y => rank x ≤ rank y := by
    refine List.pairwise_flatMap.mpr ⟨fun r _ => ?_, hrs.imp fun hlt x hx y hy => ?_⟩
    · refine List.pairwise_of_forall_mem_list fun x hx y hy => ?_
      rw [hblock hx, hblock hy]
    · rw [hblock hx, hblock hy]
      exact hlt.le
  refine eq_of_stable h.ascending hascending fun r => ?_
  rw [h.stable r, filter_flatMap_block r (hrs.imp ne_of_lt)]
  split
  · rfl
  · next hr =>
      refine List.filter_eq_nil_iff.mpr fun x hx he => hr ?_
      rw [← of_decide_eq_true he]
      exact hmem x hx

/-- The blocks of a list that is doubled are each doubled. -/
theorem IsStableSort.eq_flatMap_block_twice (h : IsStableSort rank (xs ++ xs) ys) :
    ys = (ranksOf rank xs).flatMap fun r => block rank xs r ++ block rank xs r := by
  have hmem : ∀ x ∈ xs ++ xs, rank x ∈ ranksOf rank xs := fun x hx =>
    mem_ranksOf.mpr ⟨x, by simpa using hx, rfl⟩
  rw [h.eq_flatMap_block (ranksOf_ascending rank xs) hmem]
  exact List.flatMap_congr fun r _ => List.filter_append _ _

end Blocks

end RetryVerdict.Rank

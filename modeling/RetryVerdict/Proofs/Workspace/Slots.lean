import RetryVerdict.Proofs.Rank.Dyadic
import RetryVerdict.Proofs.Workspace.Assembly

/-!
# Workspace — places between the shipped classifiers

A rank that is made from a slot by a step `after`, and then by any steps, lies between that slot and
the next one, however far the steps lead back (`Slot.follow_after_lt`).  So whoever has such a rank
is asked between the two shipped classifiers, in every chain of the layer that starts with them and
replaces nothing (`Assembly.ExtendsStandard`): `Assembly.place_among_slots`.
-/

namespace RetryVerdict

open Layer (additions accepted effective registrations)
open Rank (IsStableSort follow follow_before_lt lt_follow_after)

/-! ### Ranks between the slots -/

namespace Slot

/-- The shipped classifier that stands there. -/
def classifier : Slot → Classifier
  | transient => .transient
  | modeled => .modeled
  | service => .service
  | status => .status

theorem rank_classifier (s : Slot) : s.classifier.rank = s.rank := by
  cases s <;> rfl

theorem classifier_mem_shipped (s : Slot) : s.classifier ∈ Classifier.shipped := by
  cases s <;> simp [classifier, Classifier.shipped]

/-- A slot is at least as high as another one, or made from it by steps that begin with `before`. -/
theorem le_or_made_below : ∀ s t : Slot,
    t.rank ≤ s.rank ∨ ∃ path, s.rank = t.rank.before.follow path
  | transient, transient | transient, modeled | transient, service | transient, status
  | modeled, modeled | modeled, service | modeled, status | service, service | service, status
  | status, status => .inl (by decide)
  | modeled, transient | service, modeled | status, service => .inr ⟨[], rfl⟩
  | service, transient | status, modeled => .inr ⟨[.before], rfl⟩
  | status, transient => .inr ⟨[.before, .before], rfl⟩

/-- **What is made above a slot stays below the next one.** -/
theorem follow_after_lt {s t : Slot} (h : s.rank < t.rank) (path : List Step) :
    s.rank.after.follow path < t.rank := by
  rcases le_or_made_below s t with hle | ⟨path', hs⟩
  · exact absurd h hle.not_gt
  · -- the steps back from `t` to `s` come first, so nothing that follows them reaches `t` again
    have hpath : s.rank.after.follow path = t.rank.before.follow (path' ++ .after :: path) := by
      rw [hs, follow, follow, follow, List.foldl_append]
      rfl
    rw [hpath]
    exact follow_before_lt t.rank _

/-- The status slot is the lowest. -/
theorem status_rank_le : ∀ t : Slot, status.rank ≤ t.rank
  | transient | modeled | service | status => by decide

end Slot

/-! ### Places in a chain -/

/-- Both stand in the chain, and wherever `k` stands, it stands behind `j`. -/
def Chain.Precedes (c : Chain) (j k : Classifier) : Prop :=
  j ∈ c.classifiers ∧ k ∈ c.classifiers ∧
    ∀ x y : Nat, c.classifiers[x]? = some j → c.classifiers[y]? = some k → x < y

/-- In a chain that ascends, the lower rank stands in front. -/
theorem Chain.precedes_of_lt {c : Chain} {ks : List Classifier} {j k : Classifier}
    (h : IsStableSort Classifier.rank ks c.classifiers) (hj : j ∈ ks) (hk : k ∈ ks)
    (hlt : j.rank < k.rank) : c.Precedes j k := by
  refine ⟨h.perm.mem_iff.mpr hj, h.perm.mem_iff.mpr hk, fun x y hx hy => ?_⟩
  obtain ⟨hx', rfl⟩ := List.getElem?_eq_some_iff.mp hx
  obtain ⟨hy', rfl⟩ := List.getElem?_eq_some_iff.mp hy
  by_contra hle
  rcases (not_lt.mp hle).lt_or_eq with hyx | rfl
  · exact absurd (List.pairwise_iff_getElem.mp h.ascending y x hy' hx' hyx) (not_le.mpr hlt)
  · exact lt_irrefl _ hlt

/-! ### Chains of the layer with the shipped classifiers -/

namespace Workspace.Assembly

/-- The base started with the shipped classifiers, and no layer has replaced its own. -/
structure ExtendsStandard (m : Assembly) : Prop where
  started : additions Classifier.shipped <+: history m.commands m.base
  kept : ∀ name, name = m.base ∨ m.upper = some name →
    ∀ e ∈ accepted {} (history m.commands name), e.isReplacement = false

variable {m : Assembly}

/-- The shipped classifiers are still registered. -/
theorem ExtendsStandard.mem_registered (h : m.ExtendsStandard) {k : Classifier}
    (hk : k ∈ Classifier.shipped) : k ∈ m.registered := by
  have hbase : k ∈ registrations (history m.commands m.base) := by
    obtain ⟨es, hes⟩ := h.started
    have hkept := h.kept m.base (.inl rfl)
    rw [← hes] at hkept ⊢
    exact (Layer.prefix_registrations hkept).subset hk
  rw [registered]
  cases hu : m.upper with
  | none => exact hbase
  | some upper =>
      have hno : (accepted {} (history m.commands upper)).any Layer.Edit.isReplacement = false := by
        simpa using h.kept upper (.inr hu)
      simp only [effective, hno, Bool.false_eq_true, if_false]
      exact List.mem_append_left _ hbase

/-- **A classifier ranked above a slot is asked between that slot and the next.**  Let the base be
the layer with the shipped classifiers, with whatever was added to it, frozen alone or below a layer
that replaced nothing; and let a classifier be registered on either, whenever and among whatever
others.  If its rank is made from a slot by a step `after` and then any steps, then it stands in the
chain behind the shipped classifiers of that slot and of all lower ones, and in front of those of
all higher ones.  If its rank is made from the lowest slot by a step `before` and then any steps,
it stands in front of all four. -/
theorem place_among_slots (m : Assembly) (h : m.ExtendsStandard) (k : Classifier)
    (hk : k ∈ m.registered) :
    (∀ (s : Slot) (path : List Step), k.rank = s.rank.after.follow path → ∀ t : Slot,
      (t.rank ≤ s.rank → m.chain.Precedes t.classifier k) ∧
      (s.rank < t.rank → m.chain.Precedes k t.classifier)) ∧
    ∀ path : List Step, k.rank = Slot.status.rank.before.follow path → ∀ t : Slot,
      m.chain.Precedes k t.classifier := by
  have hsort := m.isStableSort_chain
  have hslot : ∀ t : Slot, t.classifier ∈ m.registered :=
    fun t => h.mem_registered t.classifier_mem_shipped
  refine ⟨fun s path hrank t => ⟨fun hts => ?_, fun hst => ?_⟩, fun path hrank t => ?_⟩
  · refine Chain.precedes_of_lt hsort (hslot t) hk ?_
    rw [t.rank_classifier, hrank]
    exact hts.trans_lt (lt_follow_after s.rank path)
  · refine Chain.precedes_of_lt hsort hk (hslot t) ?_
    rw [t.rank_classifier, hrank]
    exact Slot.follow_after_lt hst path
  · refine Chain.precedes_of_lt hsort hk (hslot t) ?_
    rw [t.rank_classifier, hrank]
    exact (follow_before_lt Slot.status.rank path).trans_le t.status_rank_le

/-- One classifier just above the service slot, by steps that lead back towards it, on the upper
layer and registered before the base began; another one below all slots, on the base. -/
theorem place_among_slots_two :
    let near : Classifier :=
      { name := Bytes.utf8 "near", rank := Slot.service.rank.after.follow [.before, .before],
        answer := fun _ v => some v }
    let low : Classifier :=
      { name := Bytes.utf8 "low", rank := Slot.status.rank.before.follow [.after],
        answer := fun _ _ => none }
    let m : Assembly :=
      { commands := [.edit "call" (.add (some near)), .standard "client", .edit "client" (.add none),
          .edit "client" (.add (some low))],
        base := "client", upper := some "call" }
    (m.ExtendsStandard ∧ near ∈ m.registered ∧ low ∈ m.registered) ∧
      m.chain.Precedes .service near ∧ m.chain.Precedes near .modeled ∧
      m.chain.Precedes low .status := by
  intro near low m
  have hregistered : m.registered = Classifier.shipped ++ [low, near] := rfl
  have hstandard : m.ExtendsStandard := by
    refine ⟨⟨[.add none, .add (some low)], rfl⟩, ?_⟩
    rintro name (rfl | hupper)
    · decide
    · obtain rfl := Option.some.inj hupper
      decide
  have hnear : near ∈ m.registered := by
    rw [hregistered]
    simp
  have hlow : low ∈ m.registered := by
    rw [hregistered]
    simp
  have hplace := (place_among_slots m hstandard near hnear).1 .service [.before, .before] rfl
  exact ⟨⟨hstandard, hnear, hlow⟩, (hplace .service).1 le_rfl, (hplace .modeled).2 (by decide),
    (place_among_slots m hstandard low hlow).2 [.after] rfl .status⟩

end Workspace.Assembly

end RetryVerdict

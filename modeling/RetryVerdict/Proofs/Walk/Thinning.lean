import RetryVerdict.Proofs.Walk.Law

/-!
# Walk — leaving classifiers out

The classifiers of a walk stand at places `0, 1, …`, and the calls of its run at the first of these
places.  A place is *silent* in a run if the classifier there abstained, or was not asked
(`Run.Silent`).  To thin a list is to keep only some of its places (`thin`); the elements that it
drops may stand anywhere, in front of a veto and behind it.

* `walk_thin`: a walk from which silent places are dropped is the same walk, without the calls at
  these places.  So are its verdict and what is recorded of it.
* `Walks.abstained_of_abstains`: the place of a classifier that abstains whatever it is told is
  silent.  So to put such classifiers into a list, anywhere, adds their calls and changes nothing
  else.

`judge_thin` says both of a walk from the start.
-/

namespace RetryVerdict

/-! ### Places -/

/-- The elements at the places that are kept. -/
def thin {α : Type} (keep : Nat → Bool) : List α → List α
  | [] => []
  | x :: xs =>
    if keep 0 then x :: thin (fun i => keep (i + 1)) xs else thin (fun i => keep (i + 1)) xs

section Places

variable {α : Type} {keep : Nat → Bool}

theorem thin_cons_of_keep (h : keep 0 = true) (x : α) (xs : List α) :
    thin keep (x :: xs) = x :: thin (fun i => keep (i + 1)) xs := by
  rw [thin, if_pos h]

theorem thin_cons_of_drop (h : keep 0 = false) (x : α) (xs : List α) :
    thin keep (x :: xs) = thin (fun i => keep (i + 1)) xs := by
  rw [thin, if_neg (by simp [h])]

end Places

namespace Run

/-- The classifier at this place abstained, or was not asked. -/
def Silent (r : Run) (i : Nat) : Prop := ∀ c, r.calls[i]? = some c → c.abstained = true

/-- The run with the calls at the places that are kept. -/
def thinned (r : Run) (keep : Nat → Bool) : Run := { r with calls := thin keep r.calls }

variable {r : Run} {keep : Nat → Bool} {c : Call} {log : List Entry}

theorem thinned_preceded_of_keep (h : keep 0 = true) :
    (r.preceded c log).thinned keep = (r.thinned fun i => keep (i + 1)).preceded c log := by
  simp only [thinned, preceded, thin_cons_of_keep h]

theorem thinned_preceded_of_drop (h : keep 0 = false) :
    (r.preceded c).thinned keep = r.thinned fun i => keep (i + 1) := by
  simp only [thinned, preceded, thin_cons_of_drop h, List.nil_append]

/-- What is silent behind the first call is silent in the rest of the run. -/
theorem Silent.of_preceded {i : Nat} (h : (r.preceded c log).Silent (i + 1)) : r.Silent i := h

end Run

/-! ### A walk with places left out -/

section Thinning

variable {l : Level} {a : Attempt} {v : Verdict} {k : Classifier} {ks : List Classifier}
  {keep : Nat → Bool}

/-- The first one asked abstains if its place is silent. -/
theorem opinion?_of_silent_zero (h : (walk l a v (k :: ks)).Silent 0) :
    (k.ask a v).opinion? = none := by
  have hc : (walk l a v (k :: ks)).calls[0]? = some (k.ask a v) := by
    rcases (k.ask a v).opinion?_cases with ho | ⟨r, ho⟩ | ho
    · rw [walk_cons_of_abstained ks ho]
      rfl
    · rw [walk_cons_of_retry ks ho]
      rfl
    · rw [walk_cons_of_veto ks ho]
      rfl
  have habs := h _ hc
  rwa [Call.abstained, Option.isNone_iff_eq_none] at habs

/-- **What is silent can be left out.**  The walk asks the others what it asked them, is answered
the same, ends with the same verdict, and leaves the same messages. -/
theorem walk_thin (h : ∀ i, keep i = false → (walk l a v ks).Silent i) :
    walk l a v (thin keep ks) = (walk l a v ks).thinned keep := by
  induction ks generalizing v keep with
  | nil => rfl
  | cons k ks ih =>
      cases h0 : keep 0 with
      | false =>
          have ho := opinion?_of_silent_zero (h 0 h0)
          rw [walk_cons_of_abstained ks ho] at h ⊢
          rw [thin_cons_of_drop h0, Run.thinned_preceded_of_drop h0]
          exact ih fun i hi => (h (i + 1) hi).of_preceded
      | true =>
          rw [thin_cons_of_keep h0]
          rcases (k.ask a v).opinion?_cases with ho | ⟨r, ho⟩ | ho
          · rw [walk_cons_of_abstained _ ho] at h ⊢
            rw [walk_cons_of_abstained _ ho, Run.thinned_preceded_of_keep h0,
              ih fun i hi => (h (i + 1) hi).of_preceded]
          · rw [walk_cons_of_retry _ ho] at h ⊢
            rw [walk_cons_of_retry _ ho, Run.thinned_preceded_of_keep h0,
              ih fun i hi => (h (i + 1) hi).of_preceded]
          · rw [walk_cons_of_veto _ ho, walk_cons_of_veto _ ho, Run.thinned, thin_cons_of_keep h0]
            rfl

end Thinning

/-! ### Classifiers that always abstain -/

/-- The classifier abstains about `a`, whatever it is told. -/
def Classifier.Abstains (k : Classifier) (a : Attempt) : Prop := ∀ v, (k.ask a v).abstained = true

namespace Walks

variable {a : Attempt} {v w : Verdict} {ks : List Classifier} {cs : List Call} {c : Call} {i : Nat}

/-- The call at a place is that of the classifier there. -/
theorem getElem?_classifier (h : Walks a v ks cs w) (hc : cs[i]? = some c) :
    ks[i]? = some c.classifier := by
  obtain ⟨rest, hrest⟩ := h.asked_prefix
  have hi : i < (cs.map (·.classifier)).length := by
    rw [List.length_map]
    exact (List.getElem?_eq_some_iff.mp hc).1
  rw [← hrest, List.getElem?_append_left hi, List.getElem?_map, hc]
  rfl

/-- The call of a classifier that always abstains is an abstention. -/
theorem abstained_of_abstains (h : Walks a v ks cs w) (hc : c ∈ cs)
    (hk : c.classifier.Abstains a) : c.abstained = true := by
  have hask : c.classifier.ask a c.preceding = c := by
    rw [Classifier.ask, ← h.answer_eq hc]
  rw [← hask]
  exact hk c.preceding

end Walks

/-! ### A walk from the start -/

/-- **Who does not speak does not count.**  The call at a place of a run is that of the classifier
there.  If at some places the classifiers abstained or were not asked, the walk without them comes
to the same run, up to the calls at these places: the others are told what they were told, and
answer the same, the verdict is the same, and the same messages are recorded.  In the same way, to
put classifiers that always abstain between the others, anywhere and any number of them, adds their
calls to the run and changes nothing else. -/
theorem judge_thin (l : Level) (ks : List Classifier) (a : Attempt) :
    (∀ (i : Nat) c, (judge l ks a).calls[i]? = some c → ks[i]? = some c.classifier) ∧
    (∀ keep, (∀ i, keep i = false → (judge l ks a).Silent i) →
      judge l (thin keep ks) a = (judge l ks a).thinned keep) ∧
    ∀ keep ls, thin keep ls = ks →
      (∀ (i : Nat) k, keep i = false → ls[i]? = some k → k.Abstains a) →
      judge l ks a = (judge l ls a).thinned keep := by
  refine ⟨fun i c hc => (walk_walks l a .undecided ks).getElem?_classifier hc,
    fun keep h => walk_thin h, ?_⟩
  rintro keep ls rfl h
  have hls := walk_walks l a .undecided ls
  refine walk_thin fun i hi c hc => ?_
  exact hls.abstained_of_abstains (List.mem_of_getElem? hc)
    (h i c.classifier hi (hls.getElem?_classifier hc))

/-- One that has no answer, one that answers `undecided`, and one behind a veto, which are left
out; the veto depends on the opinion before it.  The first two are put back.  What is left of the
run is the opinion and the veto that is told of it, with their messages. -/
theorem judge_thin_veto :
    let mute : Classifier := { name := Bytes.utf8 "mute", answer := fun _ _ => none }
    let shy : Classifier := { name := Bytes.utf8 "shy", answer := fun _ _ => some .undecided }
    let stern : Classifier :=
      { name := Bytes.utf8 "stern",
        answer := fun _ v => if v = .undecided then none else some .forbid }
    let a : Attempt := .ofUnparseable { status := 503 }
    let ks : List Classifier := [.status, mute, shy, stern, .transient]
    let keep : Nat → Bool := fun i => i != 1 && i != 2 && i != 4
    ((∀ i, keep i = false → (judge .trace ks a).Silent i) ∧
      judge .trace [.status, stern] a = (judge .trace ks a).thinned keep) ∧
    ((∀ i k, keep i = false → [Classifier.status, mute, shy, stern][i]? = some k → k.Abstains a) ∧
      judge .trace [.status, stern] a
        = (judge .trace [.status, mute, shy, stern] a).thinned keep) ∧
    ((judge .trace ks a).calls.map (·.classifier.name)
        = [Slot.status.name, mute.name, shy.name, stern.name] ∧
      (judge .trace [.status, stern] a).verdict = .forbid ∧
      (judge .trace [.status, stern] a).calls.map
          (fun c => (c.classifier.name, c.preceding, c.answer))
        = [(Slot.status.name, .undecided, some (.ofCategory .server)),
          (stern.name, .ofCategory .server, some .forbid)] ∧
      (judge .trace [.status, stern] a).log
        = [⟨.trace, Bytes.utf8 "classifier 'HTTP Status Codes' (default.before.before.before) "
              ++ Bytes.utf8 "overrides NoOpinion with RetryIndicated(RetryableError(Server))"⟩,
          ⟨.trace, Bytes.utf8 "classifier 'stern' (default) "
              ++ Bytes.utf8 "overrides RetryIndicated(RetryableError(Server)) with RetryForbidden"⟩,
          ⟨.debug, Bytes.utf8 "retry forbidden by classifier 'stern'"⟩]) := by
  intro mute shy stern a ks keep
  have hplace : ∀ i, keep i = false → i = 1 ∨ i = 2 ∨ i = 4 := fun i hi => by
    simp [keep] at hi
    tauto
  have hmute : mute.Abstains a := fun _ => rfl
  have hshy : shy.Abstains a := fun _ => rfl
  have hsilent : ∀ i, keep i = false → (judge .trace ks a).Silent i := by
    intro i hi c hc
    rcases hplace i hi with rfl | rfl | rfl
    · obtain rfl := Option.some.inj hc
      rfl
    · obtain rfl := Option.some.inj hc
      rfl
    · cases hc
  have habs : ∀ i k, keep i = false → [Classifier.status, mute, shy, stern][i]? = some k →
      k.Abstains a := by
    intro i k hi hk
    rcases hplace i hi with rfl | rfl | rfl
    · obtain rfl := Option.some.inj hk
      exact hmute
    · obtain rfl := Option.some.inj hk
      exact hshy
    · cases hk
  have hheld := (judge_thin .trace ks a).2.1 keep hsilent
  exact ⟨⟨hsilent, hheld⟩, ⟨habs, (judge_thin .trace [.status, stern] a).2.2 keep _ rfl habs⟩,
    by decide⟩

end RetryVerdict

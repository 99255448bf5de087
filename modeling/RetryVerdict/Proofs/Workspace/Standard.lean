import RetryVerdict.Proofs.Workspace.Decision

/-!
# Workspace — the decision table of the shipped classifiers

`Attempt.standardVerdict` is a table: the first row that applies to an attempt gives the verdict.
It knows nothing of classifiers, ranks or walks.

* `Classifier.eq_reverse_of_isStableSort`: no two of the shipped classifiers share a rank, so in
  whatever order they arrive, the lowest slot is asked first and the highest last.
* `Chain.judge_reverse_shipped`: so the verdict is the answer of the highest slot that answers.
* `Attempt.answer_eq_standardVerdict`: and that is what the table says.
* `verdictAlone_of_perm`: a layer with the shipped classifiers freezes to a chain that decides by
  the table.
-/

namespace RetryVerdict

open Bytes (utf8)
open Layer (registrations)
open Rank (IsStableSort)

/-! ### The table -/

namespace Attempt

variable {a : Attempt}

/-- What failed may pass: the transport, or without a failure of it the parsing. -/
def failurePasses (a : Attempt) : Bool :=
  a.transportFailed && a.transport.mayPass || !a.transportFailed && a.unparseable

/-- The category that the contract of the service declares. -/
def declared? (a : Attempt) : Option Category := a.error.bind (·.category)

/-- The delay that the response states, if there is one. -/
def stated? (a : Attempt) : Option Delay := a.response.bind (·.fields.statedDelay)

/-- The first row that applies gives the verdict. -/
def standardVerdict (a : Attempt) : Verdict :=
  if a.failurePasses then .ofCategory .transient
  else match a.declared? with
    | some c => .ofCategory c
    | none =>
      if a.errorCode?.any ServiceError.isThrottling then .retry ⟨.throttling, a.stated?⟩
      else if a.errorCode?.any ServiceError.isPassing then .retry ⟨.transient, a.stated?⟩
      else if a.status?.any ([500, 502, 503, 504].contains ·) then .ofCategory .server
      else .undecided

/-- The table forbids nothing. -/
theorem standardVerdict_ne_forbid (a : Attempt) : a.standardVerdict ≠ .forbid := by
  rw [standardVerdict]
  split
  · exact Verdict.noConfusion
  · split
    · exact Verdict.noConfusion
    · split_ifs <;> exact Verdict.noConfusion

/-- The category of the error code, row by row. -/
theorem codeCategory?_eq (a : Attempt) :
    a.errorCode?.bind ServiceError.codeCategory?
      = if a.errorCode?.any ServiceError.isThrottling then some .throttling
        else if a.errorCode?.any ServiceError.isPassing then some .transient
        else none := by
  cases a.errorCode? <;> rfl

/-- The rows of the error codes, taken together. -/
theorem standardVerdict_eq (a : Attempt) :
    a.standardVerdict
      = if a.failurePasses then .ofCategory .transient
        else match a.declared? with
          | some c => .ofCategory c
          | none =>
            match a.errorCode?.bind ServiceError.codeCategory? with
            | some c => .retry ⟨c, a.stated?⟩
            | none =>
              if a.status?.any StatusCodes.standard.contains then .ofCategory .server
              else .undecided := by
  have hstatus : StatusCodes.standard.contains = ([500, 502, 503, 504].contains ·) := rfl
  rw [standardVerdict, codeCategory?_eq, hstatus]
  split_ifs <;> rfl

/-- **A delay comes with a known error code**, from the response, and where no row above
applies. -/
theorem delay_of_standardVerdict {c : Category} {d : Delay}
    (h : a.standardVerdict = .retry ⟨c, some d⟩) :
    a.failurePasses = false ∧ a.declared? = none ∧
      (∃ e, a.error = some e ∧ ServiceError.codeCategory? e.code = some c) ∧
      ∃ r, a.response = some r ∧ r.fields.statedDelay = some d := by
  rw [standardVerdict_eq] at h
  split at h
  · cases h
  · next hpass =>
      split at h
      · cases h
      · next hdeclared =>
          split at h
          · next c' hcode =>
              obtain ⟨rfl, hd⟩ := Reason.mk.inj (Verdict.retry.inj h)
              obtain ⟨code, hcode, hc⟩ := Option.bind_eq_some_iff.mp hcode
              obtain ⟨e, he, rfl⟩ := Option.map_eq_some_iff.mp hcode
              exact ⟨Bool.eq_false_iff.mpr hpass, hdeclared, ⟨e, he, hc⟩,
                Option.bind_eq_some_iff.mp hd⟩
          · split at h <;> cases h

/-! ### What the slots answer -/

theorem judgeTransport_eq (a : Attempt) :
    a.judgeTransport = if a.failurePasses then some (.ofCategory .transient) else none := by
  rw [judgeTransport, failurePasses]
  cases a.transportFailed <;> simp

theorem judgeDeclared_eq (a : Attempt) : a.judgeDeclared = a.declared?.map .ofCategory := by
  rw [judgeDeclared, declared?]
  cases a.error with
  | none => rfl
  | some e => cases h : e.category <;> simp [h]

theorem judgeCode_eq (a : Attempt) :
    a.judgeCode = (a.errorCode?.bind ServiceError.codeCategory?).map (.retry ⟨·, a.stated?⟩) := by
  rw [judgeCode, errorCode?, stated?]
  cases a.error with
  | none => rfl
  | some e => cases h : ServiceError.codeCategory? e.code <;> simp [h]

theorem judgeStatus_eq (a : Attempt) (codes : StatusCodes) :
    a.judgeStatus codes
      = if a.status?.any codes.contains then some (.ofCategory .server) else none := by
  rw [judgeStatus, status?]
  cases a.response <;> simp

/-- **The answer of the highest slot that answers is what the table says.** -/
theorem answer_eq_standardVerdict (a : Attempt) :
    (a.judgeTransport <|> a.judgeDeclared <|> a.judgeCode <|> a.judgeStatus .standard).getD
        .undecided
      = a.standardVerdict := by
  rw [judgeTransport_eq, judgeDeclared_eq, judgeCode_eq, judgeStatus_eq, standardVerdict_eq]
  split
  · rfl
  · cases a.declared? with
    | some c => rfl
    | none =>
        cases a.errorCode?.bind ServiceError.codeCategory? with
        | some c => rfl
        | none => split <;> rfl

end Attempt

/-! ### The chain -/

namespace Classifier

variable {a : Attempt} {k : Classifier} {v w : Verdict} {ks : List Classifier}

/-- The shipped classifiers answer with a retry or not at all. -/
theorem answer_of_mem_shipped (hk : k ∈ shipped) (h : k.answer a w = some v) :
    ∃ r, v = .retry r := by
  simp only [shipped, List.mem_cons, List.not_mem_nil, or_false] at hk
  rcases hk with rfl | rfl | rfl | rfl
  · have h' : a.judgeTransport = some v := h
    rw [Attempt.judgeTransport_eq] at h'
    split at h'
    · exact ⟨_, (Option.some.inj h').symm⟩
    · cases h'
  · have h' : a.judgeDeclared = some v := h
    rw [Attempt.judgeDeclared_eq] at h'
    obtain ⟨c, -, rfl⟩ := Option.map_eq_some_iff.mp h'
    exact ⟨_, rfl⟩
  · have h' : a.judgeCode = some v := h
    rw [Attempt.judgeCode_eq] at h'
    obtain ⟨c, -, rfl⟩ := Option.map_eq_some_iff.mp h'
    exact ⟨_, rfl⟩
  · have h' : a.judgeStatus .standard = some v := h
    rw [Attempt.judgeStatus_eq] at h'
    split at h'
    · exact ⟨_, (Option.some.inj h').symm⟩
    · cases h'

/-- None of the shipped classifiers looks at the verdict before it. -/
theorem steady_of_mem_shipped (hk : k ∈ shipped) : k.Steady a := by
  simp only [shipped, List.mem_cons, List.not_mem_nil, or_false] at hk
  rcases hk with rfl | rfl | rfl | rfl <;> exact fun _ _ => rfl

/-- Each answer of a shipped classifier is an opinion. -/
theorem opinion?_of_mem_shipped (hk : k ∈ shipped) :
    k.opinion? a = k.answer a .undecided := by
  rw [opinion?]
  cases h : k.answer a .undecided with
  | none => rfl
  | some v =>
      obtain ⟨r, rfl⟩ := answer_of_mem_shipped hk h
      rfl

/-- The first opinion from the highest slot down. -/
theorem findSome?_shipped (a : Attempt) :
    shipped.findSome? (·.opinion? a)
      = (a.judgeTransport <|> a.judgeDeclared <|> a.judgeCode <|> a.judgeStatus .standard) := by
  have hopinion : ∀ k ∈ shipped, k.opinion? a = k.answer a .undecided :=
    fun k hk => opinion?_of_mem_shipped hk
  simp only [shipped, List.forall_mem_cons] at hopinion
  obtain ⟨ht, hd, hc, hs, -⟩ := hopinion
  have htransport : transient.opinion? a = a.judgeTransport := ht
  have hdeclared : modeled.opinion? a = a.judgeDeclared := hd
  have hcode : service.opinion? a = a.judgeCode := hc
  have hstatus : status.opinion? a = a.judgeStatus .standard := hs
  rw [shipped, List.findSome?_cons, htransport, List.findSome?_cons, hdeclared,
    List.findSome?_cons, hcode, List.findSome?_singleton, hstatus]
  cases a.judgeTransport with
  | some v => rfl
  | none =>
      cases a.judgeDeclared with
      | some v => rfl
      | none => cases a.judgeCode <;> rfl

/-- **The slots are apart**: in whatever order the shipped classifiers arrive, they are asked from
the lowest slot to the highest. -/
theorem eq_reverse_of_isStableSort {ls : List Classifier} (hp : ks.Perm shipped)
    (h : IsStableSort rank ks ls) : ls = shipped.reverse := by
  have hslots : shipped.reverse.Pairwise fun a b => a.rank < b.rank := by decide
  exact h.unique (.of_lt hslots ((List.reverse_perm shipped).trans hp.symm))

end Classifier

/-- **Asked from the lowest slot to the highest, the shipped classifiers decide by the table.** -/
theorem Chain.judge_reverse_shipped (l : Level) (a : Attempt) :
    ((Chain.mk Classifier.shipped.reverse).judge l a).verdict = a.standardVerdict := by
  have h := (judge_lawful l Classifier.shipped.reverse a).2
  have hmem : ∀ {k}, k ∈ Classifier.shipped.reverse → k ∈ Classifier.shipped := List.mem_reverse.mp
  have hf : ((Chain.mk Classifier.shipped.reverse).judge l a).verdict ≠ .forbid := by
    intro hf
    obtain ⟨c, hc, hcf⟩ := h.forbid_iff.mp hf
    have hk : c.classifier ∈ Classifier.shipped :=
      hmem (h.asked_prefix.subset (List.mem_map_of_mem hc))
    obtain ⟨r, hr⟩ := Classifier.answer_of_mem_shipped hk ((h.answered c hc).symm.trans hcf)
    cases hr
  rw [h.verdict_of_steady (fun k hk => Classifier.steady_of_mem_shipped (hmem hk)) hf,
    List.filterMap_reverse, List.getLast?_reverse, List.head?_filterMap,
    Classifier.findSome?_shipped, a.answer_eq_standardVerdict]

/-! ### The layer -/

namespace Workspace

/-- The verdict on `a` of the chain that one layer alone freezes to. -/
def verdictAlone (w : Workspace) (base chain : String) (a : Attempt) : Verdict :=
  ((w.assemble base none chain).2.judge chain a).1.verdict

/-- A layer that holds the shipped classifiers and no others decides by the table. -/
theorem verdictAlone_of_perm {w : Workspace} {base : String} {es : List Layer.Edit}
    (hw : w.layer base = Layer.afterAll {} es) (hp : (registrations es).Perm Classifier.shipped)
    (chain : String) (a : Attempt) : w.verdictAlone base chain a = a.standardVerdict := by
  have hsorted := (Layer.reflects_afterAll es).sorted
  rw [verdictAlone, judge, chain_assemble_alone, hw,
    Classifier.eq_reverse_of_isStableSort hp hsorted]
  exact Chain.judge_reverse_shipped _ a

/-- **The shipped classifiers decide by the table**, for every attempt, whatever its parts.  It does
not matter in which order they came into the layer, which edits were refused meanwhile, and what
else the workspace holds; the layer that starts with them is a case of it.  The table forbids no
retry, and it states a delay only for a known error code, and that of the response. -/
theorem verdictAlone_shipped (w : Workspace) (base chain : String) (a : Attempt) :
    (∀ es, w.layer base = Layer.afterAll {} es → (registrations es).Perm Classifier.shipped →
      w.verdictAlone base chain a = a.standardVerdict) ∧
    (w.perform (.standard base)).after.verdictAlone base chain a = a.standardVerdict ∧
    a.standardVerdict ≠ .forbid ∧
    ∀ c d, a.standardVerdict = .retry ⟨c, some d⟩ →
      a.failurePasses = false ∧ a.declared? = none ∧
        (∃ e, a.error = some e ∧ ServiceError.codeCategory? e.code = some c) ∧
        ∃ r, a.response = some r ∧ r.fields.statedDelay = some d := by
  refine ⟨fun es hw hp => verdictAlone_of_perm hw hp chain a, ?_,
    a.standardVerdict_ne_forbid, fun c d h => Attempt.delay_of_standardVerdict h⟩
  have hw : (w.perform (.standard base)).after.layer base
      = Layer.afterAll {} (Layer.additions Classifier.shipped) := by
    rw [← Layer.standard_eq_afterAll]
    simp [perform, setLayer]
  refine verdictAlone_of_perm hw ?_ chain a
  rw [Layer.registrations_additions]

/-- The shipped classifiers in another order, brought by a replacement and by additions, and an
attempt of which all parts are set: the transport failed for good, so the error code counts. -/
theorem verdictAlone_shipped_reordered :
    let es : List Layer.Edit :=
      [.add (some .service), .replace [some .status, some .transient], .add none,
        .add (some .modeled), .add (some .service), .freeze, .add (some .status)]
    let w : Workspace := ({} : Workspace).setLayer "client" (Layer.afterAll {} es)
    let r : Response := { status := 503, fields := .ofLines [utf8 "Retry-After: 3"] }
    let a : Attempt :=
      { response := some r, error := some { code := utf8 "SlowDown" }, hasOutput := true,
        unparseable := true, transport := ⟨60⟩ }
    (w.layer "client" = Layer.afterAll {} es ∧ (registrations es).Perm Classifier.shipped) ∧
      w.verdictAlone "client" "chain" a = .retry ⟨.throttling, some ⟨3000⟩⟩ ∧
      ServiceError.codeCategory? (utf8 "SlowDown") = some .throttling := by
  intro es w r a
  have hw : w.layer "client" = Layer.afterAll {} es := rfl
  have hp : (registrations es).Perm Classifier.shipped :=
    (List.perm_append_comm : ([Classifier.status] ++ [Classifier.transient, Classifier.modeled,
      Classifier.service]).Perm _)
  have hv : a.standardVerdict = .retry ⟨.throttling, some ⟨3000⟩⟩ := by decide +kernel
  have h := verdictAlone_shipped w "client" "chain" a
  refine ⟨⟨hw, hp⟩, (h.1 es hw hp).trans hv, ?_⟩
  obtain ⟨-, -, ⟨e, he, hc⟩, -⟩ := h.2.2.2 _ _ hv
  obtain rfl := Option.some.inj he
  exact hc

end Workspace

end RetryVerdict

import RetryVerdict.Proofs.Decimal.Writing
import RetryVerdict.Proofs.Walk.Law
import Mathlib.Data.List.Infix

/-!
# Verdict — a verdict is known by its text

A family of words is *prefix-free* if none of them is the beginning of another one.  Then a word can
be split off the front of a text, whatever follows it (`Bytes.PrefixFree.append_inj`).

The text of a verdict begins with its kind, that of a reason with its category, and both families
are prefix-free (`Verdict.Kind.prefixFree_text`, `Category.prefixFree_text`).  What follows is the
reason, if there is one, and the delay, if there is one, as a number.  Each is written as nothing if
it is missing (`Bytes.optional`).

* `Reason.text_injective`, `Verdict.text_injective`: so it can be read off the text what the reason
  is, or the verdict, and equal texts are those of equal verdicts.
* `Verdict.exists_parts_iff`, `Verdict.eq_built`: a verdict is a kind and a reason that fit together,
  and there are four ways to make one.
* `Walks.verdict_answered`: a chain decides nothing but what one of its classifiers answered.

`verdict_known_by_text` collects this.
-/

namespace RetryVerdict

/-! ### Words that can be told apart -/

namespace Bytes

variable {α : Type} {f : α → Bytes} {a b : α} {s t : Bytes}

/-- No word is the beginning of another one. -/
def PrefixFree (f : α → Bytes) : Prop := ∀ a b, f a <+: f b → a = b

/-- **A text shows the word that it begins with, and what follows it.** -/
theorem PrefixFree.append_inj (h : PrefixFree f) (e : f a ++ s = f b ++ t) : a = b ∧ s = t := by
  have hb : f b <+: f a ++ s := e ▸ List.prefix_append (f b) t
  have hab : a = b := by
    rcases List.prefix_or_prefix_of_prefix (List.prefix_append (f a) s) hb with hp | hp
    · exact h a b hp
    · exact (h b a hp).symm
  subst hab
  exact ⟨rfl, List.append_cancel_left e⟩

/-- The word of what is there, or nothing. -/
def optional (f : α → Bytes) : Option α → Bytes
  | some a => f a
  | none => []

theorem optional_injective (hf : Function.Injective f) (hne : ∀ a, f a ≠ []) :
    Function.Injective (optional f)
  | some _, some _, e => congrArg some (hf e)
  | some a, none, e => absurd e (hne a)
  | none, some b, e => absurd e.symm (hne b)
  | none, none, _ => rfl

end Bytes

open Bytes (utf8 PrefixFree)

/-! ### Reasons -/

theorem Category.prefixFree_text : PrefixFree Category.text := by
  intro c c'
  cases c <;> cases c' <;> decide

theorem Delay.text_injective : Function.Injective Delay.text := by
  rintro ⟨m⟩ ⟨n⟩ h
  have hint : m.toInt = n.toInt := Decimal.ofInt_injective (List.append_cancel_right h)
  rw [Int64.toInt_inj.mp hint]

/-- What follows the category in the text of a reason. -/
def Reason.delayText : Option Delay → Bytes :=
  Bytes.optional fun d => utf8 ", retryAfter=" ++ d.text

theorem Reason.delayText_injective : Function.Injective Reason.delayText :=
  Bytes.optional_injective (fun _ _ h => Delay.text_injective (List.append_cancel_left h))
    fun _ h => List.cons_ne_nil _ _ h

theorem Reason.text_eq (r : Reason) :
    r.text = utf8 "RetryableError(" ++ (r.category.text ++ delayText r.delay) ++ utf8 ")" := by
  obtain ⟨c, delay⟩ := r
  rw [text, List.append_assoc (utf8 _) c.text]
  cases delay <;> rfl

/-- **A reason is known by its text.** -/
theorem Reason.text_injective : Function.Injective Reason.text := by
  intro r s h
  rw [text_eq, text_eq] at h
  obtain ⟨hcategory, hdelay⟩ := Category.prefixFree_text.append_inj
    (List.append_cancel_left (List.append_cancel_right h))
  cases r; cases s
  rw [Reason.mk.injEq]
  exact ⟨hcategory, delayText_injective hdelay⟩

/-! ### Verdicts -/

theorem Verdict.Kind.prefixFree_text : PrefixFree Verdict.Kind.text := by
  intro k k'
  cases k <;> cases k' <;> decide

namespace Verdict

variable {v w : Verdict}

/-- Kind and reason make up the verdict. -/
theorem eq_iff : v = w ↔ v.kind = w.kind ∧ v.reason? = w.reason? := by
  cases v <;> cases w <;> simp [kind, reason?]

/-- The verdicts are those kinds with or without a reason that fit together: a retry has its reason,
and no other verdict has one. -/
theorem exists_parts_iff {k : Kind} {o : Option Reason} :
    (∃ v : Verdict, v.kind = k ∧ v.reason? = o) ↔ (o.isSome = true ↔ k = .retry) := by
  constructor
  · rintro ⟨v, rfl, rfl⟩
    cases v <;> simp [kind, reason?]
  · intro h
    cases o with
    | some r => exact ⟨.retry r, (h.mp rfl).symm, rfl⟩
    | none =>
        cases k with
        | undecided => exact ⟨.undecided, rfl, rfl⟩
        | retry => cases h.mpr rfl
        | forbid => exact ⟨.forbid, rfl, rfl⟩

/-- There are no verdicts but these. -/
theorem eq_built (v : Verdict) : v = .undecided ∨ v = .forbid ∨ (∃ c, v = ofCategory c) ∨
    ∃ c d, v = afterDelay c d := by
  cases v with
  | undecided => exact .inl rfl
  | forbid => exact .inr (.inl rfl)
  | retry r =>
      obtain ⟨c, delay⟩ := r
      cases delay with
      | none => exact .inr (.inr (.inl ⟨c, rfl⟩))
      | some d => exact .inr (.inr (.inr ⟨c, d, rfl⟩))

/-- What follows the kind in the text of a verdict. -/
def reasonText : Option Reason → Bytes :=
  Bytes.optional fun r => utf8 "(" ++ r.text ++ utf8 ")"

theorem reasonText_injective : Function.Injective reasonText :=
  Bytes.optional_injective
    (fun _ _ h => Reason.text_injective (List.append_cancel_left (List.append_cancel_right h)))
    fun _ h => List.cons_ne_nil _ _ h

theorem text_eq (v : Verdict) : v.text = v.kind.text ++ reasonText v.reason? := by
  cases v with
  | undecided | forbid => exact (List.append_nil _).symm
  | retry r =>
      rw [text, List.append_assoc, List.append_assoc, ← List.append_assoc (utf8 "(")]
      rfl

/-- **A verdict is known by its text.** -/
theorem text_injective : Function.Injective Verdict.text := by
  intro v w h
  rw [text_eq, text_eq] at h
  obtain ⟨hkind, hreason⟩ := Kind.prefixFree_text.append_inj h
  exact eq_iff.mpr ⟨hkind, reasonText_injective hreason⟩

theorem beq_iff_text_eq : (v == w) = true ↔ v.text = w.text := by
  rw [beq_iff_eq, text_injective.eq_iff]

/-- Which delay is stated can be told from the text, and whether one is. -/
theorem text_afterDelay_inj {c c' : Category} {d d' : Delay} :
    (afterDelay c d).text = (afterDelay c' d').text
      ↔ c = c' ∧ d.millis.toInt = d'.millis.toInt := by
  obtain ⟨m⟩ := d
  obtain ⟨n⟩ := d'
  rw [text_injective.eq_iff, Int64.toInt_inj]
  simp [afterDelay]

theorem text_ofCategory_ne (c c' : Category) (d : Delay) :
    (ofCategory c).text ≠ (afterDelay c' d).text := by
  rw [text_injective.ne_iff]
  simp [ofCategory, afterDelay]

end Verdict

/-! ### What a chain decides -/

/-- A walk ends where it started, or with the answer of one of the classifiers. -/
theorem Walks.verdict_answered {a : Attempt} {v w : Verdict} {ks : List Classifier}
    {cs : List Call} (h : Walks a v ks cs w) :
    w = v ∨ ∃ k ∈ ks, ∃ u, k.answer a u = some w := by
  have hw := h.verdict_eq
  rcases lastOpinion_cases v cs with ⟨-, e⟩ | ⟨c, hc, ho⟩
  · exact .inl (hw.trans e)
  · rw [← hw] at ho
    have hk : c.classifier ∈ ks := h.asked_prefix.subset (List.mem_map_of_mem hc)
    refine .inr ⟨c.classifier, hk, c.preceding, ?_⟩
    rw [← h.answer_eq hc]
    exact (opinionOf_eq_some_iff.mp ho).1

/-- **A verdict is known by its text.**  A verdict is one of four: nothing, a veto, a retry for a
category, or one after a delay; exactly the retries have a reason.  What a chain decides is none
but these: `undecided`, or what one of its classifiers answered.  Two verdicts are equal if their
kinds and reasons are, and also exactly if their texts are equal; and the text shows whether a delay
is stated, and which of all delays, be it zero or negative. -/
theorem verdict_known_by_text :
    (∀ v : Verdict, (v.reason?.isSome = true ↔ v.kind = .retry) ∧
      (v = .undecided ∨ v = .forbid ∨ (∃ c, v = .ofCategory c) ∨ ∃ c d, v = .afterDelay c d)) ∧
    (∀ (k : Verdict.Kind) (o : Option Reason),
      (∃ v : Verdict, v.kind = k ∧ v.reason? = o) ↔ (o.isSome = true ↔ k = .retry)) ∧
    (∀ (c : Chain) (l : Level) (a : Attempt), (c.judge l a).verdict = .undecided ∨
      ∃ k ∈ c.classifiers, ∃ u, k.answer a u = some (c.judge l a).verdict) ∧
    (∀ v w : Verdict, ((v == w) = true ↔ v.kind = w.kind ∧ v.reason? = w.reason?) ∧
      ((v == w) = true ↔ v.text = w.text)) ∧
    ∀ (c c' : Category) (d d' : Delay),
      (Verdict.ofCategory c).text ≠ (Verdict.afterDelay c' d).text ∧
      ((Verdict.afterDelay c d).text = (Verdict.afterDelay c' d').text
        ↔ c = c' ∧ d.millis.toInt = d'.millis.toInt) := by
  refine ⟨fun v => ⟨Verdict.exists_parts_iff.mp ⟨v, rfl, rfl⟩, v.eq_built⟩,
    fun k o => Verdict.exists_parts_iff, fun c l a => ?_, fun v w => ⟨?_, ?_⟩,
    fun c c' d d' => ⟨Verdict.text_ofCategory_ne c c' d, Verdict.text_afterDelay_inj⟩⟩
  · exact (walk_walks l a .undecided c.classifiers).verdict_answered
  · rw [beq_iff_eq, Verdict.eq_iff]
  · exact Verdict.beq_iff_text_eq

/-- A negative delay. -/
example : (Verdict.afterDelay .throttling ⟨-250⟩).text
    = utf8 "RetryIndicated(RetryableError(Throttling, retryAfter=-250ms))" := by
  cbv

end RetryVerdict

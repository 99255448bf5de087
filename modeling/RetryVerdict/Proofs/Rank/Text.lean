import RetryVerdict.Proofs.Rank.Dyadic

/-!
# Rank — a rank is known by its text

The text of a rank is words with dots between them: `default`, and then one word for each step
(`text_eq_intercalate`).  No word holds a dot, so the words can be told apart again
(`splitOn_text`), although none of them says where it ends.

`ofText?` reads a rank off a text.  It starts from the standard rank and goes one step for each
word, and it accepts the texts of ranks and no others (`ofText?_eq_some_iff`).  So different ranks
have different texts (`text_injective`).

`known_by_text` collects this.
-/

namespace RetryVerdict

open Bytes (utf8)

/-! ### Words -/

/-- The word for a step. -/
def Step.word : Step → Bytes
  | before => utf8 "before"
  | after => utf8 "after"

namespace Rank

/-- The dot in front of a step. -/
def dot : UInt8 := 0x2e

/-- The words of which the text of a rank is made. -/
def words (r : Rank) : List Bytes := utf8 "default" :: r.steps.map Step.word

theorem text_step (s : Step) : s.text = dot :: s.word := by
  cases s <;> rfl

theorem dot_notMem_of_mem_words {r : Rank} {w : Bytes} (h : w ∈ r.words) : dot ∉ w := by
  rcases List.mem_cons.mp h with rfl | h
  · decide
  · obtain ⟨s, -, rfl⟩ := List.mem_map.mp h
    cases s <;> decide

/-- Words behind a first one, each with its dot. -/
theorem intercalate_dot (w : Bytes) (path : List Step) :
    [dot].intercalate (w :: path.map Step.word) = w ++ path.flatMap Step.text := by
  induction path generalizing w with
  | nil => simp
  | cons s path ih =>
      rw [List.map_cons, List.intercalate_cons_cons, ih, List.flatMap_cons, text_step]
      simp

/-- **The text is the words with dots between them.** -/
theorem text_eq_intercalate (r : Rank) : r.text = [dot].intercalate r.words := by
  rw [words, intercalate_dot, text]

/-- The words can be told apart. -/
theorem splitOn_text (r : Rank) : r.text.splitOn dot = r.words := by
  rw [text_eq_intercalate]
  exact List.splitOn_intercalate dot (fun _ => dot_notMem_of_mem_words) (List.cons_ne_nil _ _)

theorem splitOn_eq_words_iff {s : Bytes} {r : Rank} : s.splitOn dot = r.words ↔ s = r.text := by
  constructor
  · intro h
    rw [text_eq_intercalate, ← h, List.intercalate_splitOn]
  · rintro rfl
    exact r.splitOn_text

/-! ### Reading -/

/-- One step from a rank, as a word says. -/
def stepTo? (r : Rank) (word : Bytes) : Option Rank :=
  if word = utf8 "before" then some r.before
  else if word = utf8 "after" then some r.after
  else none

/-- The rank that words lead to: from the standard one, one step for each word behind the first. -/
def ofWords? : List Bytes → Option Rank
  | word :: steps => if word = utf8 "default" then steps.foldlM stepTo? standard else none
  | [] => none

/-- Reads a rank off its text. -/
def ofText? (s : Bytes) : Option Rank := ofWords? (s.splitOn dot)

theorem stepTo?_eq_some_iff {p q : Rank} {w : Bytes} :
    stepTo? p w = some q ↔ ∃ s : Step, w = s.word ∧ q = p.move s := by
  constructor
  · intro h
    rw [stepTo?] at h
    split at h
    · next hw => exact ⟨.before, hw, (Option.some.inj h).symm⟩
    · split at h
      · next hw => exact ⟨.after, hw, (Option.some.inj h).symm⟩
      · cases h
  · rintro ⟨s, rfl, rfl⟩
    cases s <;> rfl

/-- Words are read exactly if they are those of a path. -/
theorem foldlM_stepTo?_eq_some_iff {p q : Rank} {ws : List Bytes} :
    ws.foldlM stepTo? p = some q ↔ ∃ path, ws = path.map Step.word ∧ q = p.follow path := by
  induction ws generalizing p with
  | nil =>
      constructor
      · intro h
        exact ⟨[], rfl, (Option.some.inj h).symm⟩
      · rintro ⟨path, hws, rfl⟩
        rw [List.map_eq_nil_iff.mp hws.symm]
        rfl
  | cons w ws ih =>
      rw [List.foldlM_cons, Option.bind_eq_bind, Option.bind_eq_some_iff]
      constructor
      · rintro ⟨r, hr, hq⟩
        obtain ⟨s, rfl, rfl⟩ := stepTo?_eq_some_iff.mp hr
        obtain ⟨path, rfl, rfl⟩ := ih.mp hq
        exact ⟨s :: path, rfl, rfl⟩
      · rintro ⟨path, hws, rfl⟩
        cases path with
        | nil => cases hws
        | cons s path =>
            obtain ⟨rfl, rfl⟩ := List.cons.inj hws
            exact ⟨p.move s, stepTo?_eq_some_iff.mpr ⟨s, rfl, rfl⟩, ih.mpr ⟨path, rfl, rfl⟩⟩

theorem ofWords?_eq_some_iff {ws : List Bytes} {p : Rank} :
    ofWords? ws = some p ↔ ws = p.words := by
  cases ws with
  | nil => simp [ofWords?, words]
  | cons w ws =>
      rw [ofWords?, Option.ite_none_right_eq_some, foldlM_stepTo?_eq_some_iff, words,
        List.cons.injEq]
      refine and_congr_right fun _ => ?_
      constructor
      · rintro ⟨path, rfl, rfl⟩
        rw [steps_follow]
        rfl
      · rintro rfl
        exact ⟨p.steps, rfl, (standard_follow_steps p).symm⟩

/-- **Reading accepts the texts of ranks, and gives the rank.** -/
theorem ofText?_eq_some_iff {s : Bytes} {p : Rank} : ofText? s = some p ↔ s = p.text := by
  rw [ofText?, ofWords?_eq_some_iff, splitOn_eq_words_iff]

theorem ofText?_text (p : Rank) : ofText? p.text = some p := ofText?_eq_some_iff.mpr rfl

/-- **Different ranks have different texts.** -/
theorem text_injective : Function.Injective text := by
  intro p q h
  have hp := ofText?_text p
  rw [h, ofText?_text q] at hp
  exact (Option.some.inj hp).symm

/-! ### Writing -/

theorem text_move (r : Rank) (s : Step) : (r.move s).text = r.text ++ s.text := by
  rw [text, move, List.flatMap_append, List.flatMap_singleton, ← List.append_assoc]
  rfl

theorem text_standard_follow (path : List Step) :
    (standard.follow path).text = utf8 "default" ++ path.flatMap Step.text := by
  rw [text, steps_follow]
  rfl

/-- **A rank is known by its text.**  Two ranks have the same text exactly if they compare equal.  The
text is `default` and then one `.before` or `.after` for each step, however many they are; and what
is read back by going those steps again, from the standard rank, is the rank.  No other text is read
as a rank. -/
theorem known_by_text :
    (∀ p q : Rank, (p.text = q.text ↔ (p == q) = true) ∧ (p.text = q.text ↔ compare p q = .eq)) ∧
    (∀ path : List Step, (standard.follow path).text = utf8 "default" ++ path.flatMap fun
      | .before => utf8 ".before"
      | .after => utf8 ".after") ∧
    (∀ p : Rank, p.before.text = p.text ++ utf8 ".before" ∧ p.after.text = p.text ++ utf8 ".after") ∧
    (∀ p : Rank, ofText? p.text = some p) ∧
    ∀ (s : Bytes) (p : Rank), ofText? s = some p ↔ s = p.text := by
  refine ⟨fun p q => ⟨?_, ?_⟩, fun path => ?_, fun p => ⟨text_move p .before, text_move p .after⟩,
    ofText?_text, fun s p => ofText?_eq_some_iff⟩
  · rw [text_injective.eq_iff, beq_iff_eq]
  · rw [text_injective.eq_iff, compare_eq_iff]
  · rw [text_standard_follow]
    refine congrArg _ (List.flatMap_congr fun s _ => ?_)
    cases s <;> rfl

example : ofText? (utf8 "default.before.after") = some standard.before.after ∧
    ofText? (utf8 "default.beforeafter") = none := by decide

end Rank

end RetryVerdict

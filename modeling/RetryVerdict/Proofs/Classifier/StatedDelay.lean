import RetryVerdict.Classifier.Shipped
import RetryVerdict.Proofs.Decimal.Reading
import RetryVerdict.Proofs.Field.Index

/-!
# Classifier — the delay that a response states, exactly

`Fields.writtenDelay?` is the delay that the fields write down, as a number without bound: the first
value of the field for milliseconds, if it denotes a number and a delay holds as many; otherwise
that of the field for seconds, a thousand times, on the same conditions.

* `Delay.map_ofMillis?`, `Delay.map_ofSeconds?`: the machine words hold what they should; neither the
  product with a thousand nor the change to a signed number wraps.
* `Fields.first?_push`: a further value of a name that has one leaves the first value of every name.

`Fields.statedDelay_exact` collects this: the stated delay is the written one.
-/

namespace RetryVerdict

open Bytes (utf8)
open Decimal (numeral? readWord? extend? map_toNat_readWord?)

/-! ### From machine words to delays -/

namespace Delay

/-- A signed number is what the unsigned one was, if its highest bit is free. -/
theorem toInt_toInt64 {n : UInt64} (h : n.toNat ≤ 2 ^ 63 - 1) : n.toInt64.toInt = n.toNat :=
  BitVec.toInt_eq_toNat_of_lt (by change 2 * n.toNat < 2 ^ 64; omega)

theorem map_ofMillis? (n : UInt64) :
    (ofMillis? n).map (·.millis.toInt)
      = if n.toNat ≤ 2 ^ 63 - 1 then some (n.toNat : ℤ) else none := by
  have hmax : n ≤ maxMillis ↔ n.toNat ≤ 2 ^ 63 - 1 := UInt64.le_iff_toNat_le
  rw [ofMillis?]
  simp only [hmax]
  split
  · next h => rw [Option.map_some, toInt_toInt64 h]
  · rfl

theorem map_ofSeconds? (n : UInt64) :
    (ofSeconds? n).map (·.millis.toInt)
      = if 1000 * n.toNat ≤ 2 ^ 63 - 1 then some ((1000 * n.toNat : ℕ) : ℤ) else none := by
  have hmax : n ≤ maxMillis / 1000 ↔ 1000 * n.toNat ≤ 2 ^ 63 - 1 := by
    rw [UInt64.le_iff_toNat_le, UInt64.toNat_div]
    simp only [maxMillis, UInt64.reduceToNat]
    omega
  rw [ofSeconds?]
  simp only [hmax]
  split
  · next h =>
      have hprod : (n * 1000).toNat = 1000 * n.toNat := by
        rw [UInt64.toNat_mul]
        simp only [UInt64.reduceToNat]
        omega
      rw [Option.map_some, toInt_toInt64 (by rw [hprod]; exact h), hprod]
  · rfl

/-- What is made of a number in a text, in units of `c` milliseconds. -/
theorem map_bind_readWord? {c : ℕ} (hc : 0 < c) {unit : UInt64 → Option Delay}
    (hunit : ∀ n, (unit n).map (·.millis.toInt)
      = if c * n.toNat ≤ 2 ^ 63 - 1 then some ((c * n.toNat : ℕ) : ℤ) else none) (s : Bytes) :
    ((readWord? s).bind unit).map (·.millis.toInt)
      = (((numeral? s).map (c * ·)).filter (· ≤ 2 ^ 63 - 1)).map (↑) := by
  have hword : ((readWord? s).bind unit).map (·.millis.toInt)
      = ((readWord? s).map UInt64.toNat).bind fun k =>
          if c * k ≤ 2 ^ 63 - 1 then some ((c * k : ℕ) : ℤ) else none := by
    rw [Option.map_bind, Option.bind_map]
    exact congrArg _ (funext hunit)
  rw [hword, map_toNat_readWord?]
  cases numeral? s with
  | none => rfl
  | some k =>
      simp only [Option.map_some, Option.filter_some, decide_eq_true_eq]
      by_cases hk : k < 2 ^ 64
      · rw [if_pos hk, Option.bind_some]
        split <;> rfl
      · -- what is no machine word is too much for a delay
        have hck : ¬ c * k ≤ 2 ^ 63 - 1 := by
          have hle := Nat.le_mul_of_pos_left k hc
          omega
        rw [if_neg hk, if_neg hck]
        rfl

end Delay

/-! ### From fields to delays -/

namespace Fields

/-- The delay that the fields write down, in milliseconds. -/
def writtenDelay? (f : Fields) : Option ℕ :=
  let millis := (f.values (utf8 "x-amz-retry-after")).head?.bind numeral?
  let seconds := (f.values (utf8 "retry-after")).head?.bind numeral?
  millis.filter (· ≤ 2 ^ 63 - 1) <|> (seconds.map (1000 * ·)).filter (· ≤ 2 ^ 63 - 1)

variable (f : Fields)

/-- What is made of the first value of a field, in units of `c` milliseconds. -/
theorem map_bind_first? {c : ℕ} (hc : 0 < c) {unit : UInt64 → Option Delay}
    (hunit : ∀ n, (unit n).map (·.millis.toInt)
      = if c * n.toNat ≤ 2 ^ 63 - 1 then some ((c * n.toNat : ℕ) : ℤ) else none) (name : Bytes) :
    ((f.first? name).bind fun v => (readWord? v).bind unit).map (·.millis.toInt)
      = ((((f.values name).head?.bind numeral?).map (c * ·)).filter (· ≤ 2 ^ 63 - 1)).map (↑) := by
  rw [f.first?_eq_head? name]
  cases (f.values name).head? with
  | none => rfl
  | some v => exact Delay.map_bind_readWord? hc hunit v

theorem map_statedMillis :
    f.statedMillis.map (·.millis.toInt)
      = (((f.values (utf8 "x-amz-retry-after")).head?.bind numeral?).filter
          (· ≤ 2 ^ 63 - 1)).map (↑) := by
  have h := f.map_bind_first? one_pos (by simpa using Delay.map_ofMillis?) millisName
  simp only [one_mul, Option.map_id'] at h
  exact h

theorem map_statedSeconds :
    f.statedSeconds.map (·.millis.toInt)
      = ((((f.values (utf8 "retry-after")).head?.bind numeral?).map (1000 * ·)).filter
          (· ≤ 2 ^ 63 - 1)).map (↑) :=
  f.map_bind_first? (by decide) Delay.map_ofSeconds? secondsName

theorem map_statedDelay :
    f.statedDelay.map (·.millis.toInt) = f.writtenDelay?.map (↑) := by
  have hmillis := f.map_statedMillis
  have hseconds := f.map_statedSeconds
  rw [statedDelay, writtenDelay?]
  cases h : ((f.values (utf8 "x-amz-retry-after")).head?.bind numeral?).filter (· ≤ 2 ^ 63 - 1) with
  | none =>
      rw [h, Option.map_none, Option.map_eq_none_iff] at hmillis
      rw [hmillis]
      exact hseconds
  | some k =>
      rw [h, Option.map_some, Option.map_eq_some_iff] at hmillis
      obtain ⟨d, hd, hk⟩ := hmillis
      rw [hd]
      exact congrArg some hk

/-- A further value of a name that has one comes first for no name. -/
theorem first?_push {name : Bytes} (h : f.contains name = true) (value m : Bytes) :
    (f.push name value).first? m = f.first? m := by
  rw [(shows_index _).first?_eq, (shows_index f).first?_eq, index_push]
  by_cases hm : Bytes.lower m = Bytes.lower name
  · have hne : f.index (Bytes.lower name) ≠ [] := (f.shows_index.contains_iff name).mp h
    rw [hm, Function.update_self, List.head?_append_of_ne_nil _ hne]
  · rw [Function.update_of_ne hm]

/-- **The stated delay is the written one, exactly.**  For all fields: the delay is the number of
milliseconds that the first value of `x-amz-retry-after` denotes, if it denotes one and that is at
most `2 ^ 63 - 1`; otherwise a thousand times the number that the first value of `retry-after`
denotes, on the same conditions; and otherwise there is none.  So it is never negative, and a later
value of a name counts for nothing.  At each step of the way the machine words hold the number that
they stand for: a digit is read if the number with it is a machine word, milliseconds are taken if a
signed word holds them, and seconds if it holds a thousand times as many; if not, the step is
refused. -/
theorem statedDelay_exact (f : Fields) :
    f.statedDelay.map (·.millis.toInt) = f.writtenDelay?.map (↑) ∧
    (∀ d, f.statedDelay = some d → 0 ≤ d.millis.toInt) ∧
    (∀ name value, f.contains name = true → (f.push name value).statedDelay = f.statedDelay) ∧
    (∀ n m b, extend? n b = some m ↔
      (0x30 ≤ b ∧ b ≤ 0x39) ∧ m.toNat = n.toNat * 10 + (b.toNat - 0x30)) ∧
    (∀ n, (Delay.ofMillis? n).map (·.millis.toInt)
      = if n.toNat ≤ 2 ^ 63 - 1 then some (n.toNat : ℤ) else none) ∧
    ∀ n, (Delay.ofSeconds? n).map (·.millis.toInt)
      = if 1000 * n.toNat ≤ 2 ^ 63 - 1 then some ((1000 * n.toNat : ℕ) : ℤ) else none := by
  refine ⟨f.map_statedDelay, fun d hd => ?_, fun name value h => ?_,
    fun n m b => Decimal.extend?_eq_some_iff, Delay.map_ofMillis?, Delay.map_ofSeconds?⟩
  · have hexact := f.map_statedDelay
    rw [hd, Option.map_some, eq_comm, Option.map_eq_some_iff] at hexact
    obtain ⟨k, -, hk⟩ := hexact
    rw [← hk]
    exact Int.natCast_nonneg k
  · rw [statedDelay, statedDelay, statedMillis, statedMillis, statedSeconds, statedSeconds,
      f.first?_push h, f.first?_push h]

/-- One millisecond too many, then the most whole seconds, with leading zeros and blanks, and a
second value of their name; and one value more. -/
theorem statedDelay_exact_most :
    let f : Fields := .ofLines
      [utf8 "X-Amz-Retry-After: 9223372036854775808",
        utf8 "Retry-After: \t0009223372036854775 \r\n", utf8 "retry-after: 1"]
    f.writtenDelay? = some 9223372036854775000 ∧
      f.statedDelay.map (·.millis.toInt) = some 9223372036854775000 ∧
      (f.statedDelay = some ⟨9223372036854775000⟩ ∧
        0 ≤ (Delay.mk 9223372036854775000).millis.toInt) ∧
      f.contains (utf8 "RETRY-AFTER") = true ∧
      (f.push (utf8 "RETRY-AFTER") (utf8 "5")).statedDelay = f.statedDelay := by
  intro f
  have hwritten : f.writtenDelay? = some 9223372036854775000 := by decide +kernel
  have hstated : f.statedDelay = some ⟨9223372036854775000⟩ := by decide +kernel
  have hcontains : f.contains (utf8 "RETRY-AFTER") = true := by decide
  obtain ⟨hexact, hnonneg, hlater, -⟩ := statedDelay_exact f
  rw [hwritten] at hexact
  exact ⟨hwritten, hexact, ⟨hstated, hnonneg _ hstated⟩, hcontains,
    hlater (utf8 "RETRY-AFTER") (utf8 "5") hcontains⟩

end Fields

end RetryVerdict

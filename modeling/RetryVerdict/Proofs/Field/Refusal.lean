import RetryVerdict.Proofs.Field.Grammar

/-!
# Field — updates that are refused

An update comes in two styles: the strict one tells why it is refused, and the lenient one answers
whether it took effect.

* `check_eq_error_iff`: the check in front of both looks at every byte, and blames the name first
  (`Refuses`).
* `twoStyles_of_guarded`: so the styles agree on what is refused and on what is left, and a refusal
  leaves all as it was.
* `Steps` are updates made one step after the other, where the steps before a fault stay done.  An
  insertion drops the old values before it adds the new one, and yet no fault comes between the two
  (`Steps.exec_insert`).  A lenient update looks at its arguments itself before it makes the strict
  one, and what it lets through is not refused there (`Steps.exec_lenient`).

All this is one statement about updates that are checked first (`allOrNothing_of_guarded`), and
`updates_all_or_nothing` is that statement for insertions and for appends.
-/

namespace RetryVerdict.Fields

/-! ### What is refused -/

/-- Why an update with this name and this value is refused. -/
inductive Refuses (name value : Bytes) : Fault → Prop where
  | name (h : name = [] ∨ ¬ Field.Token name) : Refuses name value (.badName name)
  | value (hne : name ≠ []) (ht : Field.Token name) (h : ¬ Field.Plain value) :
      Refuses name value (.badValue name)

section Check

variable {name value : Bytes} {fault : Fault}

theorem isName_eq_false_iff : Field.isName name = false ↔ name = [] ∨ ¬ Field.Token name := by
  rw [← Bool.not_eq_true, Field.isName_iff]
  exact not_and_or.trans (or_congr_left not_not)

theorem isValue_eq_false_iff : Field.isValue value = false ↔ ¬ Field.Plain value := by
  rw [← Bool.not_eq_true, Field.isValue_iff]
  exact Iff.rfl

/-- **The check refuses a name that is no token, and then a value with a control byte.** -/
theorem check_eq_error_iff : check name value = .error fault ↔ Refuses name value fault := by
  rw [check]
  constructor
  · intro h
    split at h
    · next hn =>
        cases h
        exact .name (isName_eq_false_iff.mp (by simpa using hn))
    · next hn =>
        obtain ⟨hne, ht⟩ := Field.isName_iff.mp (by simpa using hn)
        split at h
        · next hv =>
            cases h
            exact .value hne ht (isValue_eq_false_iff.mp (by simpa using hv))
        · cases h
  · rintro (h | ⟨hne, ht, h⟩)
    · rw [isName_eq_false_iff.mpr h]
      rfl
    · rw [Field.isName_iff.mpr ⟨hne, ht⟩, isValue_eq_false_iff.mpr h]
      rfl

/-- The two tests of the lenient updates are those of the check. -/
theorem exists_check_eq_error_iff :
    (∃ fault, check name value = .error fault) ↔
      (Field.isName name && Field.isValue value) = false := by
  cases h : Field.isName name && Field.isValue value with
  | false => exact iff_of_true (check_eq_error name value (by simp [h])) rfl
  | true => simp [check_eq_ok name value h]

end Check

/-! ### Two styles -/

/-- The update `strict` tells why it is refused, and `lenient` does the same without telling. -/
structure TwoStyles (f : Fields) (name value : Bytes) (strict lenient : Request) : Prop where
  refused_iff : ∀ fault, (f.serve strict).1 = .error fault ↔ Refuses name value fault
  /-- The lenient update answers whether the strict one is let through. -/
  lenient_reply : ∃ taken, (f.serve lenient).1 = .ok (.flag taken) ∧
    (taken = false ↔ ∃ fault, (f.serve strict).1 = .error fault)
  lenient_entries : (f.serve lenient).2.entries = (f.serve strict).2.entries
  /-- A refusal leaves all as it was. -/
  entries_of_refused : ∀ fault, (f.serve strict).1 = .error fault →
    (f.serve strict).2.entries = f.entries ∧ ∀ n, (f.serve strict).2.values n = f.values n

/-- **A checked update comes in two styles.** -/
theorem twoStyles_of_guarded {f g : Fields} {name value : Bytes} {strict lenient : Request}
    {x : Reply} (hstrict : f.serve strict = f.guarded g name value x)
    (hlenient : f.serve lenient
      = (.ok (.flag (Field.isName name && Field.isValue value)), (f.serve strict).2)) :
    f.TwoStyles name value strict lenient := by
  have herror : ∀ fault, (f.serve strict).1 = .error fault ↔ check name value = .error fault :=
    fun fault => by
      rw [hstrict, guarded]
      cases check name value <;> simp [Except.map]
  have hvalid : (Field.isName name && Field.isValue value) = false ↔
      ∃ fault, (f.serve strict).1 = .error fault := by
    simp only [herror, exists_check_eq_error_iff]
  have hkept : ∀ fault, (f.serve strict).1 = .error fault → (f.serve strict).2 = f :=
    fun fault h => by
      rw [hstrict, guarded, hvalid.mpr ⟨fault, h⟩, if_neg Bool.false_ne_true]
  exact
    { refused_iff := fun fault => (herror fault).trans check_eq_error_iff
      lenient_reply := ⟨_, congrArg Prod.fst hlenient, hvalid⟩
      lenient_entries := congrArg (·.2.entries) hlenient
      entries_of_refused := fun fault h => by
        rw [hkept fault h]
        exact ⟨rfl, fun _ => rfl⟩ }

/-! ### Step by step -/

/-- Updates of a map of header fields in steps: what was done before a fault stays done. -/
abbrev Steps := ExceptT Fault (StateM Fields)

namespace Steps

variable {α β : Type}

/-- Goes on if name and value pass the check. -/
def checked (name value : Bytes) : Steps Unit := ExceptT.mk (pure (check name value))

/-- Drops the old values, and then adds the new one. -/
def insert (name value : Bytes) : Steps (Option Bytes) := do
  checked name value
  let previous ← modifyGet (erase · name)
  modify (push · name value)
  return previous

/-- Asks for a value, and then adds one. -/
def append (name value : Bytes) : Steps Bool := do
  checked name value
  let existed := (← get).contains name
  modify (push · name value)
  return existed

/-- Makes the steps `p` if name and value are valid, and answers whether they are. -/
def lenient (name value : Bytes) (p : Steps α) : Steps Bool := do
  if !Field.isName name || !Field.isValue value then
    return false
  let _ ← p
  return true

/-- The result of the steps, and the map that they leave. -/
def exec (p : Steps α) (f : Fields) : Except Fault α × Fields := p.run.run f

theorem exec_map (g : α → β) (p : Steps α) (f : Fields) :
    (g <$> p).exec f = ((p.exec f).1.map g, (p.exec f).2) := by
  rw [exec, ExceptT.run_map, StateT.run_map]
  rfl

section Checked

variable {f g : Fields} {name value : Bytes} {p : Steps α} {x : α}

/-- **Steps behind the check are a checked update** if no fault comes after it. -/
theorem exec_checked_bind (hp : p.exec f = (.ok x, g)) :
    (checked name value >>= fun _ => p).exec f = f.guarded g name value x := by
  rw [guarded_eq, ← hp, checked]
  cases check name value <;> rfl

theorem exec_map_of_guarded (hp : p.exec f = f.guarded g name value x) (reply : α → β) :
    (reply <$> p).exec f = f.guarded g name value (reply x) := by
  rw [exec_map, hp, guarded_eq, guarded_eq]
  cases check name value <;> rfl

/-- **What a lenient update lets through is not refused any more.** -/
theorem exec_lenient (hp : p.exec f = f.guarded g name value x) :
    (lenient name value p).exec f
      = (.ok (Field.isName name && Field.isValue value), (f.guarded g name value x).2) := by
  rw [lenient, ← Bool.not_and]
  cases h : Field.isName name && Field.isValue value with
  | false =>
      rw [guarded, h]
      rfl
  | true =>
      refine (congrArg (exec · f) (map_eq_pure_bind _ p).symm).trans ?_
      rw [exec_map, hp, guarded, check_eq_ok name value h]
      rfl

end Checked

/-- **No fault comes between the removal of the old values and the new one.** -/
theorem exec_insert (f : Fields) (name value : Bytes) :
    (insert name value).exec f = f.guarded (f.put name value) name value (f.first? name) :=
  exec_checked_bind rfl

theorem exec_append (f : Fields) (name value : Bytes) :
    (append name value).exec f = f.guarded (f.push name value) name value (f.contains name) :=
  exec_checked_bind rfl

end Steps

/-- **All that is said of one pair of updates**: they are two styles of one, and both can be made
step by step. -/
theorem allOrNothing_of_guarded {α : Type} {f g : Fields} {name value : Bytes} {p : Steps α}
    {x : α} {reply : α → Reply} {strict lenient : Request}
    (hp : p.exec f = f.guarded g name value x)
    (hstrict : f.serve strict = f.guarded g name value (reply x))
    (hlenient : f.serve lenient
      = (.ok (.flag (Field.isName name && Field.isValue value)), (f.serve strict).2)) :
    f.TwoStyles name value strict lenient ∧ (reply <$> p).exec f = f.serve strict ∧
      (Reply.flag <$> Steps.lenient name value p).exec f = f.serve lenient := by
  refine ⟨twoStyles_of_guarded hstrict hlenient, ?_, ?_⟩
  · rw [Steps.exec_map_of_guarded hp, hstrict]
  · rw [Steps.exec_map, Steps.exec_lenient hp, hlenient, hstrict]
    rfl

/-- **An update takes effect, or it is refused and changes nothing.**  On any map of header fields,
an insertion and an append are refused for a name that is empty or holds a byte that is none of a
token, and for a value that holds a control byte other than the tab; if both are bad, the name is
blamed.  The lenient update answers `false` exactly if the strict one is refused, and leaves the same
fields.  After a refusal these are the fields from before, with every value of the name.

All this holds of updates that are made step by step and take no step back: an insertion that drops
the old values before it adds the new one, and a lenient update that makes the strict one. -/
theorem updates_all_or_nothing (f : Fields) (name value : Bytes) :
    (f.TwoStyles name value (.insert name value) (.insertIfValid name value) ∧
      f.TwoStyles name value (.append name value) (.appendIfValid name value)) ∧
    ((Reply.value <$> Steps.insert name value).exec f = f.serve (.insert name value) ∧
      (Reply.flag <$> Steps.append name value).exec f = f.serve (.append name value)) ∧
    (Reply.flag <$> Steps.lenient name value (Steps.insert name value)).exec f
      = f.serve (.insertIfValid name value) ∧
    (Reply.flag <$> Steps.lenient name value (Steps.append name value)).exec f
      = f.serve (.appendIfValid name value) := by
  obtain ⟨hinsert, hinsertSteps, hinsertLenient⟩ := allOrNothing_of_guarded
    (Steps.exec_insert f name value) (f.serve_insert name value) (f.serve_insertIfValid name value)
  obtain ⟨happend, happendSteps, happendLenient⟩ := allOrNothing_of_guarded
    (Steps.exec_append f name value) (f.serve_append name value) (f.serve_appendIfValid name value)
  exact ⟨⟨hinsert, happend⟩, ⟨hinsertSteps, happendSteps⟩, hinsertLenient, happendLenient⟩

end RetryVerdict.Fields

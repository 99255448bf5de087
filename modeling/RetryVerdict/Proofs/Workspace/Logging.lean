import RetryVerdict.Proofs.Walk.Record
import RetryVerdict.Proofs.Workspace.History

/-!
# Workspace — the level of the logger

The logger comes and goes: a command may remove it, put another one in its place, or find that there
is none and make one.  A command *states* a level if it sets the level, or installs a logger of that
level (`Command.statedLevel?`).

* `log_assemble`, `logger_assemble`: what a freeze records, and what it does with the logger,
  depends on whether the chain is empty.
* `level_perform`: a command that removes the logger brings the level back to `info`, one that
  states a level brings that one, and no other command changes the level.
* `level_afterAll`: so after any commands the level is the latest that was stated since the logger
  was last removed, or `info` (`statedLevel`).
* `log_perform`: the level decides which of its messages a command records.

`stated_level_governs` collects this for a history of commands.
-/

namespace RetryVerdict

/-! ### Messages that a level lets through -/

/-- The lowest level lets all messages through. -/
theorem Level.filter_trace (es : List Entry) : es.filter (Level.trace.admits ·.level) = es :=
  List.filter_eq_self.mpr fun e _ => Level.admits_trace e.level

theorem Level.record_eq_filter (l m : Level) (text : Bytes) :
    l.record m text = (Level.trace.record m text).filter (l.admits ·.level) := by
  rw [← l.filter_singleton, ← Level.trace.filter_singleton, Level.filter_trace]

/-- A level lets through some of what is recorded at the lowest level. -/
theorem log_judge (l : Level) (ks : List Classifier) (a : Attempt) :
    (judge l ks a).log = (judge .trace ks a).log.filter (l.admits ·.level) := by
  obtain ⟨text, -, hlog⟩ := (walk_walks .trace a .undecided ks).exists_closing (by simp)
  rw [judge, judge, hlog l, hlog .trace, Level.filter_trace]

namespace Workspace

variable (w : Workspace)

/-! ### Freezing and the logger -/

/-- What a freeze asks for, whether its layers were frozen before or not. -/
theorem ofLayers_freezeAll (base : String) (upper : Option String) :
    Chain.ofLayers ((w.freezeAll base upper).layer base) (upper.map (w.freezeAll base upper).layer)
      = Chain.ofLayers (w.layer base) (upper.map w.layer) := by
  rw [← w.chain_assemble_eq_ofLayers base upper "chain"]
  cases upper with
  | none => exact w.chain_assemble_alone base "chain"
  | some upper => exact w.chain_assemble base upper "chain"

theorem logger_freezeAll (base : String) (upper : Option String) :
    (w.freezeAll base upper).logger = w.logger := by
  cases upper <;> rfl

section Assemble

variable (base : String) (upper : Option String) (name : String)

/-- **A freeze records the warning if the chain is empty**, and nothing otherwise. -/
theorem log_assemble :
    (w.assemble base upper name).1
      = if (Chain.ofLayers (w.layer base) (upper.map w.layer)).isEmpty
        then w.level.record .warn emptyText else [] := by
  have hlevel : (w.freezeAll base upper).level = w.level := by
    rw [level, logger_freezeAll, level]
  rw [← ofLayers_freezeAll, ← hlevel, assemble]
  split <;> rfl

theorem reply_assemble_ofLayers :
    (w.perform (.assemble base upper name)).reply
      = .ok (.chain (Chain.ofLayers (w.layer base) (upper.map w.layer))) := by
  rw [← ofLayers_freezeAll, ← w.chain_assemble_eq_ofLayers base upper name]
  rfl

/-- **A freeze needs a logger only if the chain is empty.** -/
theorem logger_assemble :
    (w.assemble base upper name).2.logger
      = if (Chain.ofLayers (w.layer base) (upper.map w.layer)).isEmpty
        then some (w.logger.getD {}) else w.logger := by
  rw [← ofLayers_freezeAll, ← w.logger_freezeAll base upper, assemble]
  split <;> rfl

end Assemble

/-! ### What a command does to the level -/

namespace Command

/-- The level that the command gives the logger. -/
def statedLevel? : Command → Option Level
  | setLevel l | installLogger l => some l
  | fresh _ | standard _ | copy .. | edit .. | addAll .. | stack .. | assemble .. | inspect _
  | judge .. | removeLogger | reportLogger => none

/-- The command leaves no logger. -/
def removesLogger : Command → Bool
  | removeLogger => true
  | fresh _ | standard _ | copy .. | edit .. | addAll .. | stack .. | assemble .. | inspect _
  | judge .. | setLevel _ | installLogger _ | reportLogger => false

end Command

/-- **One command sets the level back, states one, or leaves it.** -/
theorem level_perform (c : Command) :
    (w.perform c).after.level
      = if c.removesLogger then .info else c.statedLevel?.getD w.level := by
  cases c with
  | edit n e =>
      rw [perform]
      cases (w.layer n).edit e <;> rfl
  | assemble base upper name =>
      refine (congrArg (fun g : Option Logger => (g.getD {}).level)
        (w.logger_assemble base upper name)).trans ?_
      split <;> rfl
  | _ => rfl

/-- A report tells the level, and that to ask again changes nothing. -/
theorem reply_reportLogger :
    (w.perform .reportLogger).reply
      = .ok (.logger ⟨w.logger.isSome, Logger.name, w.level, true⟩) := by
  have hsame : (w.withLogger.withLogger.logger == w.withLogger.logger) = true := beq_self_eq_true _
  rw [perform, reportLogger, hsame]
  rfl

/-! ### The level after a history -/

/-- The latest level that was stated since the logger was last removed, and `info` if there is
none. -/
def statedLevel (cs : List Command) : Level :=
  ((cs.reverse.takeWhile (!·.removesLogger)).findSome? Command.statedLevel?).getD .info

theorem statedLevel_concat (cs : List Command) (c : Command) :
    statedLevel (cs ++ [c])
      = if c.removesLogger then .info else c.statedLevel?.getD (statedLevel cs) := by
  rw [statedLevel, List.reverse_append, List.reverse_singleton, List.singleton_append]
  cases hc : c.removesLogger with
  | true => rw [List.takeWhile_cons_of_neg (by simp [hc])]; rfl
  | false =>
      rw [List.takeWhile_cons_of_pos (by simp [hc]), List.findSome?_cons]
      cases c.statedLevel? <;> rfl

/-- **The level is the one that was stated**, since the logger was last removed. -/
theorem level_afterAll (cs : List Command) : (afterAll {} cs).level = statedLevel cs := by
  induction cs using List.reverseRecOn with
  | nil => rfl
  | append_singleton cs c ih => rw [afterAll_concat, level_perform, statedLevel_concat, ih]

/-! ### What is recorded -/

/-- **The level decides what is recorded**: the messages of a command are those that it has for the
lowest level, as far as the logger admits them. -/
theorem log_perform (c : Command) :
    (w.perform c).log = ((w.setLevel .trace).perform c).log.filter (w.level.admits ·.level) := by
  cases c with
  | edit n e =>
      have hnone : ∀ v : Workspace, (v.perform (.edit n e)).log = [] := fun v => by
        rw [perform]
        cases (v.layer n).edit e <;> rfl
      rw [hnone, hnone, List.filter_nil]
  | assemble base upper name =>
      refine (w.log_assemble base upper name).trans (Eq.symm ?_)
      refine (congrArg (List.filter _) ((w.setLevel .trace).log_assemble base upper name)).trans ?_
      change List.filter _ (if (Chain.ofLayers (w.layer base) (upper.map w.layer)).isEmpty
        then Level.trace.record .warn emptyText else []) = _
      split
      · exact (w.level.record_eq_filter _ _).symm
      · rfl
  | judge name a => exact log_judge w.level (w.chain name).classifiers a
  | _ => rfl

/-! ### A history of commands -/

/-- **The stated level governs**, whatever came before.  After any commands of an empty workspace,
let `l` be the latest level that was stated since the logger was last removed, or `info`.

Then `l` is the level of the logger: it is what a report tells, at `l` every attempt is judged, and
of its messages every command records those that `l` admits.  A freeze records one warning if its
chain is empty and `l` admits it, and nothing otherwise; if its chain is not empty, it leaves the
logger as it was, there or not.  To judge, to report, and to freeze to an empty chain makes a
missing logger, of level `info`, and leaves a logger that is there as it was. -/
theorem stated_level_governs (cs : List Command) :
    let w := afterAll {} cs
    let l := statedLevel cs
    w.level = l ∧
    (∀ c, (w.perform c).log
      = ((w.setLevel .trace).perform c).log.filter (l.admits ·.level)) ∧
    (∀ base upper name,
      let c := Chain.ofLayers (w.layer base) (upper.map w.layer)
      let e := w.perform (.assemble base upper name)
      e.reply = .ok (.chain c) ∧
      (e.log = if c.classifiers = [] ∧ l.severity ≤ Level.warn.severity
        then [⟨.warn, emptyText⟩] else []) ∧
      (e.after.logger = if c.classifiers = [] then some (w.logger.getD ⟨.info⟩) else w.logger)) ∧
    (∀ name a,
      let e := w.perform (.judge name a)
      e.reply = .ok (.run ((w.chain name).judge l a)) ∧
      e.log = ((w.chain name).judge l a).log ∧
      e.after.logger = some (w.logger.getD ⟨.info⟩)) ∧
    let e := w.perform .reportLogger
    e.reply = .ok (.logger ⟨w.logger.isSome, Logger.name, l, true⟩) ∧
    e.log = [] ∧ e.after.logger = some (w.logger.getD ⟨.info⟩) := by
  intro w l
  have hlevel : w.level = l := level_afterAll cs
  rw [← hlevel]
  refine ⟨rfl, w.log_perform, fun base upper name => ⟨?_, ?_, ?_⟩, fun name a => ⟨rfl, rfl, rfl⟩,
    w.reply_reportLogger, rfl, rfl⟩
  · exact w.reply_assemble_ofLayers base upper name
  · refine (w.log_assemble base upper name).trans ?_
    simp only [Chain.isEmpty, List.isEmpty_iff, Level.record, Level.admits, decide_eq_true_eq,
      ite_and]
  · refine (w.logger_assemble base upper name).trans ?_
    simp only [Chain.isEmpty, List.isEmpty_iff]

/-- A level that was stated is forgotten with the logger, and the warning finds a new one. -/
example :
    let cs : List Command := [.setLevel .err, .removeLogger, .edit "a" (.add none)]
    statedLevel cs = .info ∧
      ((afterAll {} cs).perform (.assemble "a" none "chain")).log = [⟨.warn, emptyText⟩] := by
  decide

end Workspace

end RetryVerdict

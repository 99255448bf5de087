import RetryVerdict.Chain

/-!
# Workspace — named layers and chains, and the logger

A workspace holds layers and chains by name, and at most one logger.  A layer or a chain that was
never mentioned is empty.

The logger appears when it is first needed, at the level `info`.  It is needed to judge an
attempt, to set or to report its level, and to warn of a chain without classifiers.
-/

namespace RetryVerdict

open Bytes (utf8)

/-- The named things of a configuration at work. -/
structure Workspace where
  layer : String → Layer := fun _ => {}
  chain : String → Chain := fun _ => {}
  logger : Option Logger := none

namespace Workspace

/-! ### Layers and chains -/

/-- Stores a layer. -/
def setLayer (w : Workspace) (name : String) (l : Layer) : Workspace :=
  { w with layer := fun n => if n = name then l else w.layer n }

/-- Stores a chain. -/
def setChain (w : Workspace) (name : String) (c : Chain) : Workspace :=
  { w with chain := fun n => if n = name then c else w.chain n }

/-- Freezes a layer. -/
def freeze (w : Workspace) (name : String) : Workspace :=
  w.setLayer name (w.layer name).freeze

/-- Freezes a layer, and the one over it if there is one. -/
def freezeAll (w : Workspace) (base : String) (upper : Option String) : Workspace :=
  match upper with
  | none => w.freeze base
  | some name => (w.freeze base).freeze name

/-! ### The logger -/

/-- The level that governs messages. -/
def level (w : Workspace) : Level := (w.logger.getD {}).level

/-- Makes sure that there is a logger. -/
def withLogger (w : Workspace) : Workspace := { w with logger := some (w.logger.getD {}) }

/-- Sets the level, of a new logger if there is none. -/
def setLevel (w : Workspace) (l : Level) : Workspace := { w with logger := some ⟨l⟩ }

/-- Removes the logger. -/
def removeLogger (w : Workspace) : Workspace := { w with logger := none }

/-- Puts a new logger in the place of the old one. -/
def installLogger (w : Workspace) (l : Level) : Workspace :=
  { w.removeLogger with logger := some ⟨l⟩ }

/-- What can be said of the logger. -/
structure LoggerReport where
  /-- There was one before the question. -/
  existed : Bool
  name : Bytes
  level : Level
  /-- Asking once more gives the same logger. -/
  same : Bool
deriving DecidableEq, Repr

/-- Reports on the logger, which the question may have made. -/
def reportLogger (w : Workspace) : LoggerReport where
  existed := w.logger.isSome
  name := Logger.name
  level := w.withLogger.level
  same := w.withLogger.withLogger.logger == w.withLogger.logger

/-! ### Assembling and judging -/

/-- The warning that nothing will ever ask for a retry. -/
def emptyText : Bytes :=
  utf8 "no retry classifiers are configured, attempts will never be retried"

/-- Freezes the layers and stores their chain; the messages are those of the warning. -/
def assemble (w : Workspace) (base : String) (upper : Option String) (name : String) :
    List Entry × Workspace :=
  let frozen := w.freezeAll base upper
  let c := Chain.ofLayers (frozen.layer base) (upper.map frozen.layer)
  let stored := frozen.setChain name c
  if c.isEmpty then (stored.level.record .warn emptyText, stored.withLogger) else ([], stored)

/-- Asks a stored chain about an attempt. -/
def judge (w : Workspace) (name : String) (a : Attempt) : Run × Workspace :=
  ((w.chain name).judge w.level a, w.withLogger)

end Workspace

end RetryVerdict

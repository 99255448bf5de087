import RetryVerdict.Workspace

/-!
# Workspace — commands

A `Command` is one use of a workspace, as data; `Workspace.perform` carries it out.  The effect is
the reply or the fault that refuses the command, the messages recorded meanwhile, and the workspace
afterwards.  A sequence of commands is a history of the workspace.
-/

namespace RetryVerdict.Workspace

/-- One use of a workspace. -/
inductive Command where
  /-- Start a layer again, empty. -/
  | fresh (layer : String)
  /-- Start a layer again, with the shipped classifiers. -/
  | standard (layer : String)
  /-- Make a layer the copy of another one, flags and all. -/
  | copy (layer source : String)
  | edit (layer : String) (e : Layer.Edit)
  /-- Add classifiers to a layer one by one, up to the first that is refused. -/
  | addAll (layer : String) (ks : List (Option Classifier))
  /-- List the classifiers of one layer put over another. -/
  | stack (lower upper : String)
  /-- Freeze a layer, and the one over it if one is named, and store their chain. -/
  | assemble (base : String) (upper : Option String) (chain : String)
  | inspect (chain : String)
  | judge (chain : String) (a : Attempt)
  | setLevel (l : Level)
  | removeLogger
  | installLogger (l : Level)
  | reportLogger

/-- What a command is answered. -/
inductive Reply where
  | done
  | sequence (ks : List Classifier)
  | chain (c : Chain)
  | run (r : Run)
  | logger (r : LoggerReport)

/-- What a command comes to. -/
structure Effect where
  reply : Except Fault Reply
  /-- The messages recorded meanwhile. -/
  log : List Entry := []
  /-- The workspace afterwards. -/
  after : Workspace

/-- Carries out a command. -/
def perform (w : Workspace) : Command → Effect
  | .fresh name => ⟨.ok .done, [], w.setLayer name {}⟩
  | .standard name => ⟨.ok .done, [], w.setLayer name .standard⟩
  | .copy name source => ⟨.ok .done, [], w.setLayer name (w.layer source)⟩
  | .edit name e =>
    match (w.layer name).edit e with
    | .ok l => ⟨.ok .done, [], w.setLayer name l⟩
    | .error f => ⟨.error f, [], w⟩
  | .addAll name ks =>
    let (reply, l) := (w.layer name).addAll ks
    ⟨reply.map fun _ => .done, [], w.setLayer name l⟩
  | .stack lower upper => ⟨.ok (.sequence ((w.layer lower).stack (w.layer upper))), [], w⟩
  | .assemble base upper name =>
    let (log, w') := w.assemble base upper name
    ⟨.ok (.chain (w'.chain name)), log, w'⟩
  | .inspect name => ⟨.ok (.chain (w.chain name)), [], w⟩
  | .judge name a =>
    let (r, w') := w.judge name a
    ⟨.ok (.run r), r.log, w'⟩
  | .setLevel l => ⟨.ok .done, [], w.setLevel l⟩
  | .removeLogger => ⟨.ok .done, [], w.removeLogger⟩
  | .installLogger l => ⟨.ok .done, [], w.installLogger l⟩
  | .reportLogger => ⟨.ok (.logger w.reportLogger), [], w.withLogger⟩

/-- The workspace after a history of commands. -/
def afterAll (w : Workspace) (cs : List Command) : Workspace :=
  cs.foldl (fun w c => (w.perform c).after) w

end RetryVerdict.Workspace

import Backslice.Command.Arguments
import Backslice.Command.Workspace
import Backslice.Dot
import Backslice.Settings
import Backslice.Slice.Query

namespace Backslice

inductive Output where
  | event (e : Event)
  | printed (text : String)
  deriving DecidableEq, Repr

structure Report where
  status : Nat
  output : List Output := []
  severity : Severity := .info
  complaint : String := ""
  workspace : Workspace

inductive RunError where
  | settings (e : SettingsError)
  | file (e : FileError)
  | noPath
  | notText
  | analysis (e : AnalysisError)
  | slice (e : SliceError NodeId)
  | label (e : IntegerError)
  deriving DecidableEq, Repr

namespace Report

def eventLine (stamp : String) (e : Event) : String :=
  stamp ++ " - " ++ e.origin ++ " - " ++ e.severity.name ++ " - " ++ e.message ++ "\n"

def text (r : Report) (stamp : String) : String :=
  String.join (r.output.map fun
    | .event e => if r.severity.rank ≤ e.severity.rank then eventLine stamp e else ""
    | .printed s => s)

end Report

namespace Command

def unifyLines : List Char → List Char
  | '\r' :: '\n' :: cs => '\n' :: unifyLines cs
  | '\r' :: cs => '\n' :: unifyLines cs
  | c :: cs => c :: unifyLines cs
  | [] => []

def given {α : Type} (value : α → Json) : Option (Slot α) → Json
  | none => .null
  | some .blank => .list []
  | some (.filled a) => value a

def overrides (c : Command) : List (RawText × Json) :=
  let text := fun (s : String) => Json.text s
  [("language", given text c.language), ("function", given text c.function),
   ("step_budget", given .int c.stepBudget), ("log_level", given text c.logLevel)]

def path? : Option (Slot String) → Option String
  | some (.filled path) => if path = "" then none else some path
  | _ => none

def requiredPath : Slot String → Except RunError String
  | .filled path => .ok path
  | .blank => .error .noPath

def criterion (c : Command) : Criterion where
  line := match c.line with
    | .filled n => some n
    | .blank => none
  name := match c.name with
    | .filled s => .text s
    | .blank => .alien "[]"

def fileSettings (c : Command) (w : Workspace) :
    Except FileError (Except SettingsError Settings) :=
  match path? c.config with
  | none => .ok (.ok {})
  | some path =>
    match w.read path with
    | .ok content => .ok (Settings.ofContent content)
    | .error ⟨.absent, _⟩ => .ok (.error (.missingFile path))
    | .error ⟨.nullByte, _⟩ => .ok (.error .badPath)
    | .error e => .error e

def settings (c : Command) (w : Workspace) :
    Except FileError (Except SettingsError Settings) := do
  let base ← c.fileSettings w
  return base.bind fun s => s.merged c.overrides

def writePicture (c : Command) (f : Facts NodeId) (w : Workspace) :
    Except RunError (Workspace × List Output) :=
  match path? c.picture with
  | none => .ok (w, [])
  | some path =>
    match DependenceGraph.ofFacts f with
    | .error m => .error (.slice (.malformed m))
    | .ok g =>
      match w.write (path ++ ".dot") (Dot.picture f g path) with
      | .error e => .error (.file e)
      | .ok w => .ok (w, [.event (Slice.builtEvent g)])

def printEdges (c : Command) (f : Facts NodeId) : Except RunError (List Output) :=
  if c.printsEdges then
    match DependenceGraph.ofFacts f with
    | .error m => .error (.slice (.malformed m))
    | .ok g =>
      .ok (.event (Slice.builtEvent g) ::
        (Text.sorted (Dot.lineEdges f g)).map fun e => .printed (e ++ "\n"))
  else .ok []

/-- The status and the message of a slice that cannot be taken; other errors have none. -/
def failure? (e : SliceError NodeId) : Option (Nat × String) :=
  let message := e.message toString toString
  match e with
  | .unknownVariable _ => some (2, "Wrong variable name: " ++ message)
  | .truncated .. => some (3, message)
  | .malformed _ => some (1, "Front-end produced inconsistent facts: " ++ message)
  | .naming _ => none
  | .unlisted _ => none

def save (c : Command) (code : String) (labels : List Label) (w : Workspace) :
    Except RunError (Workspace × List Output) := do
  let texts := labels.map Label.text
  let ordered ← (Label.sort texts).mapError .label
  let path ← requiredPath c.output
  let w ← (w.write path (Label.saved ordered)).mapError .file
  let saved := Output.event (.saved ordered.length path)
  if c.listing then
    let listing ← (Label.listing code texts).mapError .label
    return (w, [saved, .printed listing])
  else return (w, [saved])

def slice (c : Command) (s : Settings) (code : String) (f : Facts NodeId) (w : Workspace)
    (before : List Output) : Except RunError Report := do
  let (w, pictured) ← c.writePicture f w
  let edges ← c.printEdges f
  let taken := Slice.query f s.scheme s.budget c.criterion
  let output := before ++ pictured ++ edges ++ taken.events.map .event
  match taken.outcome with
  | .error e =>
    match failure? e with
    | none => .error (.slice e)
    | some (status, message) =>
      return { status, output := output ++ [.event (.failed message)],
               severity := s.severity, workspace := w }
  | .ok labels =>
    let (w, saved) ← c.save code labels w
    return { status := 0, output := output ++ saved, severity := s.severity, workspace := w }

def analyze (c : Command) (s : Settings) (code : String) (src : Source) (w : Workspace) :
    Except RunError Report :=
  let traced := Analysis.ofSource src s.languageName s.functionName s.scheme.suffixMark.written
  let output := traced.events.map Output.event
  match traced.outcome with
  | .ok a => c.slice s code a.facts w output
  | .error (.functionNotFound name) =>
    let failed := Event.failed (AnalysisError.functionNotFound name).message
    .ok { status := 1, output := output ++ [.event failed], severity := s.severity, workspace := w }
  | .error e => .error (.analysis e)

/-- A run of the command. `parse` gives the syntax tree of a source and tells whether the source
has errors. -/
def run (c : Command) (parse : String → Tree × Bool) (w : Workspace) : Except RunError Report := do
  match ← (c.settings w).mapError .file with
  | .error e =>
    if e.isDepth then throw (.settings e)
    return { status := 1, complaint := "错误：" ++ e.message ++ "\n", workspace := w }
  | .ok s =>
    let path ← requiredPath c.file
    match w.read path with
    | .error e =>
      if e.fault = .nullByte then throw (.file e)
      return { status := 1, output := [.event (.unreadable path e.message)],
               severity := s.severity, workspace := w }
    | .ok content =>
      match String.fromUTF8? content with
      | none => .error .notText
      | some text =>
        let code := String.ofList (unifyLines text.toList)
        let (root, damaged) := parse code
        c.analyze s code ⟨code.toUTF8, root, damaged⟩ w

end Command

end Backslice

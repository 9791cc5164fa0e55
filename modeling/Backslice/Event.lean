import Backslice.Flow.Build

namespace Backslice

inductive Severity where
  | debug
  | info
  | warning
  | error
  | critical
  deriving DecidableEq, Repr

namespace Severity

def name : Severity → String
  | debug => "DEBUG"
  | info => "INFO"
  | warning => "WARNING"
  | error => "ERROR"
  | critical => "CRITICAL"

def rank : Severity → Nat
  | debug => 10
  | info => 20
  | warning => 30
  | error => 40
  | critical => 50

def all : List Severity := [debug, info, warning, error, critical]

def ofName? (s : String) : Option Severity := all.find? (·.name == s)

end Severity

/-- A line and a name of the source at which a slice is taken. No unit is on a line that is not
given. -/
structure Criterion where
  line : Option Int
  name : GivenText
  deriving DecidableEq, Repr

namespace Criterion

def lineText : Option Int → String
  | some n => toString n
  | none => "[]"

def shown (c : Criterion) : String := s!"<{lineText c.line}, {c.name.shown}>"

end Criterion

inductive Event where
  | damagedTree
  | stray (w : FlowWarning)
  | flowBuilt (nodes edges : Nat)
  | analyzed (function : String) (units vars : Nat)
  | virtualExit (header : NodeId)
  | reachingSettled (visits : Nat)
  | slicing (c : Criterion)
  | resolved (name : GivenText) (found : List RawText)
  | dependencesBuilt (nodes control data : Nat)
  | onLine (line : Option Int) (count : Nat)
  | users (count among : Nat) (name : GivenText)
  | narrowed (seeds kept : Nat)
  | closed (units : Nat)
  | noUse (c : Criterion)
  | noDependence (c : Criterion)
  | sliced (c : Criterion) (lines : Nat)
  | saved (labels : Nat) (path : String)
  | unreadable (path reason : String)
  | failed (message : String)
  deriving DecidableEq, Repr

namespace Event

def severity : Event → Severity
  | damagedTree => .warning
  | stray _ => .warning
  | flowBuilt .. => .debug
  | analyzed .. => .info
  | virtualExit _ => .debug
  | reachingSettled _ => .debug
  | slicing _ => .info
  | resolved .. => .debug
  | dependencesBuilt .. => .debug
  | onLine .. => .debug
  | users .. => .debug
  | narrowed .. => .debug
  | closed _ => .debug
  | noUse _ => .info
  | noDependence _ => .info
  | sliced .. => .info
  | saved .. => .info
  | unreadable .. => .error
  | failed _ => .error

def origin : Event → String
  | damagedTree => "analysis.base"
  | stray _ => "analysis.cfg"
  | flowBuilt .. => "analysis.cfg"
  | analyzed .. => "analysis.facts"
  | virtualExit _ => "analysis.postdom"
  | reachingSettled _ => "analysis.defuse"
  | slicing _ => "slicer.slicer_core"
  | resolved .. => "slicer.naming"
  | dependencesBuilt .. => "slicer.pdg"
  | onLine .. => "slicer.seeds"
  | users .. => "slicer.seeds"
  | narrowed .. => "slicer.narrow"
  | closed _ => "slicer.engine"
  | noUse _ => "slicer.slicer_core"
  | noDependence _ => "slicer.slicer_core"
  | sliced .. => "slicer.slicer_core"
  | saved .. => "slicer.output_utils"
  | unreadable .. => "tools.program_slicer"
  | failed _ => "tools.program_slicer"

def quotedList (names : List RawText) : String :=
  "[" ++ ", ".intercalate (names.map Text.quote) ++ "]"

def message : Event → String
  | damagedTree => "Syntax errors detected, analysis continues on the partial tree"
  | stray (.strayBreak line) => s!"break outside loop or switch at line {line}"
  | stray (.strayContinue line) => s!"continue outside loop at line {line}"
  | stray (.missingLabel name) => s!"goto target '{name}' not found, edge dropped"
  | flowBuilt nodes edges => s!"CFG built: {nodes} nodes, {edges} edges"
  | analyzed function units vars =>
    s!"Analyzed function '{function}': {units} units, {vars} variables"
  | virtualExit header => s!"node {header} cannot reach exit, adding virtual exit edge"
  | reachingSettled visits => s!"Reaching definitions converged after {visits} node visits"
  | slicing c => "Slicing on criterion " ++ c.shown
  | resolved name found => s!"Variable '{name.shown}' resolved to " ++ quotedList found
  | dependencesBuilt nodes control data =>
    s!"PDG built: {nodes} nodes, {control} control edges, {data} data edges"
  | onLine line count => s!"Line {Criterion.lineText line}: {count} statements"
  | users count among name => s!"{count} of {among} statements use '{name.shown}'"
  | narrowed seeds kept => s!"Narrowed {seeds} seeds to {kept} predecessors"
  | closed units => s!"Backward slice: {units} units in {units} steps"
  | noUse c => s!"No statement on line {Criterion.lineText c.line} uses '{c.name.shown}'"
  | noDependence c => s!"No dependence of '{c.name.shown}' reaches line {Criterion.lineText c.line}"
  | sliced c lines => "Slice of " ++ c.shown ++ s!" covers {lines} lines"
  | saved labels path => s!"Wrote {labels} slice lines to {path}"
  | unreadable path reason => s!"Cannot read source file '{path}': {reason}"
  | failed message => message

end Event

end Backslice

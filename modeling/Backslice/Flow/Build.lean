import Backslice.Flow.Graph
import Backslice.Stmt

namespace Backslice

inductive FlowWarning where
  | strayBreak (line : Int)
  | strayContinue (line : Int)
  | missingLabel (name : String)
  deriving DecidableEq, Repr

namespace Flow

structure LooseEnd where
  source : NodeId
  label : String := ""
  deriving DecidableEq, Repr

/-- Where `continue` leads: to a known node, or to one that comes behind the body. -/
inductive ContinueTarget where
  | node (id : NodeId)
  | later
  deriving DecidableEq, Repr

structure Surroundings where
  breakable : Bool := false
  loop : Option ContinueTarget := none
  /-- The test of the switch whose case labels may come. -/
  switchTest : Option NodeId := none
  deriving DecidableEq, Repr

structure Draft where
  graph : Graph := {}
  labels : List (String × NodeId) := []
  gotos : List (NodeId × String) := []
  warnings : List FlowWarning := []

structure Outcome where
  draft : Draft
  ends : List LooseEnd := []
  breaks : List NodeId := []
  continues : List NodeId := []

namespace Draft

def nextId (d : Draft) : NodeId := d.graph.nodes.length

def edge (d : Draft) (source target : NodeId) (label : String) : Draft :=
  { d with graph := (d.graph.addEdge source target label).1 }

def tie (d : Draft) (ends : List LooseEnd) (target : NodeId) : Draft :=
  ends.foldl (fun d e => d.edge e.source target e.label) d

def add (d : Draft) (p : Point) (ends : List LooseEnd) : Draft :=
  ({ d with graph := d.graph.addNode { p with id := d.nextId } }).tie ends d.nextId

def warn (d : Draft) (w : FlowWarning) : Draft := { d with warnings := d.warnings ++ [w] }

end Draft

def looseEnds (ids : List NodeId) : List LooseEnd := ids.map fun id => { source := id }

/-- Adds a statement to a draft behind the given loose ends. -/
def emit : Stmt → Surroundings → Draft → List LooseEnd → Outcome
  | .skip, _, d, ends => { draft := d, ends }
  | .point p, _, d, ends => { draft := d.add p ends, ends := [⟨d.nextId, ""⟩] }
  | .seq first second, around, d, ends =>
    let a := emit first around d ends
    let b := emit second around a.draft a.ends
    { draft := b.draft, ends := b.ends, breaks := a.breaks ++ b.breaks,
      continues := a.continues ++ b.continues }
  | .branch test yes no, around, d, ends =>
    let around := { around with switchTest := none }
    let a := emit yes around (d.add test ends) [⟨d.nextId, "Y"⟩]
    let b := emit no around a.draft [⟨d.nextId, "N"⟩]
    { draft := b.draft, ends := a.ends ++ b.ends, breaks := a.breaks ++ b.breaks,
      continues := a.continues ++ b.continues }
  | .loop test body, _, d, ends =>
    let around := { breakable := true, loop := some (.node d.nextId) }
    let a := emit body around (d.add test ends) [⟨d.nextId, "Y"⟩]
    { draft := a.draft.tie a.ends d.nextId, ends := ⟨d.nextId, "N"⟩ :: looseEnds a.breaks }
  | .doLoop body test, _, d, ends =>
    let a := emit body { breakable := true, loop := some .later } d ends
    let testId := a.draft.nextId
    let closed := a.draft.add test (a.ends ++ looseEnds a.continues)
    -- an empty body leads from the test to the test itself
    { draft := closed.edge testId d.nextId "Y", ends := ⟨testId, "N"⟩ :: looseEnds a.breaks }
  | .forLoop test body update, _, d, ends =>
    let a := emit body { breakable := true, loop := some .later } (d.add test ends)
      [⟨d.nextId, "Y"⟩]
    let back := a.ends ++ looseEnds a.continues
    let closed := match update with
      | some p => (a.draft.add p back).edge a.draft.nextId d.nextId ""
      | none => a.draft.tie back d.nextId
    let leave : List LooseEnd := if test.isBranch then [⟨d.nextId, "N"⟩] else []
    { draft := closed, ends := leave ++ looseEnds a.breaks }
  | .switch test hasDefault body, around, d, ends =>
    let around := { around with breakable := true, switchTest := some d.nextId }
    let a := emit body around (d.add test ends) []
    let past : List LooseEnd := if hasDefault then [] else [⟨d.nextId, "N"⟩]
    { draft := a.draft, ends := a.ends ++ looseEnds a.breaks ++ past, continues := a.continues }
  | .caseLabel p, around, d, ends =>
    let chosen := around.switchTest.toList.map fun id => (⟨id, p.text⟩ : LooseEnd)
    { draft := d.add p (chosen ++ ends), ends := [⟨d.nextId, ""⟩] }
  | .breakJump p, around, d, ends =>
    let added := d.add p ends
    if around.breakable then { draft := added, breaks := [d.nextId] }
    else { draft := added.warn (.strayBreak (p.line.getD 0)) }
  | .continueJump p, around, d, ends =>
    let added := d.add p ends
    match around.loop with
    | some (.node id) => { draft := added.edge d.nextId id "" }
    | some .later => { draft := added, continues := [d.nextId] }
    | none => { draft := added.warn (.strayContinue (p.line.getD 0)) }
  | .returnJump p, _, d, ends => { draft := (d.add p ends).edge d.nextId exitId "" }
  | .gotoJump p label, _, d, ends =>
    let added := d.add p ends
    { draft := { added with gotos := added.gotos ++ [(d.nextId, label)] } }
  | .label p name, _, d, ends =>
    let added := d.add p ends
    { draft := { added with labels := (name, d.nextId) :: added.labels },
      ends := [⟨d.nextId, ""⟩] }

/-- Ties a jump to its label; of labels with one name the last one met counts. -/
def land (d : Draft) (jump : NodeId × String) : Draft :=
  match d.labels.lookup jump.2 with
  | some target => d.edge jump.1 target ""
  | none => d.warn (.missingLabel jump.2)

def entryPoint (parameters : List Variable) : Point :=
  { kind := .entry, line := none, text := "entry", defs := parameters.eraseDups }

def build (parameters : List Variable) (body : Stmt) : Draft :=
  let start := ({} : Draft).add (entryPoint parameters) []
  let a := emit body {} start [⟨0, ""⟩]
  let closed := a.draft.tie a.ends exitId
  closed.gotos.foldl land closed

end Flow

end Backslice

import Backslice.Stmt
import Backslice.Table
import Backslice.Text.Quoted

namespace Backslice

abbrev NodeId := Int

def exitId : NodeId := -1

structure Node extends Point where
  id : NodeId
  deriving DecidableEq, Repr

structure Edge where
  source : NodeId
  target : NodeId
  label : String
  deriving DecidableEq, Repr

inductive FlowError where
  | missing (id : NodeId)
  | noNode (id : NodeId)
  | unsettled
  deriving DecidableEq, Repr

def FlowError.message : FlowError → String
  | missing id => toString id
  | noNode id => s!"Node with id {id} not found"
  | unsettled => "the iteration did not settle"

def Node.shown (n : Node) : String :=
  let line := match n.line with
    | some line => "L" ++ toString line
    | none => "entry"
  s!"Node({n.id}, {line}, " ++ Text.quote n.text ++ ")"

def Edge.shown (e : Edge) : String :=
  let label := if e.label = "" then "" else ", " ++ e.label
  s!"Edge({e.source} -> {e.target}{label})"

abbrev Adjacency := Table NodeId (List NodeId)

structure Graph where
  nodes : List Node := []
  edges : List Edge := []
  succ : Adjacency := ⟨[(exitId, [])]⟩
  pred : Adjacency := ⟨[(exitId, [])]⟩
  deriving Repr

namespace Graph

def node? (g : Graph) (id : NodeId) : Option Node := g.nodes.find? (·.id == id)

def get (g : Graph) (id : NodeId) : Except FlowError Node :=
  match g.node? id with
  | some n => .ok n
  | none => .error (.noNode id)

def addNode (g : Graph) (n : Node) : Graph :=
  if (g.node? n.id).isSome then g
  else { g with nodes := g.nodes ++ [n], succ := g.succ.put n.id [], pred := g.pred.put n.id [] }

def addEdge (g : Graph) (source target : NodeId) (label : String) :
    Graph × Except FlowError Bool :=
  match g.succ.get? source with
  | none => (g, .error (.missing source))
  | some targets =>
    if target ∈ targets then (g, .ok false)
    else
      let g := { g with succ := g.succ.put source (targets ++ [target]) }
      match g.pred.get? target with
      | none => (g, .error (.missing target))
      | some sources =>
        ({ g with pred := g.pred.put target (sources ++ [source]),
                  edges := g.edges ++ [⟨source, target, label⟩] }, .ok true)

def successors (g : Graph) (id : NodeId) : List NodeId := (g.succ.get? id).getD []

def predecessors (g : Graph) (id : NodeId) : List NodeId := (g.pred.get? id).getD []

def nodesAt (g : Graph) (line : Option Int) : List Node := g.nodes.filter (·.line == line)

def ids (g : Graph) : List NodeId := g.nodes.map (·.id)

end Graph

end Backslice

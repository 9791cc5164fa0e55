import Backslice.Flow.DepthFirst

/-!
Virtual exit edges. A part of the graph from which the exit cannot be reached ends in strongly
connected components that no edge leaves; from the smallest id of each an edge to the exit is
added, so that the exit can be reached from every node.
-/

namespace Backslice.ExitEdges

def plain (g : Graph) : Adjacency :=
  (Table.ofKeys g.ids g.successors).put exitId []

def smallest : List NodeId → Option NodeId
  | [] => none
  | v :: vs => some (vs.foldl min v)

/-- The smallest id of the component of `v`, if no edge leaves the component and the exit is not
in it: such a component is all that can be reached from `v`, and `v` can be reached from all of
it. -/
def header? (reach : Table NodeId (List NodeId)) (v : NodeId) : Option NodeId :=
  let component := (reach.get? v).getD []
  if exitId ∈ component then none
  else if component.all fun w => v ∈ (reach.get? w).getD [] then smallest component
  else none

def headers (succ : Adjacency) : List NodeId :=
  let reach := Table.ofKeys succ.keys (DepthFirst.reachable succ)
  ((DepthFirst.walkFrom succ succ.keys).left.reverse.filterMap (header? reach)).eraseDups

def addExit (succ : Adjacency) (v : NodeId) : Adjacency :=
  succ.put v ((succ.get? v).getD [] ++ [exitId])

def extended (g : Graph) : Adjacency := (headers (plain g)).foldl addExit (plain g)

def reversed (succ : Adjacency) : Adjacency :=
  Table.ofKeys succ.keys fun v =>
    (succ.entries.filter fun e => v ∈ e.2).map (·.1)

end Backslice.ExitEdges

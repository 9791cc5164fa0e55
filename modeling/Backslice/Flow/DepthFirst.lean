import Backslice.Flow.Graph

namespace Backslice.DepthFirst

structure Walk where
  seen : List NodeId := []
  left : List NodeId := []
  deriving DecidableEq, Repr

/-- Visits the ids of a list in turn, each with all that can be reached from it before the next.
`fuel` bounds how many list items lie open on the way to the current one. -/
def visit (next : NodeId → List NodeId) : (fuel : Nat) → List NodeId → Walk → Walk
  | _, [], w => w
  | 0, _ :: _, w => w
  | fuel + 1, v :: vs, w =>
    if v ∈ w.seen then visit next fuel vs w
    else
      let inner := visit next fuel (next v) { w with seen := v :: w.seen }
      visit next fuel vs { inner with left := v :: inner.left }

def fuelFor (graph : Adjacency) (roots : List NodeId) : Nat :=
  (graph.entries.flatMap fun e => e.1 :: e.2).length + roots.length

def neighbours (graph : Adjacency) (v : NodeId) : List NodeId := (graph.get? v).getD []

def walkFrom (graph : Adjacency) (roots : List NodeId) : Walk :=
  visit (neighbours graph) (fuelFor graph roots) roots {}

def reachable (graph : Adjacency) (v : NodeId) : List NodeId := (walkFrom graph [v]).seen

/-- The ids reachable from the root, each before those that were left earlier: the root comes
first. -/
def reversePostorder (graph : Adjacency) (root : NodeId) : List NodeId :=
  (walkFrom graph [root]).left

end Backslice.DepthFirst

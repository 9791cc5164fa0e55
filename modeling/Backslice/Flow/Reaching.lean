import Backslice.Flow.Graph

/-!
Reaching definitions: which definitions of a variable may still hold at a node. A queue of nodes is
worked off; a node whose outgoing definitions change puts its successors into the queue again.
-/

namespace Backslice

structure Definition where
  site : NodeId
  var : Variable
  deriving DecidableEq, Repr

structure Reaching where
  incoming : Table NodeId (List Definition)
  outgoing : Table NodeId (List Definition)
  visits : Nat := 0

namespace Reaching

def gather (outgoing : Table NodeId (List Definition)) :
    List NodeId → Except FlowError (List Definition)
  | [] => .ok []
  | v :: vs =>
    match outgoing.get? v with
    | none => .error (.missing v)
    | some ds => do return ds ++ (← gather outgoing vs)

def transfer (n : Node) (incoming : List Definition) : List Definition :=
  incoming.filter (fun d => d.var ∉ n.defs) ++ n.defs.map fun v => ⟨n.id, v⟩

def sameMembers (a b : List Definition) : Bool := a.all (· ∈ b) && b.all (· ∈ a)

def enqueue (queue : List NodeId) : List NodeId → List NodeId
  | [] => queue
  | v :: vs => if v = exitId ∨ v ∈ queue then enqueue queue vs else enqueue (queue ++ [v]) vs

def solve (g : Graph) : (fuel : Nat) → List NodeId → Reaching → Except FlowError Reaching
  | _, [], r => .ok r
  | 0, _ :: _, _ => .error .unsettled
  | fuel + 1, v :: queue, r => do
    let incoming := (← gather r.outgoing (g.predecessors v)).eraseDups
    let n ← g.get v
    let out := (transfer n incoming).eraseDups
    let before ← match r.outgoing.get? v with
      | some ds => .ok ds
      | none => .error (.missing v)
    let r := { r with incoming := r.incoming.put v incoming, visits := r.visits + 1 }
    if sameMembers out before then solve g fuel queue r
    else solve g fuel (enqueue queue (g.successors v)) { r with outgoing := r.outgoing.put v out }

def fuelFor (g : Graph) : Nat :=
  let definitions := (g.nodes.flatMap (·.defs)).length
  let edges := (g.succ.entries.flatMap (·.2)).length
  g.nodes.length + (definitions + 1) * edges

def ofGraph (g : Graph) : Except FlowError Reaching :=
  let empty := Table.ofKeys g.ids fun _ => []
  solve g (fuelFor g) g.ids ⟨empty, empty, 0⟩

def definitionsOf (r : Reaching) (x : Variable) (v : NodeId) : List NodeId :=
  (((r.incoming.get? v).getD []).filter (·.var = x)).map (·.site)

def usesOf (r : Reaching) (g : Graph) (site : NodeId) : List NodeId :=
  (g.nodes.filter fun n => n.uses.any fun x => site ∈ r.definitionsOf x n.id).map (·.id)

end Reaching

end Backslice

import Backslice.Flow.ExitEdges

namespace Backslice

structure PostDominance where
  succ : Adjacency
  pred : Adjacency
  ipdom : Table NodeId NodeId
  frontier : Table NodeId (List NodeId)

namespace PostDominance

def require {α : Type} (t : Table NodeId α) (v : NodeId) : Except FlowError α :=
  match t.get? v with
  | some a => .ok a
  | none => .error (.missing v)

/-- The nearest common ancestor of two ids in the tree as far as it is known: the id further from
the root steps up until both meet. -/
def intersect (index : Table NodeId Nat) (ipdom : Table NodeId NodeId) :
    (fuel : Nat) → NodeId → NodeId → Except FlowError NodeId
  | 0, _, _ => .error .unsettled
  | fuel + 1, a, b =>
    if a = b then .ok a
    else do
      let i ← require index a
      let j ← require index b
      if j < i then intersect index ipdom fuel (← require ipdom a) b
      else if i < j then intersect index ipdom fuel a (← require ipdom b)
      else .error .unsettled

def meetAll (index : Table NodeId Nat) (ipdom : Table NodeId NodeId) :
    NodeId → List NodeId → Except FlowError NodeId
  | v, [] => .ok v
  | v, w :: ws => do
    let met ← intersect index ipdom (2 * index.entries.length + 1) w v
    meetAll index ipdom met ws

def improved (succ : Adjacency) (index : Table NodeId Nat) (ipdom : Table NodeId NodeId)
    (v : NodeId) : Except FlowError NodeId := do
  let targets ← require succ v
  match targets.filter ipdom.contains with
  | [] => .error (.missing v)
  | w :: ws => meetAll index ipdom w ws

def sweep (succ : Adjacency) (index : Table NodeId Nat) :
    List NodeId → Table NodeId NodeId → Bool → Except FlowError (Table NodeId NodeId × Bool)
  | [], ipdom, changed => .ok (ipdom, changed)
  | v :: vs, ipdom, changed =>
    if v = exitId then sweep succ index vs ipdom changed
    else do
      let new ← improved succ index ipdom v
      if ipdom.get? v = some new then sweep succ index vs ipdom changed
      else sweep succ index vs (ipdom.put v new) true

def sweeps (succ : Adjacency) (index : Table NodeId Nat) (order : List NodeId) :
    (fuel : Nat) → Table NodeId NodeId → Except FlowError (Table NodeId NodeId)
  | 0, _ => .error .unsettled
  | fuel + 1, ipdom => do
    let (ipdom, changed) ← sweep succ index order ipdom false
    if changed then sweeps succ index order fuel ipdom else return ipdom

def indexOf (order : List NodeId) : Table NodeId Nat := ⟨order.zipIdx⟩

def immediate (succ pred : Adjacency) : Except FlowError (Table NodeId NodeId) :=
  let order := DepthFirst.reversePostorder pred exitId
  -- each sweep but the last moves some node closer to the root
  let fuel := (order.length + 1) * (order.length + 1)
  sweeps succ (indexOf order) order fuel ⟨[(exitId, exitId)]⟩

def climb (ipdom : Table NodeId NodeId) (stop : NodeId) :
    (fuel : Nat) → (runner : NodeId) → Except FlowError (List NodeId)
  | 0, _ => .error .unsettled
  | fuel + 1, runner =>
    if runner = stop ∨ runner = exitId then .ok []
    else do
      let rest ← climb ipdom stop fuel (← require ipdom runner)
      return runner :: rest

def controlled (ipdom : Table NodeId NodeId) (v : NodeId) (targets : List NodeId) :
    Except FlowError (List NodeId) :=
  if targets.length < 2 then .ok []
  else do
    let stop ← require ipdom v
    let paths ← targets.mapM (climb ipdom stop (ipdom.entries.length + 1))
    return paths.flatten

def frontierOf (succ : Adjacency) (ipdom : Table NodeId NodeId) :
    Except FlowError (Table NodeId (List NodeId)) := do
  let decided ← succ.entries.mapM fun e => do return (e.1, ← controlled ipdom e.1 e.2)
  return Table.ofKeys succ.keys fun v => (decided.filter fun e => v ∈ e.2).map (·.1)

def ofGraph (g : Graph) : Except FlowError PostDominance := do
  let succ := ExitEdges.extended g
  let pred := ExitEdges.reversed succ
  let ipdom ← immediate succ pred
  let frontier ← frontierOf succ ipdom
  return { succ, pred, ipdom, frontier }

def immediatePostDominator (p : PostDominance) (v : NodeId) : Except FlowError NodeId :=
  require p.ipdom v

def meets (ipdom : Table NodeId NodeId) (a : NodeId) :
    (fuel : Nat) → NodeId → Except FlowError Bool
  | 0, _ => .error .unsettled
  | fuel + 1, b =>
    if b = a then .ok true
    else if b = exitId then .ok false
    else do meets ipdom a fuel (← require ipdom b)

def postDominates (p : PostDominance) (a b : NodeId) : Except FlowError Bool :=
  meets p.ipdom a (p.ipdom.entries.length + 1) b

end PostDominance

end Backslice

import Backslice.Stmt

namespace Backslice

structure Facts (υ : Type) where
  units : List υ
  usedNames : υ → List RawText
  frontier : υ → List υ
  usesOf : υ → List υ
  /-- The units whose definition of a variable reaches a unit. -/
  reachingDefs : Variable → υ → List υ
  declared : List Variable
  line : υ → Option Int
  caption : υ → String
  isBranch : υ → Bool

inductive DependenceKind where
  | control
  | data
  deriving DecidableEq, Repr

namespace DependenceKind

def name : DependenceKind → String
  | control => "control"
  | data => "data"

def ofName? : String → Option DependenceKind
  | "control" => some control
  | "data" => some data
  | _ => none

end DependenceKind

structure Dependence (υ : Type) where
  source : υ
  target : υ
  kind : DependenceKind
  deriving DecidableEq, Repr

inductive MalformedFacts (υ : Type) where
  | frontierUnlisted (branch unit : υ)
  | useUnlisted (user unit : υ)
  | notInGraph (unit : υ)
  deriving DecidableEq, Repr

def MalformedFacts.message {υ : Type} (shown : υ → String) : MalformedFacts υ → String
  | frontierUnlisted r u =>
    "frontier unit " ++ shown r ++ " of " ++ shown u ++ " was never enumerated"
  | useUnlisted r u => "use unit " ++ shown r ++ " of " ++ shown u ++ " was never enumerated"
  | notInGraph u => shown u ++ " is not a node of the dependence graph"

structure DependenceGraph (υ : Type) where
  units : List υ := []
  edges : List (Dependence υ) := []
  deriving DecidableEq, Repr

namespace DependenceGraph

variable {υ : Type} [DecidableEq υ]

def addUnit (g : DependenceGraph υ) (u : υ) : DependenceGraph υ :=
  if u ∈ g.units then g else { g with units := g.units ++ [u] }

/-- Adds an edge and the units it lacks, the source first. It tells whether the edge is new. -/
def addEdge (g : DependenceGraph υ) (source target : υ) (kind : DependenceKind) :
    DependenceGraph υ × Bool :=
  if ⟨source, target, kind⟩ ∈ g.edges then (g, false)
  else
    let g := (g.addUnit source).addUnit target
    ({ g with edges := g.edges ++ [⟨source, target, kind⟩] }, true)

def hasEdge (g : DependenceGraph υ) (source target : υ) : Option DependenceKind → Bool
  | some kind => ⟨source, target, kind⟩ ∈ g.edges
  | none => g.edges.any fun e => e.source = source ∧ e.target = target

def edgesOf (g : DependenceGraph υ) : Option DependenceKind → List (Dependence υ)
  | some kind => g.edges.filter (·.kind = kind)
  | none => g.edges

def incoming (g : DependenceGraph υ) (u : υ) : Except (MalformedFacts υ) (List (Dependence υ)) :=
  if u ∈ g.units then .ok (g.edges.filter (·.target = u)) else .error (.notInGraph u)

def sources (g : DependenceGraph υ) (u : υ) : List υ :=
  (g.edges.filter (·.target = u)).map (·.source)

def predecessors (g : DependenceGraph υ) (u : υ) : Except (MalformedFacts υ) (List υ) :=
  if u ∈ g.units then .ok (g.sources u).eraseDups else .error (.notInGraph u)

def addControl (f : Facts υ) (u : υ) :
    List υ → DependenceGraph υ → Except (MalformedFacts υ) (DependenceGraph υ)
  | [], g => .ok g
  | r :: rs, g =>
    if r ∈ f.units then addControl f u rs (g.addEdge r u .control).1
    else .error (.frontierUnlisted r u)

def addData (f : Facts υ) (u : υ) :
    List υ → DependenceGraph υ → Except (MalformedFacts υ) (DependenceGraph υ)
  | [], g => .ok g
  | v :: vs, g =>
    if v ∈ f.units then addData f u vs (g.addEdge u v .data).1
    else .error (.useUnlisted v u)

def addUnits (f : Facts υ) :
    List υ → DependenceGraph υ → Except (MalformedFacts υ) (DependenceGraph υ)
  | [], g => .ok g
  | u :: us, g => do
    let g ← addControl f u (f.frontier u) (g.addUnit u)
    let g ← addData f u (f.usesOf u) g
    addUnits f us g

def ofFacts (f : Facts υ) : Except (MalformedFacts υ) (DependenceGraph υ) :=
  addUnits f f.units {}

end DependenceGraph

end Backslice

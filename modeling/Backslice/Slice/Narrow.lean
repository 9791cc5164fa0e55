import Backslice.Slice.Seeds

namespace Backslice

variable {υ : Type} [DecidableEq υ]

namespace Slice

def variablesOf (f : Facts υ) (scheme : NameScheme) (name : GivenText) :
    Except (SliceError υ) (List Variable) :=
  match f.resolve scheme name with
  | .error e => .error (.naming e)
  | .ok [] => .error (.unknownVariable name)
  | .ok vs => .ok vs

/-- Whether a predecessor of a seed is kept. The variables are asked for only where no control
edge settles it. -/
def keeps (g : DependenceGraph υ) (f : Facts υ)
    (vars : Except (SliceError υ) (List Variable)) (seed p : υ) :
    Except (SliceError υ) Bool :=
  if g.hasEdge p seed (some .control) then .ok true
  else do
    let vs ← vars
    return vs.any fun x => p ∈ f.reachingDefs x seed

def gatherKept (g : DependenceGraph υ) (f : Facts υ)
    (vars : Except (SliceError υ) (List Variable)) :
    List υ → Except (SliceError υ) (List υ)
  | [] => .ok []
  | seed :: seeds => do
    let ps ← (g.predecessors seed).mapError .malformed
    let kept ← keepIf (keeps g f vars seed) ps
    let rest ← gatherKept g f vars seeds
    return kept ++ rest

def narrow (g : DependenceGraph υ) (f : Facts υ) (scheme : NameScheme) (name : GivenText)
    (seeds : List υ) : Except (SliceError υ) (List υ) :=
  (gatherKept g f (variablesOf f scheme name) seeds).map (·.eraseDups)

def asksForVariables (g : DependenceGraph υ) (seeds : List υ) : Bool :=
  seeds.any fun seed => (g.sources seed).any fun p => !g.hasEdge p seed (some .control)

end Slice

end Backslice

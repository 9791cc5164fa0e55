import Backslice.Label
import Backslice.Slice.Closure
import Backslice.Slice.Narrow
import Backslice.Traced

namespace Backslice

variable {υ : Type} [DecidableEq υ]

namespace Slice

def project (f : Facts υ) (line : Option Int) (units : List υ) :
    Except (SliceError υ) (List Label) :=
  match units.find? (· ∉ f.units) with
  | some u => .error (.unlisted u)
  | none => .ok (line.toList.map Label.line ++ units.map fun u => Label.ofLine (f.line u)).eraseDups

def resolvedEvent (name : GivenText) (vs : List Variable) : Event :=
  .resolved name (RawText.sorted (vs.map (·.name)))

def builtEvent (g : DependenceGraph υ) : Event :=
  .dependencesBuilt g.units.length (g.edgesOf (some .control)).length
    (g.edgesOf (some .data)).length

def dependences (f : Facts υ) : Traced (SliceError υ) (DependenceGraph υ) := do
  let g ← Traced.lift .malformed (DependenceGraph.ofFacts f)
  Traced.report (builtEvent g)
  return g

/-- The labels of a slice; a query that meets no use or no dependence has none. -/
def query (f : Facts υ) (scheme : NameScheme) (budget : Option Int) (c : Criterion) :
    Traced (SliceError υ) (List Label) := do
  Traced.report (.slicing c)
  let vs ← Traced.lift .naming (f.resolve scheme c.name)
  Traced.report (resolvedEvent c.name vs)
  if vs.isEmpty then throw (.unknownVariable c.name)
  let g ← dependences f
  let onLine := f.unitsOn c.line
  Traced.report (.onLine c.line onLine.length)
  let seeds ← Traced.lift .naming (f.usersOf scheme c.name onLine)
  Traced.report (.users seeds.length onLine.length c.name)
  if seeds.isEmpty then
    Traced.report (.noUse c)
    return []
  if asksForVariables g seeds then Traced.report (resolvedEvent c.name vs)
  let narrowed ← Traced.lift id (narrow g f scheme c.name seeds)
  Traced.report (.narrowed seeds.length narrowed.length)
  if narrowed.isEmpty then
    Traced.report (.noDependence c)
    return []
  let units ← Traced.lift id (closure g narrowed budget)
  Traced.report (.closed units.length)
  let labels ← Traced.lift id (project f c.line units)
  Traced.report (.sliced c labels.length)
  return labels

end Slice

end Backslice

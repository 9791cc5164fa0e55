import Backslice.Dependence
import Backslice.Label
import Backslice.Sorting

namespace Backslice.Dot

variable {υ : Type} [DecidableEq υ]

def escapeChar : Char → String
  | '&' => "&amp;"
  | '<' => "&lt;"
  | '>' => "&gt;"
  | '"' => "&quot;"
  | '\'' => "&#x27;"
  | c => String.singleton c

def escape (s : String) : String := String.join (s.toList.map escapeChar)

def unitLabel (caption : String) (line : Option Int) : String :=
  "<" ++ escape caption ++ "<SUB>" ++ (Label.ofLine line).text ++ "</SUB>>"

def unitShape (f : Facts υ) (u : υ) : String :=
  if (f.line u).isNone then "fillcolor=lightgreen shape=ellipse style=filled"
  else if f.isBranch u then "fillcolor=yellow shape=diamond style=filled"
  else "shape=rectangle"

def unitLine (f : Facts υ) (u : υ) : String :=
  "\t" ++ toString (f.units.idxOf u) ++ " [label=" ++ unitLabel (f.caption u) (f.line u) ++ " " ++
    unitShape f u ++ "]\n"

def edgeStyle : DependenceKind → String
  | .control => "[label=C]"
  | .data => "[color=red style=dotted]"

def edgeLine (e : Dependence Nat) : String :=
  "\t" ++ toString e.source ++ " -> " ++ toString e.target ++ " " ++ edgeStyle e.kind ++ "\n"

def edgePrecedes (a b : Dependence Nat) : Bool :=
  if a.source ≠ b.source then a.source < b.source
  else if a.target ≠ b.target then a.target < b.target
  else a.kind == .control || b.kind == .data

def numbered (f : Facts υ) (e : Dependence υ) : Dependence Nat :=
  ⟨f.units.idxOf e.source, f.units.idxOf e.target, e.kind⟩

def picture (f : Facts υ) (g : DependenceGraph υ) (title : String) : String :=
  let comment := if title = "" then "" else "// " ++ title ++ "\n"
  let units := (f.units.filter (· ∈ g.units)).map (unitLine f)
  let edges := (sortBy edgePrecedes (g.edges.map (numbered f))).map edgeLine
  comment ++ "digraph \x7b\n\trankdir=TB\n\tnode [fontname=Arial]\n\tedge [fontname=Arial]\n" ++
    String.join units ++ String.join edges ++ "\x7d\n"

def lineEdge? (f : Facts υ) (e : Dependence υ) : Option String := do
  let a ← f.line e.source
  let b ← f.line e.target
  if a = b then none
  else
    let arrow := "\"" ++ toString a ++ "\" -> \"" ++ toString b ++ "\""
    return if e.kind = .control then arrow ++ " [ label=\"C\" ];" else arrow

def lineEdges (f : Facts υ) (g : DependenceGraph υ) : List String :=
  (g.edges.filterMap (lineEdge? f)).eraseDups

end Backslice.Dot

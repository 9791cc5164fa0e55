import Backslice.Dependence
import Backslice.Flow.PostDominance
import Backslice.Flow.Reaching
import Backslice.Stmt.OfTree
import Backslice.Traced

namespace Backslice

structure Analysis where
  graph : Graph
  vars : List Variable
  postDominance : PostDominance
  reaching : Reaching

inductive AnalysisError where
  | unsupportedLanguage (name : String)
  | functionNotFound (name : String)
  | tree (e : TreeError)
  | flow (e : FlowError)
  deriving DecidableEq, Repr

def AnalysisError.message : AnalysisError → String
  | unsupportedLanguage name => s!"Unsupported language: {name}"
  | functionNotFound name => s!"Function '{name}' not found"
  | tree _ => ""
  | flow e => e.message

def languages : List String := ["c", "cpp"]

namespace Analysis

def ofGraph (g : Graph) (vars : List Variable) : Except FlowError Analysis := do
  let postDominance ← PostDominance.ofGraph g
  let reaching ← Reaching.ofGraph g
  return { graph := g, vars, postDominance, reaching }

def facts (a : Analysis) : Facts NodeId where
  units := a.graph.ids
  usedNames v := ((a.graph.node? v).map fun n => n.uses.map (·.name)).getD []
  frontier v := (a.postDominance.frontier.get? v).getD []
  usesOf v := a.reaching.usesOf a.graph v
  reachingDefs x v := a.reaching.definitionsOf x v
  declared := a.vars.eraseDups
  line v := (a.graph.node? v).bind (·.line)
  caption v :=
    match a.graph.node? v with
    | some n => if n.text = "" then n.shown else n.text
    | none => ""
  isBranch v := ((a.graph.node? v).map (·.isBranch)).getD false

def accept (src : Source) (language : String) : Traced AnalysisError PUnit := do
  if language ∉ languages then throw (.unsupportedLanguage language)
  if src.damaged then Traced.report .damagedTree

def functions (src : Source) (language : String) :
    Traced AnalysisError (List (Option String × Nat)) := do
  accept src language
  Traced.lift .tree src.functions

def findFunction (src : Source) (wanted : GivenText) : Except AnalysisError Tree :=
  match src.findFunction? wanted src.root.functions with
  | .error e => .error (.tree e)
  | .ok none => .error (.functionNotFound wanted.shown)
  | .ok (some t) => .ok t

def flowOf (src : Source) (suffix : RawText) (function : Tree) :
    Except TreeError (Scoping × Flow.Draft) := do
  let scoping ← Scoping.ofFunction src suffix function
  let body ← Stmt.ofFunction ⟨src, scoping.lookup⟩ function
  return (scoping, Flow.build scoping.parameters body)

def ofSource (src : Source) (language : String) (wanted : GivenText) (suffix : RawText) :
    Traced AnalysisError Analysis := do
  accept src language
  let function ← Traced.lift id (findFunction src wanted)
  let (scoping, draft) ← Traced.lift .tree (flowOf src suffix function)
  let g := draft.graph
  Traced.reportAll (draft.warnings.map .stray)
  Traced.report (.flowBuilt g.nodes.length g.edges.length)
  Traced.report (.analyzed wanted.shown g.nodes.length scoping.vars.length)
  let a ← Traced.lift .flow (ofGraph g scoping.vars)
  Traced.reportAll ((ExitEdges.headers (ExitEdges.plain g)).map .virtualExit)
  Traced.report (.reachingSettled a.reaching.visits)
  return a

end Analysis

end Backslice

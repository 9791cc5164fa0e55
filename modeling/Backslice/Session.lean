import Backslice.Analysis
import Backslice.Slice.Query

namespace Backslice

structure Session where
  language : String := "c"
  scheme : NameScheme := {}
  budget : Option Int := none
  analysis : Option Analysis := none

inductive SessionError where
  | notAnalyzed (asked : String)
  | analysis (e : AnalysisError)
  | slice (e : SliceError NodeId)
  deriving DecidableEq, Repr

namespace Session

def analyze (s : Session) (src : Source) (wanted : GivenText) :
    Session × Except SessionError Analysis :=
  match (Analysis.ofSource src s.language wanted s.scheme.suffixMark.written).outcome with
  | .ok a => ({ s with analysis := some a }, .ok a)
  | .error e => (s, .error (.analysis e))

def slice (s : Session) (c : Criterion) : Except SessionError (List Label) :=
  match s.analysis with
  | none => .error (.notAnalyzed "slice_function()")
  | some a => (Slice.query a.facts s.scheme s.budget c).outcome.mapError .slice

def dependences (s : Session) : Except SessionError (DependenceGraph NodeId) :=
  match s.analysis with
  | none => .error (.notAnalyzed "dependence_graph()")
  | some a => (Slice.dependences a.facts).outcome.mapError .slice

end Session

def SessionError.message : SessionError → String
  | notAnalyzed asked => "analyze_function() must be called before " ++ asked
  | analysis e => e.message
  | slice e => e.message toString toString

end Backslice

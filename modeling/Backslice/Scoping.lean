import Backslice.Source
import Backslice.Stmt

/-!
Declarations of a function and what its identifiers stand for. A walk over the function opens and
closes scopes; an identifier that is declared again gets the suffix mark and a number behind its
name, whatever scopes its declarations are in. Identifiers that are not declared in the function
stand for nothing.
-/

namespace Backslice

abbrev Scope := List (String × Variable)

structure Scoping where
  suffix : RawText
  vars : List Variable := []
  bindings : List (Tree.Key × Variable) := []
  scopes : List Scope := [[]]

namespace Scoping

def lookup (s : Scoping) (ident : Tree) : Option Variable := s.bindings.lookup ident.key

def bindName (name : String) (v : Variable) : List Scope → List Scope
  | [] => []
  | scope :: outer => ((name, v) :: scope) :: outer

def freshName (s : Scoping) (source : String) : RawText :=
  match s.vars.countP (·.sourceName == source) with
  | 0 => source
  | n => (source : RawText) ++ s.suffix ++ (toString n : RawText)

def declare (src : Source) (ident : Tree) (isParameter : Bool) (s : Scoping) :
    Except TreeError Scoping := do
  let source ← src.text ident
  let v : Variable := ⟨s.freshName source, source, some (src.line ident), isParameter⟩
  return { s with
    vars := s.vars ++ [v]
    bindings := (ident.key, v) :: s.bindings
    scopes := bindName source v s.scopes }

def visible? (s : Scoping) (name : String) : Option Variable :=
  s.scopes.findSome? (·.lookup name)

def resolve (src : Source) (ident : Tree) (s : Scoping) : Except TreeError Scoping := do
  let name ← src.text ident
  match s.visible? name with
  | some v => return { s with bindings := (ident.key, v) :: s.bindings }
  | none => return s

def openScope (s : Scoping) : Scoping := { s with scopes := [] :: s.scopes }

def closeScope (s : Scoping) : Scoping := { s with scopes := s.scopes.tail }

def isScope (kind : String) : Bool :=
  kind == "compound_statement" || kind == "for_statement" || kind == "for_range_loop" ||
    kind == "catch_clause"

mutual

/-- Resolves the identifiers of a declarator other than the declared one, in array lengths for
instance. Parameter lists of function pointers are left out. -/
def walkAround (src : Source) (skipped : Tree.Key) : Tree → Scoping → Except TreeError Scoping
  | t@⟨_, kind, _, _, _, children⟩, s =>
    if t.key = skipped ∨ kind = "parameter_list" then .ok s
    else if kind = "identifier" then s.resolve src t
    else walkAroundAll src skipped children s

def walkAroundAll (src : Source) (skipped : Tree.Key) :
    List Tree → Scoping → Except TreeError Scoping
  | [], s => .ok s
  | t :: ts, s => do walkAroundAll src skipped ts (← walkAround src skipped t s)

end

mutual

def walk (src : Source) (t : Tree) (s : Scoping) : Except TreeError Scoping :=
  if isScope t.kind then do
    let inner ←
      if t.kind = "for_range_loop" then walkRangeLoop src t s.openScope
      else walkAll src t.children s.openScope
    return inner.closeScope
  else if t.kind = "declaration" then walkDeclarators src t.children s
  else if t.kind = "identifier" then s.resolve src t
  else walkAll src t.children s
termination_by 3 * sizeOf t + 1
decreasing_by
  all_goals have := t.sizeOf_children_lt; omega

def walkAll (src : Source) (ts : List Tree) (s : Scoping) : Except TreeError Scoping :=
  match ts with
  | [] => .ok s
  | t :: ts => do walkAll src ts (← walk src t s)
termination_by 3 * sizeOf ts
decreasing_by
  all_goals simp only [List.cons.sizeOf_spec]; omega

/-- A range loop: its range lies outside the loop variable's reach. -/
def walkRangeLoop (src : Source) (t : Tree) (s : Scoping) : Except TreeError Scoping := do
  let s ← match _h : t.child? "right" with
    | some right => walk src right s
    | none => .ok s
  let s ← match (t.child? "declarator").bind (·.declared?) with
    | some ident => s.declare src ident false
    | none => .ok s
  match _h : t.child? "body" with
  | some body => walk src body s
  | none => .ok s
termination_by 3 * sizeOf t
decreasing_by
  all_goals have := Tree.sizeOf_child?_lt _h; omega

def walkDeclarator (src : Source) (d : Tree) (s : Scoping) : Except TreeError Scoping :=
  let target := if d.kind = "init_declarator" then d.child? "declarator" else some d
  match target, target.bind (·.declared?) with
  | some target, some ident => do
    let s ← s.declare src ident false
    let s ← walkAround src ident.key target s
    if d.kind = "init_declarator" then
      match _h : d.child? "value" with
      | some value => walk src value s
      | none => .ok s
    else .ok s
  | _, _ => walk src d s
termination_by 3 * sizeOf d + 2
decreasing_by
  · have := Tree.sizeOf_child?_lt _h
    omega
  · omega

def walkDeclarators (src : Source) (ts : List Tree) (s : Scoping) : Except TreeError Scoping :=
  match ts with
  | [] => .ok s
  | d :: ts => do
    let s ←
      if d.field ≠ "declarator" ∨ d.kind = "function_declarator" then .ok s
      else walkDeclarator src d s
    walkDeclarators src ts s
termination_by 3 * sizeOf ts
decreasing_by
  all_goals simp only [List.cons.sizeOf_spec]; omega

end

def parameterIdents (function : Tree) : List Tree :=
  match function.functionDeclarator?.bind (·.child? "parameters") with
  | some list =>
    (list.namedChildren.filter fun p =>
      p.kind == "parameter_declaration" || p.kind == "optional_parameter_declaration").filterMap
        fun p => (p.child? "declarator").bind (·.declared?)
  | none => []

def declareParameters (src : Source) : List Tree → Scoping → Except TreeError Scoping
  | [], s => .ok s
  | ident :: rest, s => do declareParameters src rest (← s.declare src ident true)

def ofFunction (src : Source) (suffix : RawText) (function : Tree) : Except TreeError Scoping := do
  let s ← declareParameters src (parameterIdents function) { suffix }
  match function.child? "body" with
  | some body => walk src body s
  | none => return s

def parameters (s : Scoping) : List Variable := s.vars.filter (·.isParameter)

end Scoping

end Backslice

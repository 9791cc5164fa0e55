import Backslice.Scoping

namespace Backslice

structure Access where
  defs : List Variable := []
  uses : List Variable := []
  deriving DecidableEq, Repr

namespace Access

instance : Append Access where
  append a b := ⟨a.defs ++ b.defs, a.uses ++ b.uses⟩

@[simp] theorem defs_append (a b : Access) : (a ++ b).defs = a.defs ++ b.defs := rfl

@[simp] theorem uses_append (a b : Access) : (a ++ b).uses = a.uses ++ b.uses := rfl

structure Code where
  source : Source
  boundTo : Tree → Option Variable

def reading (vs : List Variable) : Access := { uses := vs }

def isLvalueWrapper (kind : String) : Bool :=
  kind == "subscript_expression" || kind == "field_expression" || kind == "pointer_expression"

/-- The innermost target of a write, through parentheses, subscripts, fields and dereferences, and
whether only a part of it, or what it points to, is written. -/
def target (partly : Bool) (t : Tree) : Option Tree × Bool :=
  if t.kind = "parenthesized_expression" then
    match _h : t.namedChildren with
    | [c] => target partly c
    | _ => (some t, partly)
  else if isLvalueWrapper t.kind then
    match _h : t.child? "argument" with
    | some c => target true c
    | none => (none, true)
  else (some t, partly)
termination_by sizeOf t
decreasing_by
  · exact Tree.sizeOf_lt_of_mem_named (by simp [_h])
  · exact Tree.sizeOf_child?_lt _h

mutual

def around (code : Code) (skipped : Tree.Key) : Tree → List Variable
  | t@⟨_, kind, _, _, _, children⟩ =>
    if t.key = skipped ∨ kind = "parameter_list" then []
    else if kind = "identifier" then (code.boundTo t).toList
    else aroundAll code skipped children

def aroundAll (code : Code) (skipped : Tree.Key) : List Tree → List Variable
  | [] => []
  | t :: ts => around code skipped t ++ aroundAll code skipped ts

end

def ofBase (code : Code) (left base : Tree) (alsoUsed : Bool) : Access :=
  let v := (code.boundTo base).toList
  ⟨v, (if alsoUsed then v else []) ++ around code base.key left⟩

/-- The operator of an assignment; without a field for it, it is the second child. -/
def operatorText (code : Code) (t : Tree) : Except TreeError String :=
  match t.child? "operator" with
  | some op => code.source.text op
  | none =>
    match t.children with
    | _ :: op :: _ => code.source.text op
    | _ => .error .tooFewChildren

def isAddress (code : Code) (t : Tree) : Except TreeError Bool :=
  if t.kind = "pointer_expression" then
    match t.child? "operator" with
    | some op => (code.source.text op).map (· = "&")
    | none => .ok false
  else .ok false

mutual

def ofTree (code : Code) (t : Tree) : Except TreeError Access :=
  if t.kind = "identifier" then .ok (reading (code.boundTo t).toList)
  else if t.kind = "compound_statement" then .ok {}
  else if t.kind = "assignment_expression" then do
    let op ← operatorText code t
    let written ← match _h : t.child? "left" with
      | some left => ofTarget code left (op ≠ "=")
      | none => .error .missingChild
    let read ← match _h : t.child? "right" with
      | some right => ofTree code right
      | none => .error .missingChild
    return written ++ read
  else if t.kind = "update_expression" then
    match _h : t.child? "argument" with
    | some argument => ofTarget code argument true
    | none => .error .missingChild
  else if t.kind = "init_declarator" then ofInit code t
  else if t.kind = "call_expression" then do
    let callee ← match _h : t.child? "function" with
      | some callee => ofTree code callee
      | none => .error .missingChild
    let handed ← match _h : t.child? "arguments" with
      | some list => ofArguments code list.children
      | none => .ok {}
    return callee ++ handed
  else ofTrees code t.children
termination_by 3 * sizeOf t + 1
decreasing_by
  · have := Tree.sizeOf_child?_lt _h
    omega
  · have := Tree.sizeOf_child?_lt _h
    omega
  · have := Tree.sizeOf_child?_lt _h
    omega
  · omega
  · have := Tree.sizeOf_child?_lt _h
    have := list.sizeOf_children_lt
    omega
  · have := Tree.sizeOf_child?_lt _h
    omega
  · have := t.sizeOf_children_lt
    omega

def ofTrees (code : Code) (ts : List Tree) : Except TreeError Access :=
  match ts with
  | [] => .ok {}
  | t :: ts => do
    let first ← ofTree code t
    let rest ← ofTrees code ts
    return first ++ rest
termination_by 3 * sizeOf ts
decreasing_by
  all_goals simp only [List.cons.sizeOf_spec]; omega

def ofTarget (code : Code) (left : Tree) (alsoUsed : Bool) : Except TreeError Access :=
  match target false left with
  | (some base, partly) =>
    if base.kind = "identifier" then .ok (ofBase code left base (alsoUsed || partly))
    else ofTree code left
  | (none, _) => ofTree code left
termination_by 3 * sizeOf left + 2
decreasing_by
  all_goals omega

def ofArgument (code : Code) (t : Tree) : Except TreeError Access := do
  if ← isAddress code t then
    match _h : t.child? "argument" with
    | some argument => ofTarget code argument true
    | none => .error .missingChild
  else ofTree code t
termination_by 3 * sizeOf t + 2
decreasing_by
  · have := Tree.sizeOf_child?_lt _h
    omega
  · omega

def ofArguments (code : Code) (ts : List Tree) : Except TreeError Access :=
  match ts with
  | [] => .ok {}
  | t :: ts => do
    let first ← if t.named then ofArgument code t else .ok {}
    let rest ← ofArguments code ts
    return first ++ rest
termination_by 3 * sizeOf ts
decreasing_by
  all_goals simp only [List.cons.sizeOf_spec]; omega

def ofInit (code : Code) (t : Tree) : Except TreeError Access := do
  let declared ← match _h : t.child? "declarator" with
    | some d => ofDeclarator code d (t.child? "value").isSome
    | none => .error .missingChild
  let value ← match _h : t.child? "value" with
    | some value => ofTree code value
    | none => .ok {}
  return declared ++ value
termination_by 3 * sizeOf t
decreasing_by
  all_goals have := Tree.sizeOf_child?_lt _h; omega

def ofDeclarator (code : Code) (d : Tree) (defines : Bool) : Except TreeError Access :=
  match d.declared? with
  | some ident =>
    let v := (code.boundTo ident).toList
    .ok ⟨if defines then v else [], around code ident.key d⟩
  | none => ofTree code d
termination_by 3 * sizeOf d + 2
decreasing_by omega

end

def ofDeclared (code : Code) (d : Tree) : Except TreeError Access :=
  if d.kind = "init_declarator" then ofInit code d else ofDeclarator code d false

def ofOption (code : Code) : Option Tree → Except TreeError Access
  | some t => ofTree code t
  | none => .ok {}

end Access

end Backslice

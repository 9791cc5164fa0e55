import Backslice.Access
import Backslice.Stmt
import Backslice.Text.Blank

namespace Backslice.Stmt

open Access (Code)

def pointWith (code : Code) (kind : PointKind) (t : Tree) (text : String) :
    Except TreeError Point := do
  let access ← Access.ofTree code t
  return { kind, line := some (code.source.line t), text,
           defs := access.defs.eraseDups, uses := access.uses.eraseDups }

def pointOf (code : Code) (kind : PointKind) (t : Tree) : Except TreeError Point := do
  let text ← code.source.text t
  pointWith code kind t (Text.clean text)

def testOf (code : Code) (kind : PointKind) (place : Tree) (text : String)
    (condition : Option Tree) : Except TreeError Point := do
  let access ← Access.ofOption code condition
  return { kind, line := some (code.source.line place), text, isBranch := condition.isSome,
           defs := access.defs.eraseDups, uses := access.uses.eraseDups }

def declarators (code : Code) (type : String) : List Tree → Except TreeError Stmt
  | [] => .ok .skip
  | d :: ts =>
    if d.field ≠ "declarator" ∨ d.kind = "function_declarator" then declarators code type ts
    else do
      let text ← code.source.text d
      let access ← Access.ofDeclared code d
      let rest ← declarators code type ts
      return .seq (.point { kind := .declaration, line := some (code.source.line d),
                            text := Text.clean (type ++ " " ++ text),
                            defs := access.defs.eraseDups, uses := access.uses.eraseDups }) rest

def declaration (code : Code) (t : Tree) : Except TreeError Stmt := do
  let type ← match t.child? "type" with
    | some type => code.source.text type
    | none => .ok ""
  declarators code type t.children

def forInit (code : Code) (t : Tree) : Except TreeError Stmt :=
  match t.child? "initializer" with
  | none => .ok .skip
  | some init =>
    if init.kind = "declaration" then declaration code init
    else (pointOf code .forInit init).map .point

def conditionText (code : Code) (keyword : String) (t : Tree) : Except TreeError String := do
  let text ← code.source.textOf (t.child? "condition")
  return keyword ++ " " ++ Text.clean text

def alternative? (t : Tree) : Option Tree :=
  match t.child? "alternative" with
  | none => none
  | some a =>
    if a.kind = "else_clause" then a.namedChildren.find? (·.kind != "comment") else some a

theorem sizeOf_alternative?_lt {t c : Tree} (h : alternative? t = some c) :
    sizeOf c < sizeOf t := by
  unfold alternative? at h
  split at h
  · cases h
  · rename_i a ha
    have hlt := Tree.sizeOf_child?_lt ha
    split at h
    · exact Nat.lt_trans (Tree.sizeOf_lt_of_mem_named (List.mem_of_find?_eq_some h)) hlt
    · cases h
      exact hlt

mutual

def ofTree (code : Code) (t : Tree) : Except TreeError Stmt :=
  if t.named = false ∨ t.kind = "comment" then .ok .skip
  else if t.kind = "compound_statement" then ofTrees code none t.children
  else if t.kind = "declaration" then declaration code t
  else if t.kind = "expression_statement" then
    if t.namedChildren.isEmpty then .ok .skip else (pointOf code .expression t).map .point
  else if t.kind = "if_statement" then do
    let text ← conditionText code "if" t
    let test ← testOf code .ifTest t text (t.child? "condition")
    let yes ← match _h : t.child? "consequence" with
      | some c => ofTree code c
      | none => .error .missingChild
    let no ← match _h : alternative? t with
      | some a => ofTree code a
      | none => .ok .skip
    return .branch test yes no
  else if t.kind = "while_statement" then do
    let text ← conditionText code "while" t
    let test ← testOf code .whileTest t text (t.child? "condition")
    let body ← match _h : t.child? "body" with
      | some body => ofTree code body
      | none => .error .missingChild
    return .loop test body
  else if t.kind = "do_statement" then do
    let body ← match _h : t.child? "body" with
      | some body => ofTree code body
      | none => .error .missingChild
    let text ← conditionText code "while" t
    let test ← testOf code .doTest ((t.child? "condition").getD t) text (t.child? "condition")
    return .doLoop body test
  else if t.kind = "for_statement" then do
    let init ← forInit code t
    let text ← match t.child? "condition" with
      | some c => (code.source.text c).map Text.clean
      | none => .ok ";"
    let test ← testOf code .forTest t ("for (" ++ text ++ ")") (t.child? "condition")
    let body ← match _h : t.child? "body" with
      | some body => ofTree code body
      | none => .error .missingChild
    let update ← match t.child? "update" with
      | some u => (pointOf code .forUpdate u).map some
      | none => .ok none
    return .seq init (.forLoop test body update)
  else if t.kind = "for_range_loop" then
    match _h : t.child? "body" with
    | none => .error .missingChild
    | some body => do
      let text ← code.source.header t body
      let test ← testOf code .rangeTest t (Text.clean text) (t.child? "right")
      let v := ((t.child? "declarator").bind (·.declared?)).bind code.boundTo
      let test := { test with defs := (test.defs ++ v.toList).eraseDups }
      let body ← ofTree code body
      return .loop test body
  else if t.kind = "switch_statement" then do
    let text ← conditionText code "switch" t
    let test ← testOf code .switchTest t text (t.child? "condition")
    match _h : t.child? "body" with
    | some body =>
      let arms ← ofArms code body.children
      let hasDefault := body.namedChildren.any fun c =>
        c.kind == "case_statement" && (c.child? "value").isNone
      return .switch test hasDefault arms
    | none => return .switch test false .skip
  else if t.kind = "break_statement" then
    (pointWith code .breakJump t "break").map .breakJump
  else if t.kind = "continue_statement" then
    (pointWith code .continueJump t "continue").map .continueJump
  else if t.kind = "return_statement" then (pointOf code .returnJump t).map .returnJump
  else if t.kind = "goto_statement" then do
    let p ← pointOf code .gotoJump t
    let target ← code.source.textOf (t.child? "label")
    return .gotoJump p target
  else if t.kind = "labeled_statement" then
    match t.child? "label" with
    | none => .error .missingChild
    | some labelNode => do
      let name ← code.source.text labelNode
      let p : Point := { kind := .label, line := some (code.source.line t), text := name ++ ":" }
      let body ← ofTrees code (some labelNode.key) t.children
      return .seq (.label p name) body
  else (pointOf code .statement t).map .point
termination_by 2 * sizeOf t + 1
decreasing_by
  · have := t.sizeOf_children_lt
    omega
  · have := sizeOf_alternative?_lt _h
    omega
  · have := Tree.sizeOf_child?_lt _h
    omega
  · have := Tree.sizeOf_child?_lt _h
    omega
  · have := Tree.sizeOf_child?_lt _h
    omega
  · have := Tree.sizeOf_child?_lt _h
    omega
  · have := Tree.sizeOf_child?_lt _h
    omega
  · have := Tree.sizeOf_child?_lt _h
    have := body.sizeOf_children_lt
    omega
  · have := t.sizeOf_children_lt
    omega

def ofTrees (code : Code) (skipped : Option Tree.Key) (ts : List Tree) : Except TreeError Stmt :=
  match ts with
  | [] => .ok .skip
  | t :: ts => do
    let first ← if some t.key = skipped then .ok .skip else ofTree code t
    let rest ← ofTrees code skipped ts
    return .seq first rest
termination_by 2 * sizeOf ts
decreasing_by
  all_goals simp only [List.cons.sizeOf_spec]; omega

def ofArms (code : Code) (ts : List Tree) : Except TreeError Stmt :=
  match ts with
  | [] => .ok .skip
  | t :: ts => do
    let first ←
      if t.named ∧ t.kind = "case_statement" then ofCase code t else ofTree code t
    let rest ← ofArms code ts
    return .seq first rest
termination_by 2 * sizeOf ts
decreasing_by
  all_goals simp only [List.cons.sizeOf_spec]; omega

def ofCase (code : Code) (t : Tree) : Except TreeError Stmt := do
  let text ← match t.child? "value" with
    | some value => (code.source.text value).map fun s => "case " ++ Text.clean s
    | none => .ok "default"
  let p : Point := { kind := .caseLabel, line := some (code.source.line t), text }
  let body ← ofTrees code ((t.child? "value").map (·.key)) t.children
  return .seq (.caseLabel p) body
termination_by 2 * sizeOf t + 1
decreasing_by
  have := t.sizeOf_children_lt
  omega

end

def ofFunction (code : Code) (function : Tree) : Except TreeError Stmt :=
  match function.child? "body" with
  | some body => ofTree code body
  | none => .ok .skip

end Backslice.Stmt

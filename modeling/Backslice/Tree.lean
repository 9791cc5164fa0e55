namespace Backslice

structure Tree where
  named : Bool
  kind : String
  field : String
  start : Nat
  stop : Nat
  children : List Tree

inductive TreeError where
  | missingChild
  | tooFewChildren
  | notText
  deriving DecidableEq, Repr

namespace Tree

/-- The bytes and the kind of a node. Nodes with one key are taken for one. -/
structure Key where
  start : Nat
  stop : Nat
  kind : String
  deriving DecidableEq, Repr

def key (t : Tree) : Key := ⟨t.start, t.stop, t.kind⟩

def namedChildren (t : Tree) : List Tree := t.children.filter (·.named)

def child? (t : Tree) (field : String) : Option Tree := t.children.find? (·.field == field)

theorem sizeOf_children_lt (t : Tree) : sizeOf t.children < sizeOf t := by
  cases t
  simp only [mk.sizeOf_spec]
  omega

theorem sizeOf_lt_of_mem {t c : Tree} (h : c ∈ t.children) : sizeOf c < sizeOf t :=
  Nat.lt_trans (List.sizeOf_lt_of_mem h) t.sizeOf_children_lt

theorem mem_children_of_child? {t c : Tree} {field : String} (h : t.child? field = some c) :
    c ∈ t.children := List.mem_of_find?_eq_some h

theorem sizeOf_child?_lt {t c : Tree} {field : String} (h : t.child? field = some c) :
    sizeOf c < sizeOf t := sizeOf_lt_of_mem (mem_children_of_child? h)

theorem sizeOf_lt_of_mem_named {t c : Tree} (h : c ∈ t.namedChildren) : sizeOf c < sizeOf t :=
  sizeOf_lt_of_mem (List.mem_filter.mp h).1

def isWrappingDeclarator (kind : String) : Bool :=
  kind == "pointer_declarator" || kind == "array_declarator" || kind == "init_declarator" ||
    kind == "function_declarator" || kind == "reference_declarator"

def endsWithDeclarator (kind : String) : Bool :=
  "declarator".toList.reverse.isPrefixOf kind.toList.reverse

def innerDeclarator? (t : Tree) : Option Tree :=
  (t.child? "declarator").or
    (t.namedChildren.find? fun c => endsWithDeclarator c.kind || c.kind == "identifier")

theorem sizeOf_innerDeclarator?_lt {t c : Tree} (h : t.innerDeclarator? = some c) :
    sizeOf c < sizeOf t := by
  rw [innerDeclarator?, Option.or_eq_some_iff] at h
  rcases h with h | ⟨_, h⟩
  · exact sizeOf_child?_lt h
  · exact sizeOf_lt_of_mem_named (List.mem_of_find?_eq_some h)

/-- The identifier that a declarator declares: `*p`, `a[10]` and `(*fp)(int)` all end at one. -/
def declared? (t : Tree) : Option Tree :=
  if t.kind = "identifier" then some t
  else if isWrappingDeclarator t.kind then
    match _h : t.innerDeclarator? with
    | some c => c.declared?
    | none => none
  else if t.kind = "parenthesized_declarator" then
    match _h : t.namedChildren with
    | c :: _ => c.declared?
    | [] => none
  else none
termination_by sizeOf t
decreasing_by
  · exact sizeOf_innerDeclarator?_lt _h
  · exact sizeOf_lt_of_mem_named (by simp [_h])

def functionDeclarator? (t : Tree) : Option Tree :=
  match _h : t.child? "declarator" with
  | none => none
  | some d => if d.kind = "function_declarator" then some d else d.functionDeclarator?
termination_by sizeOf t
decreasing_by exact sizeOf_child?_lt _h

mutual

def functions : Tree → List Tree
  | t@⟨_, kind, _, _, _, children⟩ =>
    (if kind = "function_definition" then [t] else []) ++ functionsOf children

def functionsOf : List Tree → List Tree
  | [] => []
  | t :: ts => t.functions ++ functionsOf ts

end

end Tree

end Backslice

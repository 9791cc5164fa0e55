import Backslice.RawText
import Backslice.Tree

namespace Backslice

/-- A source text, in bytes, with the tree of it. `damaged` tells that the parser met errors. -/
structure Source where
  bytes : ByteArray
  root : Tree
  damaged : Bool

namespace Source

def slice (src : Source) (start stop : Nat) : Except TreeError String :=
  let size := src.bytes.size
  match String.fromUTF8? (src.bytes.extract (min start size) (min stop size)) with
  | some s => .ok s
  | none => .error .notText

def text (src : Source) (t : Tree) : Except TreeError String := src.slice t.start t.stop

def textOf (src : Source) : Option Tree → Except TreeError String
  | some t => src.text t
  | none => .error .missingChild

def line (src : Source) (t : Tree) : Nat :=
  (src.bytes.toList.take t.start).countP (· == 10) + 1

/-- The part of a node's text before a body inside it. Where the body starts before the node, as
many bytes are left off at the node's end. -/
def header (src : Source) (t body : Tree) : Except TreeError String :=
  let stop := min t.stop src.bytes.size
  if t.start ≤ body.start then src.slice t.start (min stop body.start)
  else src.slice t.start (stop - (t.start - body.start))

def behindColons (seen : List Char) : List Char → List Char
  | ':' :: ':' :: cs => behindColons [] cs
  | c :: cs => behindColons (c :: seen) cs
  | [] => seen.reverse

def unqualified (name : String) : String := String.ofList (behindColons [] name.toList)

def functionName? (src : Source) (function : Tree) : Except TreeError (Option String) :=
  match function.functionDeclarator?.bind (·.child? "declarator") with
  | some t => (src.text t).map fun s => some (unqualified s)
  | none => .ok none

def findFunction? (src : Source) (wanted : GivenText) : List Tree → Except TreeError (Option Tree)
  | [] => .ok none
  | t :: ts => do
    if ((← src.functionName? t).any fun name => wanted.is name) then return some t
    src.findFunction? wanted ts

def functions (src : Source) : Except TreeError (List (Option String × Nat)) :=
  src.root.functions.mapM fun t => do return (← src.functionName? t, src.line t)

end Source

end Backslice

import Backslice.Sorting
import Backslice.Text.Integer
import Backslice.Text.Search

namespace Backslice

inductive Label where
  | entry
  | line (n : Int)
  deriving DecidableEq, Repr

namespace Label

def entryText : String := "entry"

def text : Label → String
  | entry => entryText
  | line n => toString n

def ofLine : Option Int → Label
  | none => entry
  | some n => line n

def parse (s : String) : Except IntegerError Label :=
  if s = entryText then .ok entry else (Text.readInt s).map line

def precedes : Label → Label → Bool
  | entry, _ => true
  | line _, entry => false
  | line m, line n => m ≤ n

def parseAll : List String → Except IntegerError (List (Label × String))
  | [] => .ok []
  | s :: ss => do
    let l ← parse s
    let rest ← parseAll ss
    return (l, s) :: rest

/-- Texts of labels in the order of the labels; texts of one label keep their order. -/
def sort (texts : List String) : Except IntegerError (List String) := do
  let keyed ← parseAll texts
  return (sortBy (fun a b => a.1.precedes b.1) keyed).map (·.2)

def saved (texts : List String) : String := String.join (texts.map (· ++ "\t"))

def padLeft (width : Nat) (s : String) : String :=
  String.ofList (List.replicate (width - s.length) ' ') ++ s

def listingLine (code : List String) : Label → List String
  | entry => [padLeft 6 entryText ++ ": <函数入口>"]
  | line n =>
    if 1 ≤ n then
      match code[n.toNat - 1]? with
      | some text => ["行" ++ padLeft 3 (toString n) ++ ": " ++ text]
      | none => []
    else []

def listing (code : String) (texts : List String) : Except IntegerError String := do
  let keyed ← parseAll texts
  let ordered := (sortBy (fun a b => a.1.precedes b.1) keyed).map (·.1)
  let head := s!"切片包含 {ordered.length} 行代码:"
  let rule := String.ofList (List.replicate 40 '-')
  let lines := [head, rule] ++ ordered.flatMap (listingLine (Text.pieces '\n' code)) ++ [""]
  return String.join (lines.map (· ++ "\n"))

end Label

end Backslice

import Backslice.Decimal.Layout
import Backslice.Text.Quoted

namespace Backslice

inductive Json where
  | null
  | bool (b : Bool)
  | int (n : Int)
  | float (x : Float)
  | text (s : RawText)
  | list (items : List Json)
  | object (fields : List (RawText × Json))
  deriving Inhabited

namespace Json

def isTrue : Json → Bool
  | null => false
  | bool b => b
  | int n => n != 0
  | float x => x != 0.0
  | text s => !s.isEmpty
  | list items => !items.isEmpty
  | object fields => !fields.isEmpty

mutual

def nested : Json → String
  | null => "None"
  | bool true => "True"
  | bool false => "False"
  | int n => toString n
  | float x => Decimal.text x
  | text s => Text.quote s
  | list items => "[" ++ ", ".intercalate (nestedItems items) ++ "]"
  | object fields => "\x7b" ++ ", ".intercalate (nestedFields fields) ++ "\x7d"

def nestedItems : List Json → List String
  | [] => []
  | v :: vs => nested v :: nestedItems vs

def nestedFields : List (RawText × Json) → List String
  | [] => []
  | (k, v) :: fs => (Text.quote k ++ ": " ++ nested v) :: nestedFields fs

end

def shown : Json → String
  | text s => s.shown
  | v => nested v

def field? (name : String) : Json → Option Json
  | object fields => (fields.reverse.find? (·.1 = (name : RawText))).map (·.2)
  | _ => none

end Json

end Backslice

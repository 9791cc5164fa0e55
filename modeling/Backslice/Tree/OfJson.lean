import Backslice.Json.Value
import Backslice.Tree

namespace Backslice.Tree

mutual

def ofJson? : Json → Option Tree
  | .list [.int named, .text kind, .text field, .int start, .int stop, .list children] => do
    let children ← ofJsons? children
    return ⟨named != 0, kind.shown, field.shown, start.toNat, stop.toNat, children⟩
  | _ => none

def ofJsons? : List Json → Option (List Tree)
  | [] => some []
  | j :: js => do
    let t ← ofJson? j
    let ts ← ofJsons? js
    return t :: ts

end

def empty : Tree := ⟨true, "source", "", 0, 0, []⟩

end Backslice.Tree

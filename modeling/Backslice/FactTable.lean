import Backslice.Dependence
import Backslice.Table

namespace Backslice

structure FactTable where
  lines : Table String (Option Int)
  uses : Table String (List RawText) := {}
  frontier : Table String (List String) := {}
  defUses : Table String (List String) := {}
  reaching : Table (RawText × String) (List String) := {}
  vars : List String := []

def FactTable.facts (t : FactTable) : Facts String where
  units := t.lines.keys
  usedNames u := (t.uses.get? u).getD []
  frontier u := (t.frontier.get? u).getD []
  usesOf u := (t.defUses.get? u).getD []
  reachingDefs x u := (t.reaching.get? (x.name, u)).getD []
  declared := t.vars.eraseDups.map fun (x : String) => { name := x, sourceName := x }
  line u := (t.lines.get? u).getD none
  caption u := u
  isBranch _ := false

end Backslice

import Backslice.Analysis
import Backslice.Text.Integer

namespace Backslice

inductive Slot (α : Type) where
  | filled (a : α)
  | blank
  deriving DecidableEq, Repr

def Slot.ofText (s : String) : Slot String := if s = "--" then .blank else .filled s

structure Command where
  file : Slot String := .blank
  output : Slot String := .blank
  line : Slot Int := .blank
  name : Slot String := .blank
  function : Option (Slot String) := none
  language : Option (Slot String) := none
  config : Option (Slot String) := none
  picture : Option (Slot String) := none
  printsEdges : Bool := false
  stepBudget : Option (Slot Int) := none
  logLevel : Option (Slot String) := none
  listing : Bool := false
  deriving DecidableEq, Repr

inductive UsageError where
  | rejected
  | help
  deriving DecidableEq, Repr

namespace Command

inductive Opt where
  | help
  | function
  | language
  | config
  | picture
  | printsEdges
  | stepBudget
  | logLevel
  | listing
  deriving DecidableEq, Repr

def optionNames : List (String × Opt) :=
  [("-h", .help), ("--help", .help), ("--function", .function), ("--language", .language),
   ("--config", .config), ("--dot", .picture), ("--print-pdg", .printsEdges),
   ("--step-budget", .stepBudget), ("--log-level", .logLevel), ("--show", .listing)]

def Opt.takesValue : Opt → Bool
  | help | printsEdges | listing => false
  | _ => true

inductive Token where
  | value (s : String)
  | option (o : Opt) (attached : Option String)
  | unknown
  deriving DecidableEq, Repr

def splitAtEquals (cs : List Char) : String × Option String :=
  let name := String.ofList (cs.takeWhile (· != '='))
  match cs.dropWhile (· != '=') with
  | _ :: rest => (name, some (String.ofList rest))
  | [] => (name, none)

def withoutLineEnd (cs : List Char) : List Char :=
  if cs.getLast? = some '\n' then cs.dropLast else cs

def isNegativeNumber (cs : List Char) : Bool :=
  match withoutLineEnd cs with
  | '-' :: cs =>
    let isDigit := fun c => (Text.digitValue? c).isSome
    let whole := cs.takeWhile isDigit
    match cs.dropWhile isDigit with
    | [] => !whole.isEmpty
    | '.' :: rest => !rest.isEmpty && rest.all isDigit
    | _ => false
  | _ => false

def beginningWith (start : String) : List Opt :=
  (optionNames.filter fun o => start.toList.isPrefixOf o.1.toList).map (·.2)

def shortHelp (letters : String) : Option String :=
  if letters ≠ "" ∧ letters.toList.all (· == 'h') then none else some letters

def classify (s : String) : Except UsageError Token :=
  let cs := s.toList
  match cs with
  | '-' :: second :: more =>
    match optionNames.lookup s with
    | some o => .ok (.option o none)
    | none =>
      let (name, attached) := splitAtEquals cs
      match attached, optionNames.lookup name with
      | some v, some o => .ok (.option o (if second = 'h' then shortHelp v else some v))
      | _, _ =>
        let candidates : List (Opt × Option String) :=
          if second = '-' then (beginningWith name).map fun o => (o, attached)
          else if second = 'h' then [(.help, shortHelp (String.ofList more))]
          else []
        match candidates with
        | [(o, v)] => .ok (.option o v)
        | _ :: _ => .error .rejected
        | [] =>
          if isNegativeNumber cs || cs.contains ' ' then .ok (.value s) else .ok .unknown
  | _ => .ok (.value s)

def tokens : List String → Except UsageError (List Token × Option (List String))
  | [] => .ok ([], none)
  | s :: ss =>
    if s = "--" then .ok ([], some ss)
    else do
      let t ← classify s
      let (ts, rest) ← tokens ss
      return (t :: ts, rest)

def readSlot {α : Type} (read : String → Option α) : Slot String → Except UsageError (Slot α)
  | .blank => .ok .blank
  | .filled s =>
    match read s with
    | some a => .ok (.filled a)
    | none => .error .rejected

def readInteger : Slot String → Except UsageError (Slot Int) :=
  readSlot fun s => (Text.readInt s).toOption

def readChoice (isChoice : String → Bool) : Slot String → Except UsageError (Slot String) :=
  readSlot fun s => if isChoice s then some s else none

def withOption (c : Command) (o : Opt) (v : Slot String) : Except UsageError Command :=
  match o with
  | .function => .ok { c with function := some v }
  | .language => do return { c with language := some (← readChoice languages.contains v) }
  | .config => .ok { c with config := some v }
  | .picture => .ok { c with picture := some v }
  | .stepBudget => do return { c with stepBudget := some (← readInteger v) }
  | .logLevel => do
    return { c with logLevel := some (← readChoice (fun s => (Severity.ofName? s).isSome) v) }
  | .help | .printsEdges | .listing => .error .rejected

def withFlag (c : Command) (o : Opt) : Except UsageError Command :=
  match o with
  | .help => .error .help
  | .printsEdges => .ok { c with printsEdges := true }
  | .listing => .ok { c with listing := true }
  | _ => .error .rejected

structure Progress where
  command : Command := {}
  values : Nat := 0
  leftOver : Bool := false
  afterValue : Bool := false
  deriving DecidableEq, Repr

namespace Progress

def addValue (p : Progress) (v : Slot String) : Except UsageError Progress :=
  let taken := fun (c : Command) =>
    { p with command := c, values := p.values + 1, afterValue := true }
  match p.values with
  | 0 => .ok (taken { p.command with file := v })
  | 1 => .ok (taken { p.command with output := v })
  | 2 => do return taken { p.command with line := ← readInteger v }
  | 3 => .ok (taken { p.command with name := v })
  | _ => .ok { p with leftOver := true, afterValue := false }

def addOption (p : Progress) (o : Opt) (v : Slot String) : Except UsageError Progress := do
  return { p with command := ← p.command.withOption o v, afterValue := false }

def addFlag (p : Progress) (o : Opt) : Except UsageError Progress := do
  return { p with command := ← p.command.withFlag o, afterValue := false }

def addAll : List Token → Progress → Except UsageError Progress
  | [], p => .ok p
  | .value s :: ts, p => do addAll ts (← p.addValue (.filled s))
  | .unknown :: ts, p => addAll ts { p with leftOver := true, afterValue := false }
  | .option o (some v) :: ts, p =>
    if o.takesValue then do addAll ts (← p.addOption o (.ofText v)) else .error .rejected
  | .option o none :: .value v :: ts, p =>
    if o.takesValue then do addAll ts (← p.addOption o (.filled v))
    else do addAll ts (← (← p.addFlag o).addValue (.filled v))
  | .option o none :: ts, p =>
    if o.takesValue then .error .rejected else do addAll ts (← p.addFlag o)

def addSlots : List (Slot String) → Progress → Except UsageError Progress
  | [], p => .ok p
  | v :: vs, p => do addSlots vs (← p.addValue v)

/-- Takes up the arguments behind `--`. The mark itself belongs to the value before it, or else to
the value behind it, which then may be `--` itself; without such a value it is left over. -/
def addPlain (p : Progress) (arguments : List String) : Except UsageError Progress :=
  if p.afterValue then addSlots (arguments.map .ofText) p
  else match arguments with
    | s :: ss =>
      if p.values < 4 then addSlots (.filled s :: ss.map .ofText) p
      else .ok { p with leftOver := true }
    | [] => .ok { p with leftOver := true }

end Progress

def parse (arguments : List String) : Except UsageError Command := do
  let (ts, rest) ← tokens arguments
  let p ← Progress.addAll ts {}
  let p ← match rest with
    | some plain => p.addPlain plain
    | none => .ok p
  if p.values = 4 ∧ p.leftOver = false then return p.command else .error .rejected

end Command

end Backslice

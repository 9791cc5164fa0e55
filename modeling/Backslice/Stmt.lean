import Backslice.RawText

namespace Backslice

/-- A variable of a function. Where an identifier is declared again, the internal `name` differs
from the name in the source. -/
structure Variable where
  name : RawText
  sourceName : String
  line : Option Nat := none
  isParameter : Bool := false
  deriving DecidableEq, Repr

inductive PointKind where
  | entry
  | declaration
  | expression
  | statement
  | ifTest
  | whileTest
  | doTest
  | forInit
  | forTest
  | forUpdate
  | rangeTest
  | switchTest
  | caseLabel
  | breakJump
  | continueJump
  | returnJump
  | gotoJump
  | label
  | custom (name : String)
  deriving DecidableEq, Repr

def PointKind.name : PointKind → String
  | entry => "entry"
  | declaration => "declaration"
  | expression => "expression"
  | statement => "statement"
  | ifTest => "if"
  | whileTest => "while"
  | doTest => "do_while"
  | forInit => "for_init"
  | forTest => "for"
  | forUpdate => "for_update"
  | rangeTest => "for_range"
  | switchTest => "switch"
  | caseLabel => "case"
  | breakJump => "break"
  | continueJump => "continue"
  | returnJump => "return"
  | gotoJump => "goto"
  | label => "label"
  | custom name => name

structure Point where
  kind : PointKind
  line : Option Int
  text : String := ""
  isBranch : Bool := false
  defs : List Variable := []
  uses : List Variable := []
  deriving DecidableEq, Repr

inductive Stmt where
  | skip
  | point (p : Point)
  | seq (first second : Stmt)
  | branch (test : Point) (yes no : Stmt)
  | loop (test : Point) (body : Stmt)
  | doLoop (body : Stmt) (test : Point)
  /-- A loop with an update behind each round. A test that is no branch never leaves the loop. -/
  | forLoop (test : Point) (body : Stmt) (update : Option Point)
  | switch (test : Point) (hasDefault : Bool) (body : Stmt)
  /-- A case label directly in the body of a `switch`; its text labels the edge to it. -/
  | caseLabel (p : Point)
  | breakJump (p : Point)
  | continueJump (p : Point)
  | returnJump (p : Point)
  | gotoJump (p : Point) (label : String)
  | label (p : Point) (name : String)
  deriving DecidableEq, Repr

end Backslice

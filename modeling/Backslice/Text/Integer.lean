import Backslice.Text.Blank
import Backslice.Text.Quoted

namespace Backslice

inductive IntegerError where
  | notInteger (text : String)
  | tooManyDigits (count : Nat)
  deriving DecidableEq, Repr

namespace Text

def maxDigits : Nat := 4300

def shownQuote : Nat := 200

end Text

def IntegerError.message : IntegerError → String
  | notInteger text =>
    "invalid literal for int() with base 10: " ++
      String.ofList ((Text.quote text).toList.take Text.shownQuote)
  | tooManyDigits count =>
    s!"Exceeds the limit ({Text.maxDigits} digits) for integer string conversion: " ++
      s!"value has {count} digits; use sys.set_int_max_str_digits() to increase the limit"

namespace Text

def zeroDigits : List Nat :=
  [0x30, 0x660, 0x6F0, 0x7C0, 0x966, 0x9E6, 0xA66, 0xAE6, 0xB66, 0xBE6, 0xC66, 0xCE6, 0xD66,
   0xDE6, 0xE50, 0xED0, 0xF20, 0x1040, 0x1090, 0x17E0, 0x1810, 0x1946, 0x19D0, 0x1A80, 0x1A90,
   0x1B50, 0x1BB0, 0x1C40, 0x1C50, 0xA620, 0xA8D0, 0xA900, 0xA9D0, 0xA9F0, 0xAA50, 0xABF0,
   0xFF10, 0x104A0, 0x10D30, 0x11066, 0x110F0, 0x11136, 0x111D0, 0x112F0, 0x11450, 0x114D0,
   0x11650, 0x116C0, 0x11730, 0x118E0, 0x11950, 0x11C50, 0x11D50, 0x11DA0, 0x16A60, 0x16AC0,
   0x16B50, 0x1D7CE, 0x1D7D8, 0x1D7E2, 0x1D7EC, 0x1D7F6, 0x1E140, 0x1E2F0, 0x1E950, 0x1FBF0]

def digitValue? (c : Char) : Option Nat :=
  (zeroDigits.find? fun z => z ≤ c.toNat && c.toNat < z + 10).map fun z => c.toNat - z

def isPadding (c : Char) : Bool := isBlank c && !(0x1C ≤ c.toNat && c.toNat ≤ 0x1F)

/-- The digits that go on behind a digit, and the text behind them. Each underscore stands between
two digits, or there is no reading. -/
def moreDigits : List Char → Option (List Nat × List Char)
  | [] => some ([], [])
  | ['_'] => none
  | '_' :: c :: cs => do
    let d ← digitValue? c
    let (ds, rest) ← moreDigits cs
    return (d :: ds, rest)
  | c :: cs =>
    match digitValue? c with
    | some d => (moreDigits cs).map fun (ds, rest) => (d :: ds, rest)
    | none => some ([], c :: cs)

def leadingDigits : List Char → Option (List Nat × List Char)
  | [] => none
  | c :: cs => do
    let d ← digitValue? c
    let (ds, rest) ← moreDigits cs
    return (d :: ds, rest)

def splitSign : List Char → Int × List Char
  | '-' :: cs => (-1, cs)
  | '+' :: cs => (1, cs)
  | cs => (1, cs)

/-- The integer that a text holds. Too many digits are a fault of their own, whatever stands behind
them. -/
def readInt (s : String) : Except IntegerError Int :=
  let (sign, body) := splitSign (s.toList.dropWhile isPadding)
  match leadingDigits body with
  | none => .error (.notInteger s)
  | some (ds, rest) =>
    if maxDigits < ds.length then .error (.tooManyDigits ds.length)
    else if rest.all isPadding then .ok (sign * (ds.foldl (fun n d => 10 * n + d) 0 : Nat))
    else .error (.notInteger s)

end Text

end Backslice

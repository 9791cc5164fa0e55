import Backslice.RawText
import Backslice.Text.Printable

namespace Backslice.Text

def hexDigits (width n : Nat) : String :=
  let ds := Nat.toDigits 16 n
  String.ofList (List.replicate (width - ds.length) '0' ++ ds)

def quoteMark (t : RawText) : Char :=
  if t.points.contains (.char '\'') && !t.points.contains (.char '"') then '"' else '\''

def escapeChar (mark c : Char) : String :=
  if c == mark || c == '\\' then String.ofList ['\\', c]
  else if c == '\n' then "\\n"
  else if c == '\r' then "\\r"
  else if c == '\t' then "\\t"
  else if isPrintable c then String.singleton c
  else if c.toNat < 0x100 then "\\x" ++ hexDigits 2 c.toNat
  else if c.toNat < 0x10000 then "\\u" ++ hexDigits 4 c.toNat
  else "\\U" ++ hexDigits 8 c.toNat

def escapePoint (mark : Char) : CodePoint → String
  | .char c => escapeChar mark c
  | .half n => "\\u" ++ hexDigits 4 n

def quote (t : RawText) : String :=
  let mark := quoteMark t
  String.singleton mark ++ String.join (t.points.map (escapePoint mark)) ++ String.singleton mark

end Backslice.Text

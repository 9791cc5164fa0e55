import Backslice.Json.Value
import Backslice.Text.Integer

namespace Backslice.Json

inductive ReadError where
  | malformed
  | tooManyDigits (count : Nat)
  | listTooDeep
  | objectTooDeep
  deriving DecidableEq, Repr

def orMalformed {α : Type} : Option α → Except ReadError α
  | some a => .ok a
  | none => .error .malformed

def skipBlanks (cs : List Char) : List Char :=
  cs.dropWhile fun c => c == ' ' || c == '\t' || c == '\n' || c == '\r'

def expect : (word cs : List Char) → Option (List Char)
  | [], cs => some cs
  | w :: ws, c :: cs => if w == c then expect ws cs else none
  | _ :: _, [] => none

def hexValue? (c : Char) : Option Nat :=
  if '0' ≤ c && c ≤ '9' then some (c.toNat - '0'.toNat)
  else if 'a' ≤ c && c ≤ 'f' then some (c.toNat - 'a'.toNat + 10)
  else if 'A' ≤ c && c ≤ 'F' then some (c.toNat - 'A'.toNat + 10)
  else none

def readUnit : List Char → Option (Nat × List Char)
  | a :: b :: c :: d :: cs => do
    let a ← hexValue? a
    let b ← hexValue? b
    let c ← hexValue? c
    let d ← hexValue? d
    return (((a * 16 + b) * 16 + c) * 16 + d, cs)
  | _ => none

def isHighUnit (n : Nat) : Bool := 0xD800 ≤ n && n < 0xDC00

def isLowUnit (n : Nat) : Bool := 0xDC00 ≤ n && n < 0xE000

def isHalf (n : Nat) : Bool := isHighUnit n || isLowUnit n

def ofUnit (n : Nat) : CodePoint := if isHalf n then .half n else .char (Char.ofNat n)

def readUnits (cs : List Char) : Option (CodePoint × List Char) := do
  let (n, rest) ← readUnit cs
  match rest with
  | '\\' :: 'u' :: more =>
    match readUnit more with
    | some (m, rest') =>
      if isHighUnit n && isLowUnit m then
        return (.char (Char.ofNat (0x10000 + (n - 0xD800) * 0x400 + (m - 0xDC00))), rest')
      else return (ofUnit n, rest)
    | none => return (ofUnit n, rest)
  | _ => return (ofUnit n, rest)

def plainEscape? : Char → Option Char
  | '"' => some '"'
  | '\\' => some '\\'
  | '/' => some '/'
  | 'b' => some '\x08'
  | 'f' => some '\x0c'
  | 'n' => some '\n'
  | 'r' => some '\r'
  | 't' => some '\t'
  | _ => none

def readText : (fuel : Nat) → (acc : List CodePoint) → List Char → Option (RawText × List Char)
  | 0, _, _ => none
  | fuel + 1, acc, cs =>
    match cs with
    | [] => none
    | '"' :: rest => some (⟨acc.reverse⟩, rest)
    | '\\' :: 'u' :: rest => do
      let (p, rest) ← readUnits rest
      readText fuel (p :: acc) rest
    | '\\' :: e :: rest => do
      let c ← plainEscape? e
      readText fuel (.char c :: acc) rest
    | c :: rest => if c.toNat < 0x20 then none else readText fuel (.char c :: acc) rest

def isDigit (c : Char) : Bool := '0' ≤ c && c ≤ '9'

def digitsValue (ds : List Char) : Nat := ds.foldl (fun n c => 10 * n + (c.toNat - '0'.toNat)) 0

def readFraction : List Char → Option (List Char × List Char)
  | '.' :: cs =>
    match cs.takeWhile isDigit with
    | [] => none
    | ds => some (ds, cs.dropWhile isDigit)
  | _ => none

def readExponent : List Char → Option (Int × List Char)
  | e :: cs =>
    if e == 'e' || e == 'E' then
      let (negative, body) : Bool × List Char :=
        match cs with
        | '-' :: rest => (true, rest)
        | '+' :: rest => (false, rest)
        | rest => (false, rest)
      match body.takeWhile isDigit with
      | [] => none
      | ds =>
        let n : Int := digitsValue ds
        some (if negative then -n else n, body.dropWhile isDigit)
    else none
  | [] => none

def decimalFloat (digits : Nat) (exponent : Int) : Float :=
  -- far outside the range of a double the result is settled and the power need not be computed
  let size := (Nat.toDigits 10 digits).length
  if digits = 0 then 0.0
  else if 400 < exponent + size then 1.0 / 0.0
  else if exponent + size < -400 then 0.0
  else Float.ofScientific digits (exponent < 0) exponent.natAbs

def readWhole (cs : List Char) : Option (List Char) :=
  match cs with
  | '0' :: _ => some ['0']
  | _ => match cs.takeWhile isDigit with
    | [] => none
    | ds => some ds

def readNumber (negative : Bool) (cs : List Char) : Except ReadError (Json × List Char) := do
  let whole ← orMalformed (readWhole cs)
  let rest := cs.drop whole.length
  let fraction := readFraction rest
  let rest := (fraction.map (·.2)).getD rest
  let exponent := readExponent rest
  let rest := (exponent.map (·.2)).getD rest
  if fraction.isNone && exponent.isNone then
    if Text.maxDigits < whole.length then throw (.tooManyDigits whole.length)
    let n : Int := digitsValue whole
    return (int (if negative then -n else n), rest)
  else
    let places := (fraction.map (·.1)).getD []
    let e := (exponent.map (·.1)).getD 0 - places.length
    let x := decimalFloat (digitsValue (whole ++ places)) e
    return (float (if negative then -x else x), rest)

/-- The fields with the value of a repeated name replaced: the place is that of the first, the
value that of the last. -/
def putField (fields : List (RawText × Json)) (name : RawText) (v : Json) :
    List (RawText × Json) :=
  if fields.any (·.1 = name) then fields.map fun f => if f.1 = name then (name, v) else f
  else fields ++ [(name, v)]

def readWord (word : String) (v : Json) (cs : List Char) : Except ReadError (Json × List Char) :=
  (orMalformed (expect word.toList cs)).map fun rest => (v, rest)

mutual

/-- A value; `depth` is the number of lists and objects that may still be opened inside each
other. -/
def readValue : (fuel depth : Nat) → List Char → Except ReadError (Json × List Char)
  | 0, _, _ => .error .malformed
  | fuel + 1, depth, cs =>
    match cs with
    | '"' :: rest => do
      let (s, rest) ← orMalformed (readText (rest.length + 1) [] rest)
      return (text s, rest)
    | '[' :: rest =>
      if depth = 0 then .error .listTooDeep
      else match skipBlanks rest with
        | ']' :: rest => .ok (list [], rest)
        | rest => readItems fuel (depth - 1) [] rest
    | '\x7b' :: rest =>
      if depth = 0 then .error .objectTooDeep
      else match skipBlanks rest with
        | '\x7d' :: rest => .ok (object [], rest)
        | rest => readFields fuel (depth - 1) [] rest
    | 'n' :: rest => readWord "ull" null rest
    | 't' :: rest => readWord "rue" (bool true) rest
    | 'f' :: rest => readWord "alse" (bool false) rest
    | 'N' :: rest => readWord "aN" (float (0.0 / 0.0)) rest
    | 'I' :: rest => readWord "nfinity" (float (1.0 / 0.0)) rest
    | '-' :: 'I' :: rest => readWord "nfinity" (float (-1.0 / 0.0)) rest
    | '-' :: rest => readNumber true rest
    | rest => readNumber false rest

def readItems : (fuel depth : Nat) → (acc : List Json) → List Char →
    Except ReadError (Json × List Char)
  | 0, _, _, _ => .error .malformed
  | fuel + 1, depth, acc, cs => do
    let (v, rest) ← readValue fuel depth cs
    match skipBlanks rest with
    | ',' :: rest => readItems fuel depth (v :: acc) (skipBlanks rest)
    | ']' :: rest => return (list (v :: acc).reverse, rest)
    | _ => .error .malformed

def readFields : (fuel depth : Nat) → (acc : List (RawText × Json)) → List Char →
    Except ReadError (Json × List Char)
  | 0, _, _, _ => .error .malformed
  | fuel + 1, depth, acc, cs =>
    match cs with
    | '"' :: rest => do
      let (name, rest) ← orMalformed (readText (rest.length + 1) [] rest)
      match skipBlanks rest with
      | ':' :: rest =>
        let (v, rest) ← readValue fuel depth (skipBlanks rest)
        match skipBlanks rest with
        | ',' :: rest => readFields fuel depth (putField acc name v) (skipBlanks rest)
        | '\x7d' :: rest => return (object (putField acc name v), rest)
        | _ => .error .malformed
      | _ => .error .malformed
    | _ => .error .malformed

end

def read (depth : Nat) (s : String) : Except ReadError Json := do
  let cs := s.toList
  let (v, rest) ← readValue (2 * cs.length + 2) depth (skipBlanks cs)
  if (skipBlanks rest).isEmpty then return v else .error .malformed

end Backslice.Json

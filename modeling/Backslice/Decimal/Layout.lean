import Backslice.Decimal.Shortest

namespace Backslice.Decimal

structure Layout where
  leastPlace : Int
  mostPlace : Int
  exponentMark : String
  exponentWidth : Nat

def Layout.plain : Layout := ⟨-4, 16, "e", 2⟩

def padLeft (width : Nat) (ds : List Char) : List Char :=
  List.replicate (width - ds.length) '0' ++ ds

def Layout.exponentText (l : Layout) (e : Int) : String :=
  let sign := if e < 0 then "-" else "+"
  l.exponentMark ++ sign ++ String.ofList (padLeft l.exponentWidth (Nat.toDigits 10 e.natAbs))

def Layout.write (l : Layout) (d : Digits) : String :=
  let ds := Nat.toDigits 10 d.digits
  let place := (ds.length : Int) + d.exponent
  if l.leastPlace < place ∧ place ≤ l.mostPlace then
    if place ≤ 0 then "0." ++ String.ofList (List.replicate (-place).toNat '0' ++ ds)
    else if (ds.length : Int) ≤ place then
      String.ofList (ds ++ List.replicate (place - ds.length).toNat '0') ++ ".0"
    else String.ofList (ds.take place.toNat) ++ "." ++ String.ofList (ds.drop place.toNat)
  else
    let head := String.ofList (ds.take 1)
    let rest := ds.drop 1
    let mantissa := if rest.isEmpty then head else head ++ "." ++ String.ofList rest
    mantissa ++ l.exponentText (place - 1)

def text (x : Float) : String :=
  if x.isNaN then "nan"
  else
    let bits := x.toBits.toNat
    let sign := if Nat.pow 2 63 ≤ bits then "-" else ""
    let body :=
      if x.isInf then "inf"
      else if bits % Nat.pow 2 63 = 0 then "0.0"
      else Layout.plain.write (Binary.ofBits bits).shortest
    sign ++ body

end Backslice.Decimal

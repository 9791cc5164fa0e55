/-!
The shortest decimal of a double: the fewest digits that read back as the same double and, of
those, the ones nearest to it. All arithmetic is exact, on natural numbers.
-/

namespace Backslice.Decimal

/-- A positive double `mantissa * 2 ^ exponent`; `narrow` tells that the double below it is only
half as far away as the double above. -/
structure Binary where
  mantissa : Nat
  exponent : Int
  narrow : Bool
  deriving DecidableEq, Repr

structure Digits where
  digits : Nat
  exponent : Int
  deriving DecidableEq, Repr

def Binary.ofBits (bits : Nat) : Binary :=
  let fraction : Nat := bits % Nat.pow 2 52
  let biased : Nat := bits / Nat.pow 2 52 % Nat.pow 2 11
  if biased = 0 then ⟨fraction, -1074, false⟩
  else ⟨fraction + Nat.pow 2 52, (biased : Int) - 1075, fraction = 0 && 1 < biased⟩

def scaled (n base : Nat) (e : Int) : Nat × Nat :=
  if 0 ≤ e then (n * base.pow e.toNat, 1) else (n, base.pow (-e).toNat)

def fractionLe (a b : Nat × Nat) : Bool := a.1 * b.2 ≤ b.1 * a.2

def fractionLt (a b : Nat × Nat) : Bool := a.1 * b.2 < b.1 * a.2

/-- Whether a decimal lies among the reals that round to the double. Ends count where the
mantissa is even. -/
def Binary.admits (x : Binary) (d : Digits) : Bool :=
  let low := scaled (4 * x.mantissa - (if x.narrow then 1 else 2)) 2 (x.exponent - 2)
  let high := scaled (4 * x.mantissa + 2) 2 (x.exponent - 2)
  let value := scaled d.digits 10 d.exponent
  if x.mantissa % 2 = 0 then fractionLe low value && fractionLe value high
  else fractionLt low value && fractionLt value high

def leadingPlace (fuel : Nat) (n d : Nat) : Int :=
  if d ≤ n then ((Nat.toDigits 10 (n / d)).length : Int)
  else match fuel with
    | 0 => 0
    | fuel + 1 => leadingPlace fuel (10 * n) d - 1

def Binary.candidates (x : Binary) (place : Int) (count : Nat) : List Digits :=
  let e := place - count
  let value := scaled x.mantissa 2 x.exponent
  let unit := scaled 1 10 e
  -- `value / unit` is `floor + part / whole`
  let whole := value.2 * unit.1
  let floor := value.1 * unit.2 / whole
  let part := value.1 * unit.2 % whole
  let ordered :=
    if 2 * part < whole || (2 * part == whole && floor % 2 == 0) then [floor, floor + 1]
    else [floor + 1, floor]
  (ordered.map fun n => ⟨n, e⟩).filter x.admits

def Digits.strip : (fuel : Nat) → Digits → Digits
  | 0, d => d
  | fuel + 1, d => if d.digits % 10 = 0 then strip fuel ⟨d.digits / 10, d.exponent + 1⟩ else d

def Binary.shortest (x : Binary) : Digits :=
  let value := scaled x.mantissa 2 x.exponent
  let place := leadingPlace 400 value.1 value.2
  let found := (List.range 17).findSome? fun n => (x.candidates place (n + 1)).head?
  (found.getD ⟨x.mantissa, x.exponent⟩).strip 17

end Backslice.Decimal

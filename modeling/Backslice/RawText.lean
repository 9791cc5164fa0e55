import Backslice.Sorting

/-!
Text as data files may give it: code points, among which half of a surrogate pair may stand alone.
A half is no character, so such a text is no `String`; all other texts are.
-/

namespace Backslice

inductive CodePoint where
  | char (c : Char)
  | half (code : Nat)
  deriving DecidableEq, Repr

namespace CodePoint

def code : CodePoint → Nat
  | char c => c.toNat
  | half n => n

def shown : CodePoint → Char
  | char c => c
  | half _ => '�'

end CodePoint

structure RawText where
  points : List CodePoint
  deriving DecidableEq, Repr, Inhabited

namespace RawText

def ofString (s : String) : RawText := ⟨s.toList.map .char⟩

instance : Coe String RawText := ⟨ofString⟩

instance : Append RawText := ⟨fun a b => ⟨a.points ++ b.points⟩⟩

def isEmpty (t : RawText) : Bool := t.points.isEmpty

def shown (t : RawText) : String := String.ofList (t.points.map CodePoint.shown)

def precedes (a b : RawText) : Bool :=
  !decide (b.points.map CodePoint.code < a.points.map CodePoint.code)

def sorted (ts : List RawText) : List RawText := sortBy precedes ts

@[simp] theorem points_append (a b : RawText) : (a ++ b).points = a.points ++ b.points := rfl

@[simp] theorem shown_ofString (s : String) : (ofString s).shown = s := by
  have : CodePoint.shown ∘ CodePoint.char = id := rfl
  simp [ofString, shown, this]

theorem ofString_injective {s t : String} (h : ofString s = ofString t) : s = t := by
  rw [← shown_ofString s, h, shown_ofString]

end RawText

/-- A value given where text is expected. A value that is not text has only a written form. -/
inductive GivenText where
  | text (s : RawText)
  | alien (written : String)
  deriving DecidableEq, Repr

namespace GivenText

def written : GivenText → RawText
  | text s => s
  | alien s => s

def shown (g : GivenText) : String := g.written.shown

def is (s : String) : GivenText → Bool
  | text t => t = s
  | alien _ => false

end GivenText

end Backslice

import Backslice.RawText
import Backslice.Text.Search

/-!
Internal variable names and the names of the source. A front end may put a version mark before a
name and a numbered mark behind it; a scheme knows both marks and takes them off again.
-/

namespace Backslice

inductive NameError where
  | notText
  deriving DecidableEq, Repr

/-- A mark as a configuration gives it. A value that is not text can be put behind a name, but it
cannot be looked for in one. -/
abbrev Marker := GivenText

namespace Marker

def occursIn (name : RawText) : Marker → Except NameError Bool
  | .text s => .ok (!s.isEmpty && Text.occurs s.points name.points)
  | .alien _ => .error .notText

def removedFrom (name : RawText) : Marker → Except NameError RawText
  | .text s => .ok ⟨Text.without s.points name.points⟩
  | .alien _ => .error .notText

def cutFrom (name : RawText) : Marker → Except NameError RawText
  | .text s => .ok (if s.isEmpty then name else ⟨Text.before s.points name.points⟩)
  | .alien _ => .error .notText

end Marker

structure NameScheme where
  versionMark : Marker := .text "$"
  suffixMark : Marker := .text "#"
  deriving DecidableEq, Repr

namespace NameScheme

/-- The name in the source: without version marks, and cut at the first suffix mark. -/
def normalize (scheme : NameScheme) (name : RawText) : Except NameError RawText := do
  let bare ← Marker.removedFrom name scheme.versionMark
  Marker.cutFrom bare scheme.suffixMark

def isMangled (scheme : NameScheme) (name : RawText) : Except NameError Bool := do
  if ← Marker.occursIn name scheme.versionMark then return true
  Marker.occursIn name scheme.suffixMark

def matchesName (scheme : NameScheme) (raw : RawText) : GivenText → Except NameError Bool
  | .alien _ => .error .notText
  | .text external =>
    if raw = external then .ok true
    else if Text.occurs external.points raw.points then do
      let base ← scheme.normalize raw
      return base = external
    else .ok false

/-- Whether a declared variable answers to a name of the source: by its very name, or by a marked
name that stands for it. -/
def resolves (scheme : NameScheme) (raw : RawText) (external : GivenText) :
    Except NameError Bool :=
  if external = .text raw then .ok true
  else do
    if ← scheme.isMangled raw then scheme.matchesName raw external
    else return false

@[simp] theorem matchesName_self (scheme : NameScheme) (name : RawText) :
    scheme.matchesName name (.text name) = .ok true := by simp [matchesName]

@[simp] theorem resolves_self (scheme : NameScheme) (name : RawText) :
    scheme.resolves name (.text name) = .ok true := by simp [resolves]

end NameScheme

end Backslice

import Backslice.Dependence
import Backslice.NameScheme

namespace Backslice

inductive SliceError (υ : Type) where
  | unknownVariable (name : GivenText)
  | malformed (m : MalformedFacts υ)
  | truncated (budget : Int) (visited : Nat)
  | naming (e : NameError)
  | unlisted (unit : υ)
  deriving DecidableEq, Repr

def SliceError.message {υ : Type} (bare quoted : υ → String) : SliceError υ → String
  | unknownVariable name => s!"Unknown variable name: '{name.shown}'"
  | malformed m => m.message quoted
  | truncated budget visited =>
    s!"Slice truncated after {budget} steps ({visited} units visited)"
  | naming _ => ""
  | unlisted u => bare u

variable {υ : Type}

def keepIf {ε α : Type} (test : α → Except ε Bool) : List α → Except ε (List α)
  | [] => .ok []
  | a :: as => do
    let kept ← test a
    let rest ← keepIf test as
    return if kept then a :: rest else rest

theorem keepIf_ok {ε α : Type} {test : α → Except ε Bool} {p : α → Bool} {as : List α}
    (h : ∀ a ∈ as, test a = .ok (p a)) : keepIf test as = .ok (as.filter p) := by
  induction as with
  | nil => rfl
  | cons a as ih =>
    have ha := h a (by simp)
    have has := ih fun b hb => h b (by simp [hb])
    simp only [keepIf, ha, has]
    cases hp : p a <;> simp [bind, Except.bind, pure, Except.pure, List.filter, hp]

def anyOf {ε α : Type} (test : α → Except ε Bool) : List α → Except ε Bool
  | [] => .ok false
  | a :: as => do
    if ← test a then return true
    anyOf test as

namespace Facts

def resolve (f : Facts υ) (scheme : NameScheme) (name : GivenText) :
    Except NameError (List Variable) :=
  keepIf (fun v => scheme.resolves v.name name) f.declared.eraseDups

def unitsOn (f : Facts υ) : Option Int → List υ
  | some n => f.units.filter fun u => f.line u == some n
  | none => []

def usersOf (f : Facts υ) (scheme : NameScheme) (name : GivenText) (units : List υ) :
    Except NameError (List υ) :=
  keepIf (fun u => anyOf (fun raw => scheme.matchesName raw name) (f.usedNames u)) units

end Facts

end Backslice

import Backslice.FactTable
import Backslice.Proofs.Slice.Query

namespace Backslice

namespace NameScheme

variable {version suffix raw name : RawText}

theorem resolves_eq_true (scheme : NameScheme) (raw : RawText) (external : GivenText) :
    scheme.resolves raw external = .ok true ↔ external = .text raw ∨
      scheme.isMangled raw = .ok true ∧ scheme.matchesName raw external = .ok true := by
  unfold resolves
  split
  · simp [*]
  · rename_i hne
    constructor
    · intro h
      obtain ⟨mangled, hmangled, h⟩ := exists_of_bind_eq_ok h
      cases mangled with
      | false => cases h
      | true => exact .inr ⟨hmangled, h⟩
    · rintro (h | ⟨hmangled, h⟩)
      · exact absurd h hne
      · rw [hmangled, ok_bind, if_pos rfl, h]

theorem matchesName_iff_mangled :
    (ofTexts version suffix).matchesName raw (.text name) = .ok true ↔ raw = name ∨
      (ofTexts version suffix).isMangled raw = .ok true ∧
        (ofTexts version suffix).matchesName raw (.text name) = .ok true := by
  have hresolves := resolves_eq_true (ofTexts version suffix) raw (.text name)
  rwa [resolves_eq_matchesName, GivenText.text.injEq, eq_comm (a := name)] at hresolves

end NameScheme

namespace Slice

open NameScheme

variable {υ : Type} {f : Facts υ} {version suffix name : RawText} {u : υ}

def Selects (f : Facts υ) (scheme : NameScheme) (name : RawText) (u : υ) (y : Variable) : Prop :=
  y ∈ f.declared ∧ y.name ∈ f.usedNames u ∧ scheme.matchesName y.name (.text name) = .ok true

theorem Selects.resolved {y : Variable} (h : Selects f (ofTexts version suffix) name u y) :
    Resolved f.declared (ofTexts version suffix) name y :=
  ⟨h.1, resolves_eq_matchesName.trans h.2.2⟩

theorem UsesName.exists_selects {scheme : NameScheme} (h : UsesName f scheme name u)
    (hdeclared : ∀ raw ∈ f.usedNames u, ∃ y ∈ f.declared, y.name = raw) :
    ∃ y, Selects f scheme name u y := by
  obtain ⟨raw, hraw, hmatch⟩ := h
  obtain ⟨y, hy, rfl⟩ := hdeclared raw hraw
  exact ⟨y, hy, hraw, hmatch⟩

/-- A used name matches a name of the source by being it or by a mark, as the resolver wants it. So
where units use declared names, the variables by which they are selected are resolved. -/
theorem users_resolve (version suffix : RawText) :
    (∀ raw name, (ofTexts version suffix).matchesName raw (.text name) = .ok true ↔ raw = name ∨
      (ofTexts version suffix).isMangled raw = .ok true ∧
        (ofTexts version suffix).matchesName raw (.text name) = .ok true) ∧
    ∀ (υ : Type) (f : Facts υ) (units : List υ) (name : RawText),
      (∀ u ∈ units, ∀ raw ∈ f.usedNames u, ∃ y ∈ f.declared, y.name = raw) →
      ∃ vs seeds, f.resolve (ofTexts version suffix) (.text name) = .ok vs ∧
        f.usersOf (ofTexts version suffix) (.text name) units = .ok seeds ∧
        (∀ u ∈ seeds, ∃ y, Selects f (ofTexts version suffix) name u y) ∧
        (∀ u ∈ seeds, ∀ y, Selects f (ofTexts version suffix) name u y → y ∈ vs) ∧
        (seeds ≠ [] → vs ≠ []) := by
  refine ⟨fun raw name => matchesName_iff_mangled, fun υ f units name hdeclared => ?_⟩
  obtain ⟨vs, hvs, hresolved⟩ := resolve_ok f version suffix name
  obtain ⟨seeds, hseeds, hmem⟩ := usersOf_ok f version suffix name units
  have hselects : ∀ u ∈ seeds, ∃ y, Selects f (ofTexts version suffix) name u y := by
    intro u hu
    obtain ⟨hu, huses⟩ := (hmem u).mp hu
    exact huses.exists_selects (hdeclared u hu)
  have hfound : ∀ u ∈ seeds, ∀ y, Selects f (ofTexts version suffix) name u y → y ∈ vs :=
    fun u _ y hy => (hresolved y).mpr hy.resolved
  refine ⟨vs, seeds, hvs, hseeds, hselects, hfound, fun hne => ?_⟩
  obtain ⟨u, hu⟩ := List.exists_mem_of_ne_nil seeds hne
  obtain ⟨y, hy⟩ := hselects u hu
  exact List.ne_nil_of_mem (hfound u hu y hy)

def marked : FactTable where
  lines := .ofList [("a", some 3), ("b", some 3)]
  uses := .ofList [("a", ["x#+#1"]), ("b", ["xy"])]
  vars := ["x#+#1", "xy"]

theorem users_resolve_marked :
    marked.facts.usersOf (ofTexts "+" "##") (.text "x") ["a", "b"] = .ok ["a"] ∧
      ∃ vs, marked.facts.resolve (ofTexts "+" "##") (.text "x") = .ok vs ∧ vs ≠ [] := by
  have hseeds : marked.facts.usersOf (ofTexts "+" "##") (.text "x") ["a", "b"] = .ok ["a"] := by
    decide
  obtain ⟨vs, seeds, hvs, hseeds', _, _, hne⟩ :=
    (users_resolve "+" "##").2 String marked.facts ["a", "b"] "x" (by decide)
  cases hseeds.symm.trans hseeds'
  exact ⟨hseeds, vs, hvs, hne (by decide)⟩

end Slice

end Backslice

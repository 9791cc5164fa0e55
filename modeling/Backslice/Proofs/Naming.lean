import Backslice.Proofs.Scoping.Names
import Backslice.Proofs.Slice.Query

namespace Backslice

namespace Scoping

theorem sourceName_infix_nameOf (suffix : RawText) (source : String) (n : Nat) :
    (source : RawText).points <:+: (nameOf suffix source n).points := by
  cases n with
  | zero => exact List.infix_refl _
  | succ n =>
    simp only [nameOf, RawText.points_append, List.append_assoc]
    exact (List.prefix_append _ _).isInfix

theorem Numbered.exists_name {s : Scoping} (h : s.Numbered) {v : Variable} (hv : v ∈ s.vars) :
    ∃ n, v.name = nameOf s.suffix v.sourceName n := by
  obtain ⟨l, r, heq⟩ := List.append_of_mem hv
  exact ⟨_, h l v r heq⟩

end Scoping

namespace NameScheme

open Scoping

variable {version suffix name : RawText} {v : Variable} {n : Nat}

theorem Fits.base_nameOf {source : String} (h : Fits version suffix source) (n : Nat) :
    base version suffix (nameOf suffix source n) = source := by
  cases n with
  | zero => exact h.base_eq_self
  | succ n => exact h.base_append _

theorem Fits.resolves_iff (h : Fits version suffix v.sourceName)
    (hname : v.name = nameOf suffix v.sourceName n) :
    (ofTexts version suffix).resolves v.name (.text name) = .ok true ↔
      v.name = name ∨ (v.sourceName : RawText) = name := by
  rw [NameScheme.resolves_iff, hname, h.base_nameOf]
  refine or_congr_right ⟨And.right, ?_⟩
  rintro rfl
  exact ⟨sourceName_infix_nameOf suffix _ n, rfl⟩

theorem name_eq_sourceName (hname : v.name = nameOf suffix v.sourceName n)
    (hne : suffix.points ≠ []) (hfree : ∀ c ∈ suffix.points, c ∉ v.name.points) :
    v.name = v.sourceName := by
  cases n with
  | zero => exact hname
  | succ n =>
    obtain ⟨c, rest, hcons⟩ := List.exists_cons_of_ne_nil hne
    refine absurd ?_ (hfree c (by simp [hcons]))
    simp [hname, nameOf, hcons]

end NameScheme

namespace Scoping

open NameScheme

/-- Every declaration makes a variable. Asked for by a name of the source, the variables declared
under it are found, and no others. -/
theorem resolve_iff_name_or_sourceName {υ : Type} {src : Source} {function : Tree}
    {version suffix : RawText} {s : Scoping} {f : Facts υ}
    (h : ofFunction src suffix function = .ok s) (hf : ∀ v, v ∈ f.declared ↔ v ∈ s.vars)
    (hne : suffix.points ≠ []) (hsuffix : ∀ c ∈ suffix.points, Foreign src function c)
    (hversion : ∀ c ∈ version.points, c ∉ suffix.points ∧ Foreign src function c)
    (name : RawText) :
    List.Forall₂ (Declares src) (declarationsOf function) s.vars ∧
    ∃ vs, f.resolve (ofTexts version suffix) (.text name) = .ok vs ∧
      (∀ v, v ∈ vs ↔ v ∈ s.vars ∧ (v.name = name ∨ (v.sourceName : RawText) = name)) ∧
      (∀ u ∈ s.vars, (u.sourceName : RawText) = name →
        ∀ v, v ∈ vs ↔ v ∈ s.vars ∧ v.sourceName = u.sourceName) ∧
      ∀ e ∈ declarationsOf function, ∀ source, src.text e.1 = .ok source →
        (source : RawText) = name → ∃ v ∈ vs, Declares src e v := by
  obtain ⟨rfl, hnumbered⟩ := numbered_ofFunction h
  have hdeclares := declares_ofFunction h
  have hfree : ∀ c, Foreign src function c → ∀ v ∈ s.vars, c ∉ (v.sourceName : RawText).points :=
    fun c hc => free_of_declares hdeclares hc
  obtain ⟨vs, hvs, hresolved⟩ := Slice.resolve_ok f version s.suffix name
  have hmem : ∀ v, v ∈ vs ↔ v ∈ s.vars ∧ (v.name = name ∨ (v.sourceName : RawText) = name) := by
    intro v
    rw [hresolved, Slice.Resolved, hf]
    refine and_congr_right fun hv => ?_
    obtain ⟨n, hname⟩ := hnumbered.exists_name hv
    have hfits : Fits version s.suffix v.sourceName := .of_disjoint hne
      (fun c hc hc' => (hversion c hc').1 hc) (fun c hc => hfree c (hversion c hc).2 v hv)
      fun c hc => hfree c (hsuffix c hc) v hv
    exact hfits.resolves_iff hname
  refine ⟨hdeclares, vs, hvs, hmem, fun u hu hname v => ?_, fun e he source htext hname => ?_⟩
  · rw [hmem]
    refine and_congr_right fun hv => ?_
    constructor
    · rintro (heq | heq)
      · obtain ⟨n, hn⟩ := hnumbered.exists_name hv
        have hself := name_eq_sourceName hn hne fun c hc hc' =>
          hfree c (hsuffix c hc) u hu (by rwa [hname, ← heq])
        exact RawText.ofString_injective (hself.symm.trans (heq.trans hname.symm))
      · exact RawText.ofString_injective (heq.trans hname.symm)
    · exact fun heq => .inr (by rw [heq, hname])
  · obtain ⟨v, hv, hdeclared⟩ := exists_of_declares hdeclares he
    refine ⟨v, (hmem v).mpr ⟨hv, .inr ?_⟩, hdeclared⟩
    rw [← hname, Except.ok.inj (hdeclared.text.symm.trans htext)]

def factsOf (vars : List Variable) : Facts NodeId where
  units := []
  usedNames _ := []
  frontier _ := []
  usesOf _ := []
  reachingDefs _ _ := []
  declared := vars
  line _ := none
  caption _ := ""
  isBranch _ := false

set_option maxRecDepth 10000 in
theorem resolve_iff_name_or_sourceName_recurring :
    ∃ s, ofFunction recurring "#" recurring.root = .ok s ∧
      List.Forall₂ (Declares recurring) (declarationsOf recurring.root) s.vars ∧
      s.vars.map (·.name) = ["x", "x#1", "x#2", "x1"] ∧
      ∃ vs, (factsOf s.vars).resolve (ofTexts "$" "#") (.text "x") = .ok vs ∧
        vs.map (·.name) = ["x", "x#1", "x#2"] ∧
        (∀ v, v ∈ vs ↔ v ∈ s.vars ∧ (v.name = "x" ∨ (v.sourceName : RawText) = "x")) ∧
        ∀ e ∈ declarationsOf recurring.root, recurring.text e.1 = .ok "x" →
          ∃ v ∈ vs, Declares recurring e v := by
  have hrun : ((ofFunction recurring "#" recurring.root).toOption.any fun s : Scoping =>
      decide (s.vars.map (·.name) = ["x", "x#1", "x#2", "x1"] ∧
        ((factsOf s.vars).resolve (ofTexts "$" "#") (.text "x")).toOption.map
          (·.map (·.name)) = some (["x", "x#1", "x#2"] : List RawText))) = true := by
    decide +kernel
  obtain ⟨s, h, hrun⟩ := exists_of_any hrun
  obtain ⟨hnames, hfound⟩ := of_decide_eq_true hrun
  obtain ⟨vs, hvs, hfound⟩ := exists_of_map_toOption hfound
  have hsuffix : ∀ c ∈ ("#" : RawText).points, Foreign recurring recurring.root c :=
    fun c hc => foreign_recurring (by revert c hc; decide)
  have hversion : ∀ c ∈ ("$" : RawText).points,
      c ∉ ("#" : RawText).points ∧ Foreign recurring recurring.root c :=
    fun c hc => ⟨by revert c hc; decide, foreign_recurring (by revert c hc; decide)⟩
  obtain ⟨hdeclares, vs', hvs', hmem, -, hall⟩ := resolve_iff_name_or_sourceName
    (f := factsOf s.vars) h (fun v => Iff.rfl) (by decide) hsuffix hversion "x"
  cases hvs.symm.trans hvs'
  exact ⟨s, h, hdeclares, hnames, vs, hvs, hfound, hmem,
    fun e he htext => hall e he "x" htext rfl⟩

end Scoping

end Backslice

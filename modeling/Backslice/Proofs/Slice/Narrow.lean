import Backslice.Proofs.Slice.Paths

namespace Backslice.Slice

open Backslice.Graph NameScheme

section

variable (g : Graph) (vars : List Variable) (scheme : NameScheme) (name : RawText)

def Named (y : Variable) : Prop := scheme.matchesName y.name (.text name) = .ok true

def Supplies (p s : NodeId) : Prop :=
  ∃ y, g.Uses s y ∧ Named scheme name y ∧ g.Reaches y p s

/-- Two definitions at `p` reach `s`, of a variable of the name that `s` does not use, and of a
variable that `s` uses by another name. -/
def Accompanies (p s : NodeId) : Prop :=
  (∃ y ∈ vars, Named scheme name y ∧ ¬ g.Uses s y ∧ g.Reaches y p s) ∧
    ∃ z, g.Uses s z ∧ ¬ Named scheme name z ∧ g.Reaches z p s

end

variable {g : Graph} {vars : List Variable} {f : Facts NodeId} {pdg : DependenceGraph NodeId}
  {version suffix name : RawText} {p s : NodeId}

theorem resolved_iff_named {y : Variable} : Resolved vars (ofTexts version suffix) name y ↔
    y ∈ vars ∧ Named (ofTexts version suffix) name y := by
  rw [Resolved, resolves_eq_matchesName, Named]

theorem feeds_and_resolved_iff (huses : ∀ n ∈ g.nodes, ∀ y ∈ n.uses, y ∈ vars) :
    (g.Feeds p s ∧ ∃ y, Resolved vars (ofTexts version suffix) name y ∧ g.Reaches y p s) ↔
      Supplies g (ofTexts version suffix) name p s ∨
        Accompanies g vars (ofTexts version suffix) name p s := by
  simp only [resolved_iff_named]
  constructor
  · rintro ⟨⟨z, hz, hreach⟩, y, ⟨hy, hnamed⟩, hreach'⟩
    by_cases hz' : Named (ofTexts version suffix) name z
    · exact .inl ⟨z, hz, hz', hreach⟩
    by_cases hused : g.Uses s y
    · exact .inl ⟨y, hused, hnamed, hreach'⟩
    · exact .inr ⟨⟨y, hy, hnamed, hused, hreach'⟩, z, hz, hz', hreach⟩
  · rintro (⟨y, hused, hnamed, hreach⟩ | ⟨⟨y, hy, hnamed, _, hreach⟩, z, hz, _, hreach'⟩)
    · exact ⟨⟨y, hused, hreach⟩, y, ⟨hused.mem_vars huses, hnamed⟩, hreach⟩
    · exact ⟨⟨z, hz, hreach'⟩, y, ⟨hy, hnamed⟩, hreach⟩

section

variable (hf : Analysis.Exact g vars f) (hpdg : DependenceGraph.Mirrors f pdg)
  (huses : ∀ n ∈ g.nodes, ∀ y ∈ n.uses, y ∈ vars)
  (hname : ∃ y, Resolved vars (ofTexts version suffix) name y)

include hf hpdg huses hname

theorem narrow_iff (seeds : List NodeId) (hseeds : ∀ s ∈ seeds, s ∈ g.ids) :
    ∃ kept, narrow pdg f (ofTexts version suffix) (.text name) seeds = .ok kept ∧
      ∀ p, p ∈ kept ↔ ∃ s ∈ seeds, ⟨p, s, .control⟩ ∈ pdg.edges ∨
        Supplies g (ofTexts version suffix) name p s ∨
        Accompanies g vars (ofTexts version suffix) name p s := by
  have hname' := hname.imp fun y => (resolved_iff hf).mpr
  have hlisted : ∀ s ∈ seeds, s ∈ f.units := by rwa [hf.units]
  obtain ⟨kept, hkept, hmem⟩ := narrow_ok hpdg hname' hlisted
  refine ⟨kept, hkept, fun p => (hmem p).trans (exists_congr fun s => and_congr_right fun hs => ?_)⟩
  rw [kept_iff hf hpdg (hseeds s hs), feeds_and_resolved_iff huses, hpdg.control_iff, hf.units,
    hf.mem_frontier s (hseeds s hs), and_iff_right (hseeds s hs)]

theorem narrow_single (hs : s ∈ g.ids) :
    ∃ kept, narrow pdg f (ofTexts version suffix) (.text name) [s] = .ok kept ∧
      ∀ p, p ∈ kept ↔ ⟨p, s, .control⟩ ∈ pdg.edges ∨
        Supplies g (ofTexts version suffix) name p s ∨
        Accompanies g vars (ofTexts version suffix) name p s := by
  obtain ⟨kept, hkept, hmem⟩ := narrow_iff hf hpdg huses hname [s] (by simpa using hs)
  exact ⟨kept, hkept, by simpa using hmem⟩

end

/-- Narrowing gathers what it keeps for each seed: the branches that decide the seed, the definitions
that supply it with a variable of the name, and definitions of a variable of the name that the seed
does not use, if another variable that it uses is defined along with it. -/
theorem narrow_precise (hg : g.Built) (hexit : g.successors exitId = []) (vars : List Variable)
    (huses : ∀ n ∈ g.nodes, ∀ y ∈ n.uses, y ∈ vars)
    (hname : ∃ y, Resolved vars (ofTexts version suffix) name y) (seeds : List NodeId)
    (hseeds : ∀ s ∈ seeds, s ∈ g.ids) :
    ∃ a pdg narrowed, Analysis.ofGraph g vars = .ok a ∧ DependenceGraph.ofFacts a.facts = .ok pdg ∧
      narrow pdg a.facts (ofTexts version suffix) (.text name) seeds = .ok narrowed ∧
      (∀ p, p ∈ narrowed ↔ ∃ s ∈ seeds, ∃ kept,
        narrow pdg a.facts (ofTexts version suffix) (.text name) [s] = .ok kept ∧ p ∈ kept) ∧
      ∀ s ∈ seeds, ∃ kept,
        narrow pdg a.facts (ofTexts version suffix) (.text name) [s] = .ok kept ∧
        ∀ p, p ∈ kept ↔ ⟨p, s, .control⟩ ∈ pdg.edges ∨
          Supplies g (ofTexts version suffix) name p s ∨
          Accompanies g vars (ofTexts version suffix) name p s := by
  obtain ⟨a, ha, hf⟩ := Analysis.ofGraph_ok hg.sound hexit vars
  obtain ⟨pdg, hpdg, hmirrors⟩ := DependenceGraph.ofFacts_ok (hf.closed hg.sound)
  obtain ⟨narrowed, hnarrowed, hmem⟩ := narrow_iff hf hmirrors huses hname seeds hseeds
  refine ⟨a, pdg, narrowed, ha, hpdg, hnarrowed, fun p => ?_,
    fun s hs => narrow_single hf hmirrors huses hname (hseeds s hs)⟩
  rw [hmem]
  refine exists_congr fun s => and_congr_right fun hs => ?_
  obtain ⟨kept, hkept, hmem⟩ := narrow_single hf hmirrors huses hname (hseeds s hs)
  simp only [← hmem, hkept, Except.ok.injEq, exists_eq_left']

def outer : Variable := { name := "x", sourceName := "x" }
def inner : Variable := { name := "x#1", sourceName := "x" }
def other : Variable := { name := "y", sourceName := "y" }

def joint : Graph :=
  let g : Graph := {}
  let g := g.addNode { id := 0, kind := .declaration, line := some 1, defs := [outer] }
  let g := g.addNode { id := 1, kind := .declaration, line := some 2, defs := [inner, other] }
  let g := g.addNode { id := 2, kind := .returnJump, line := some 3, uses := [outer, other] }
  let g := (g.addEdge 0 1 "").1
  let g := (g.addEdge 1 2 "").1
  (g.addEdge 2 exitId "").1

theorem built_joint : joint.Built := by
  unfold joint
  repeat' first | exact .empty | apply Built.join | apply Built.addNode | decide

theorem reaches_joint : joint.Reaches outer 0 2 ∧ joint.Reaches inner 1 2 ∧
    joint.Reaches other 1 2 := by
  have hfirst : joint.Step 0 1 := by unfold Step; decide
  have hsecond : joint.Step 1 2 := by unfold Step; decide
  have hdefines : joint.Defines 0 outer ∧ joint.Defines 1 inner ∧ joint.Defines 1 other ∧
      ¬ joint.Defines 1 outer := by unfold Defines; decide
  exact ⟨⟨hdefines.1, 1, [1], hfirst, .single hsecond, by simpa using hdefines.2.2.2⟩,
    ⟨hdefines.2.1, 2, [], hsecond, .nil 2, by simp⟩,
    ⟨hdefines.2.2.1, 2, [], hsecond, .nil 2, by simp⟩⟩

theorem named_joint : Named (ofTexts "$" "#") "x" outer ∧ Named (ofTexts "$" "#") "x" inner ∧
    ¬ Named (ofTexts "$" "#") "x" other := by
  unfold Named
  decide

theorem uses_joint (y : Variable) : joint.Uses 2 y ↔ y = outer ∨ y = other := by
  have huses : ∀ n ∈ joint.nodes, n.id = 2 → n.uses = [outer, other] := by decide
  constructor
  · rintro ⟨n, hn, hid, hy⟩
    rw [huses n hn hid] at hy
    exact List.mem_pair.mp hy
  · rintro (rfl | rfl)
    · unfold Uses
      decide
    · unfold Uses
      decide

theorem accompanies_joint : Accompanies joint [outer, inner, other] (ofTexts "$" "#") "x" 1 2 := by
  refine ⟨⟨inner, by decide, named_joint.2.1, ?_, reaches_joint.2.1⟩, other,
    (uses_joint other).mpr (.inr rfl), named_joint.2.2, reaches_joint.2.2⟩
  rw [uses_joint]
  decide

theorem narrow_precise_joint : ∃ a pdg kept,
    Analysis.ofGraph joint [outer, inner, other] = .ok a ∧
      DependenceGraph.ofFacts a.facts = .ok pdg ∧
      narrow pdg a.facts (ofTexts "$" "#") (.text "x") [2] = .ok kept ∧ 0 ∈ kept ∧ 1 ∈ kept := by
  obtain ⟨a, pdg, _, ha, hpdg, _, _, hkept⟩ := narrow_precise built_joint (by decide)
    [outer, inner, other] (by decide)
    ⟨outer, by decide, resolves_self (ofTexts "$" "#") "x"⟩ [2] (by decide)
  obtain ⟨kept, hkept, hmem⟩ := hkept 2 (by decide)
  refine ⟨a, pdg, kept, ha, hpdg, hkept, (hmem 0).mpr (.inr (.inl ?_)),
    (hmem 1).mpr (.inr (.inr accompanies_joint))⟩
  exact ⟨outer, (uses_joint outer).mpr (.inl rfl), named_joint.1, reaches_joint.1⟩

/-- The unit that defines the inner `x` is kept for a unit that uses the outer `x` only. -/
theorem narrow_keeps_unused : ∃ a pdg kept,
    Analysis.ofGraph joint [outer, inner, other] = .ok a ∧
      DependenceGraph.ofFacts a.facts = .ok pdg ∧
      narrow pdg a.facts (ofTexts "$" "#") (.text "x") [2] = .ok kept ∧ 1 ∈ kept ∧
      ⟨1, 2, .control⟩ ∉ pdg.edges ∧ ¬ Supplies joint (ofTexts "$" "#") "x" 1 2 := by
  obtain ⟨a, ha, hf⟩ := Analysis.ofGraph_ok built_joint.sound (by decide) [outer, inner, other]
  obtain ⟨pdg, hpdg, hmirrors⟩ := DependenceGraph.ofFacts_ok (hf.closed built_joint.sound)
  obtain ⟨kept, hkept, hmem⟩ := narrow_iff hf hmirrors (by decide)
    ⟨outer, by decide, resolves_self (ofTexts "$" "#") "x"⟩ [2] (by decide)
  refine ⟨a, pdg, kept, ha, hpdg, hkept, ?_, ?_, ?_⟩
  · exact (hmem 1).mpr ⟨2, by simp, .inr (.inr accompanies_joint)⟩
  · have hrun : ((Analysis.ofGraph joint [outer, inner, other]).toOption.any fun a =>
        (DependenceGraph.ofFacts a.facts).toOption.any fun pdg =>
          (⟨1, 2, .control⟩ : Dependence NodeId) ∉ pdg.edges) = true := by decide +kernel
    simpa [ha, hpdg, Except.toOption] using hrun
  · rintro ⟨y, huses, hnamed, hdefines, _⟩
    rcases (uses_joint y).mp huses with rfl | rfl
    · revert hdefines
      unfold Defines
      decide
    · exact named_joint.2.2 hnamed

end Backslice.Slice

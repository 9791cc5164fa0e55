import Backslice.Proofs.Run
import Backslice.Proofs.Slice.Paths

namespace Backslice.Slice

open Backslice.Graph NameScheme

variable {g : Graph} {vars : List Variable} {f : Facts NodeId} {pdg : DependenceGraph NodeId}
  {scheme : NameScheme} {version suffix name : RawText} {l : Int}
  {seeds narrowed closed : List NodeId} {V : Type}

/-- What is seen before a node is executed: at a seed, the seed and the values of the variables that
it uses by the name. -/
def sight (g : Graph) (scheme : NameScheme) (name : RawText) (seeds : List NodeId) (v : NodeId)
    (σ : Variable → V) : List (NodeId × List V) :=
  match g.node? v with
  | some n =>
    if v ∈ seeds then
      [(v, (n.uses.filter fun y => scheme.matchesName y.name (.text name) = .ok true).map σ)]
    else []
  | none => []

def Matters (g : Graph) (scheme : NameScheme) (name : RawText) (seeds closed : List NodeId)
    (o : NodeId) (x : Variable) : Prop :=
  g.Uses o x ∧ (o ∈ closed ∨ (o ∈ seeds ∧ scheme.matchesName x.name (.text name) = .ok true))

theorem sight_congr {v : NodeId} {σ τ : Variable → V}
    (h : ∀ x, Matters g scheme name seeds closed v x → σ x = τ x) :
    sight g scheme name seeds v σ = sight g scheme name seeds v τ := by
  unfold sight
  cases hn : g.node? v with
  | none => rfl
  | some n =>
    obtain ⟨hmem, hid⟩ := node?_eq_some hn
    by_cases hv : v ∈ seeds
    · simp only [if_pos hv]
      congr 2
      refine List.map_congr_left fun x hx => h x ?_
      obtain ⟨hx, hmatch⟩ := List.mem_filter.mp hx
      exact ⟨⟨n, hmem, hid, hx⟩, .inr ⟨hv, by simpa using hmatch⟩⟩
    · simp only [if_neg hv]

theorem sight_eq_nil {v : NodeId} (σ : Variable → V) (hv : v ∉ seeds) :
    sight g scheme name seeds v σ = [] := by
  unfold sight
  cases g.node? v with
  | none => rfl
  | some n => exact if_neg hv

/-- The slice holds all that decides or feeds what is seen. -/
theorem Stages.watched (hg : g.Sound) (hexit : g.successors exitId = [])
    (huses : ∀ n ∈ g.nodes, ∀ y ∈ n.uses, y ∈ vars) (hf : Analysis.Exact g vars f)
    (h : Stages f (ofTexts version suffix) (some l) name pdg seeds narrowed closed) :
    Watched g (· ∈ closed) (fun o => o ∈ closed ∨ o ∈ seeds)
      (Matters g (ofTexts version suffix) name seeds closed) := by
  constructor
  case toGuarded =>
    constructor
    case subset => exact fun v hv => .inl hv
    case decides =>
      rintro v o (ho | ho) hdecides
      · exact (h.mem_closed_iff hf).mpr (.control ((h.mem_closed_iff hf).mp ho) hdecides)
      · exact (h.mem_closed_iff hf).mpr (.start ⟨o, (h.mem_seeds_iff hf).mp ho, .inl hdecides⟩)
    case exits =>
      intro v w hs
      exact Walk.exists_of_reflTransGen (hg.extended_reaches_exit (hs.target_mem hg))
    case goal_stuck => exact fun w hs => hs.source_ne_exit hg rfl
    case goal_notMem =>
      rintro (ho | ho)
      · exact hg.exit_notMem (hf.units ▸ h.closed_mem ho)
      · exact hg.exit_notMem (hf.units ▸ unitsOn_subset ((h.mem_seeds _).mp ho).1)
  case extended_of_step =>
    intro v w hs
    exact .inl ⟨fun hv => hg.exit_notMem (hv ▸ hg.source_mem_ids hexit hs), hs⟩
  case needs_uses => exact fun v hv x hx => ⟨hx, .inl hv⟩
  case feeds =>
    rintro v o x ⟨hx, ho | ⟨ho, hmatch⟩⟩ hreach
    · exact (h.mem_closed_iff hf).mpr (.data ((h.mem_closed_iff hf).mp ho) ⟨x, hx, hreach⟩)
    · have hresolved : Resolved vars (ofTexts version suffix) name x :=
        ⟨hx.mem_vars huses, resolves_eq_matchesName.trans hmatch⟩
      exact (h.mem_closed_iff hf).mpr
        (.start ⟨o, (h.mem_seeds_iff hf).mp ho, .inr ⟨⟨x, hx, hreach⟩, x, hresolved, hreach⟩⟩)

/-- Programs that agree on the slice cannot be told apart at the uses that it was taken for. -/
theorem slice_noninterference (hg : g.Built) (hexit : g.successors exitId = [])
    (huses : ∀ n ∈ g.nodes, ∀ y ∈ n.uses, y ∈ vars) (l : Int)
    (hname : ∃ y, Resolved vars (ofTexts version suffix) name y) :
    ∃ a pdg seeds narrowed units, Analysis.ofGraph g vars = .ok a ∧
      DependenceGraph.ofFacts a.facts = .ok pdg ∧
      a.facts.usersOf (ofTexts version suffix) (.text name) (a.facts.unitsOn (some l)) =
        .ok seeds ∧
      narrow pdg a.facts (ofTexts version suffix) (.text name) seeds = .ok narrowed ∧
      closure pdg narrowed none = .ok units ∧
      (∀ u, u ∈ seeds ↔ Seed g (ofTexts version suffix) l name u) ∧
      (∀ u, u ∈ units ↔ Member g vars (ofTexts version suffix) l name u) ∧
      ∀ (V : Type) (b c : Behaviour g V),
        (∀ v ∈ units, b.update v = c.update v ∧ b.next v = c.next v) →
        ∀ (start : NodeId) (σ : Variable → V) (os os' : List (NodeId × List V)),
          Run b (sight g (ofTexts version suffix) name seeds) start σ os →
          Run c (sight g (ofTexts version suffix) name seeds) start σ os' → os = os' := by
  obtain ⟨a, ha, hf⟩ := Analysis.ofGraph_ok hg.sound hexit vars
  obtain ⟨pdg, seeds, narrowed, units, h⟩ := stages_ok (hf.closed hg.sound) (some l)
    (hname.imp fun y => (resolved_iff hf).mpr)
  refine ⟨a, pdg, seeds, narrowed, units, ha, h.built, h.users, h.narrows, h.closes,
    fun u => h.mem_seeds_iff hf, fun u => h.mem_closed_iff hf, ?_⟩
  intro V b c hagree start σ os os' hrun hrun'
  refine (h.watched hg.sound hexit huses hf).observations_eq
    (fun v σ hv => sight_eq_nil σ fun hs => hv (.inr hs)) (fun v σ τ => sight_congr) hagree
    hrun hrun' ⟨fun o => .rfl, fun o _ x _ => rfl⟩

theorem slice_noninterference_counting :
    ∃ a pdg, Analysis.ofGraph counting [count, note, total] = .ok a ∧
      DependenceGraph.ofFacts a.facts = .ok pdg ∧
      a.facts.usersOf (ofTexts "$" "#") (.text "total") (a.facts.unitsOn (some 4)) = .ok [4] ∧
      narrow pdg a.facts (ofTexts "$" "#") (.text "total") [4] = .ok [0, 3] ∧
      closure pdg [0, 3] none = .ok [1, 0, 3] ∧
      ∀ (V : Type) (b c : Behaviour counting V),
        (∀ v ∈ [1, 0, 3], b.update v = c.update v ∧ b.next v = c.next v) →
        ∀ (start : NodeId) (σ : Variable → V) (os os' : List (NodeId × List V)),
          Run b (sight counting (ofTexts "$" "#") "total" [4]) start σ os →
          Run c (sight counting (ofTexts "$" "#") "total" [4]) start σ os' → os = os' := by
  have hrun : ((Analysis.ofGraph counting [count, note, total]).toOption.any fun a =>
      (DependenceGraph.ofFacts a.facts).toOption.any fun pdg => decide (
        a.facts.usersOf (ofTexts "$" "#") (.text "total") (a.facts.unitsOn (some 4)) = .ok [4] ∧
        narrow pdg a.facts (ofTexts "$" "#") (.text "total") [4] = .ok [0, 3] ∧
        closure pdg [0, 3] none = .ok [1, 0, 3])) = true := by decide +kernel
  obtain ⟨a, ha, hrun⟩ := exists_of_any hrun
  obtain ⟨pdg, hpdg, hrun⟩ := exists_of_any hrun
  obtain ⟨husers, hnarrow, hclosure⟩ := of_decide_eq_true hrun
  have hname : ∃ y, Resolved [count, note, total] (ofTexts "$" "#") "total" y :=
    ⟨total, by decide, resolves_self _ _⟩
  obtain ⟨a', pdg', seeds, narrowed, units, ha', hpdg', husers', hnarrow', hclosure', -, -, hruns⟩ :=
    slice_noninterference built_counting (by decide) (by decide) 4 hname
  cases ha.symm.trans ha'
  cases hpdg.symm.trans hpdg'
  cases husers.symm.trans husers'
  cases hnarrow.symm.trans hnarrow'
  cases hclosure.symm.trans hclosure'
  exact ⟨a, pdg, ha, hpdg, husers, hnarrow, hclosure, hruns⟩

end Backslice.Slice

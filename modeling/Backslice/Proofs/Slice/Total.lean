import Backslice.Proofs.Analysis
import Backslice.Proofs.Flow.Build
import Backslice.Proofs.Slice.Query

namespace Backslice.Slice

open Backslice.Graph NameScheme

variable {f : Facts NodeId}

inductive Orderly (vs : List Variable) (name : RawText) (budget : Option Nat) :
    Except (SliceError NodeId) (List Label) → Prop
  | unknown : vs = [] → Orderly vs name budget (.error (.unknownVariable (.text name)))
  | sliced {labels : List Label} : vs ≠ [] → Orderly vs name budget (.ok labels)
  | truncated {b : Nat} : vs ≠ [] → budget = some b →
      Orderly vs name budget (.error (.truncated b b))

theorem query_orderly (hf : DependenceGraph.Closed f) (version suffix name : RawText)
    (line : Option Int) (budget : Option Nat) :
    ∃ vs, f.resolve (ofTexts version suffix) (.text name) = .ok vs ∧
      Orderly vs name budget (query f (ofTexts version suffix) (budget.map Int.ofNat)
        ⟨line, .text name⟩).outcome := by
  obtain ⟨vs, hvs, hresolved⟩ := resolve_ok f version suffix name
  refine ⟨vs, hvs, ?_⟩
  by_cases hne : vs = []
  · subst hne
    rw [outcome_unknown _ fun y hy => List.not_mem_nil ((hresolved y).mpr hy)]
    exact .unknown rfl
  · have hname : ∃ y, Resolved f.declared (ofTexts version suffix) name y := by
      obtain ⟨y, hy⟩ := List.exists_mem_of_ne_nil _ hne
      exact ⟨y, (hresolved y).mp hy⟩
    obtain ⟨pdg, seeds, narrowed, closed, h⟩ := stages_ok hf line hname
    by_cases hnarrowed : narrowed = []
    · rw [h.outcome hname, if_pos hnarrowed]
      exact .sliced hne
    · by_cases hfits : ∀ b ∈ budget, closed.length ≤ b
      · rw [h.outcome_of_fits hname hnarrowed hfits]
        exact .sliced hne
      · push Not at hfits
        obtain ⟨b, hb, hexceeds⟩ := hfits
        rw [Option.mem_def] at hb
        subst hb
        rw [show (some b).map Int.ofNat = some (b : Int) from rfl,
          h.outcome_of_exceeds hname hnarrowed hexceeds]
        exact .truncated hne rfl

/-- The facts of a function are well-formed, and every query for them ends in order. -/
theorem function_query_orderly {src : Source} {suffix : RawText} {function : Tree}
    {scoping : Scoping} {draft : Flow.Draft}
    (h : Analysis.flowOf src suffix function = .ok (scoping, draft)) :
    ∃ a pdg, Analysis.ofGraph draft.graph scoping.vars = .ok a ∧
      DependenceGraph.ofFacts a.facts = .ok pdg ∧
      ∀ (version mark name : RawText) (line : Option Int) (budget : Option Nat),
        ∃ vs, a.facts.resolve (ofTexts version mark) (.text name) = .ok vs ∧
          Orderly vs name budget (query a.facts (ofTexts version mark) (budget.map Int.ofNat)
            ⟨line, .text name⟩).outcome := by
  obtain ⟨body, _, rfl⟩ := Analysis.exists_body_of_flowOf h
  obtain ⟨hfit, _⟩ := Flow.build_ok scoping.parameters body
  obtain ⟨a, ha, hexact⟩ :=
    Analysis.ofGraph_ok hfit.built.sound hfit.successors_exit scoping.vars
  have hclosed := hexact.closed hfit.built.sound
  obtain ⟨pdg, hpdg, _⟩ := DependenceGraph.ofFacts_ok hclosed
  exact ⟨a, pdg, ha, hpdg, fun version mark name line budget =>
    query_orderly hclosed version mark name line budget⟩

def stray : Source where
  bytes := "f(int x) \x7b\n x = 1;\n x;\n break;\n goto out; \x7d".toUTF8
  root := ⟨true, "function_definition", "", 0, 43, [
    ⟨true, "function_declarator", "declarator", 0, 8, [
      ⟨true, "identifier", "declarator", 0, 1, []⟩,
      ⟨true, "parameter_list", "parameters", 1, 8, [
        ⟨true, "parameter_declaration", "", 2, 7, [
          ⟨true, "identifier", "declarator", 6, 7, []⟩]⟩]⟩]⟩,
    ⟨true, "compound_statement", "body", 9, 43, [
      ⟨true, "expression_statement", "", 12, 18, [⟨true, "assignment_expression", "", 12, 17, [
        ⟨true, "identifier", "left", 12, 13, []⟩,
        ⟨false, "=", "operator", 14, 15, []⟩,
        ⟨true, "number_literal", "right", 16, 17, []⟩]⟩]⟩,
      ⟨true, "expression_statement", "", 20, 22, [⟨true, "identifier", "", 20, 21, []⟩]⟩,
      ⟨true, "break_statement", "", 24, 30, []⟩,
      ⟨true, "goto_statement", "", 32, 41, [
        ⟨true, "statement_identifier", "label", 37, 40, []⟩]⟩]⟩]⟩
  damaged := false

set_option maxRecDepth 10000 in
theorem function_query_orderly_stray :
    ∃ scoping draft, Analysis.flowOf stray "#" stray.root = .ok (scoping, draft) ∧
      ∃ a pdg, Analysis.ofGraph draft.graph scoping.vars = .ok a ∧
        DependenceGraph.ofFacts a.facts = .ok pdg ∧
        (∀ (version mark name : RawText) (line : Option Int) (budget : Option Nat),
          ∃ vs, a.facts.resolve (ofTexts version mark) (.text name) = .ok vs ∧
            Orderly vs name budget (query a.facts (ofTexts version mark) (budget.map Int.ofNat)
              ⟨line, .text name⟩).outcome) ∧
        (query a.facts (ofTexts "$" "#") none ⟨some 3, .text "x"⟩).outcome =
          .ok [.line 3, .line 2] ∧
        (query a.facts (ofTexts "$" "#") (some 0) ⟨some 3, .text "x"⟩).outcome =
          .error (.truncated 0 0) ∧
        (query a.facts (ofTexts "$" "#") none ⟨some 3, .text "y"⟩).outcome =
          .error (.unknownVariable (.text "y")) := by
  have hrun : ((Analysis.flowOf stray "#" stray.root).toOption.any fun r =>
      (Analysis.ofGraph r.2.graph r.1.vars).toOption.any fun a => decide (
        (query a.facts (ofTexts "$" "#") none ⟨some 3, .text "x"⟩).outcome =
          .ok [.line 3, .line 2] ∧
        (query a.facts (ofTexts "$" "#") (some 0) ⟨some 3, .text "x"⟩).outcome =
          .error (.truncated 0 0) ∧
        (query a.facts (ofTexts "$" "#") none ⟨some 3, .text "y"⟩).outcome =
          .error (.unknownVariable (.text "y")))) = true := by decide +kernel
  obtain ⟨⟨scoping, draft⟩, h, hrun⟩ := exists_of_any hrun
  obtain ⟨a, ha, hrun⟩ := exists_of_any hrun
  obtain ⟨a', pdg, ha', hpdg, horderly⟩ := function_query_orderly h
  cases ha.symm.trans ha'
  exact ⟨scoping, draft, h, a, pdg, ha, hpdg, horderly, of_decide_eq_true hrun⟩

end Backslice.Slice

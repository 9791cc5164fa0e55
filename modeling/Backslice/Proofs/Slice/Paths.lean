import Backslice.Proofs.Analysis
import Backslice.Proofs.Slice.Query

/-!
The slice in terms of the ways through the flow graph. A branch decides a unit that every way from
one of its successors to the exit passes, though not every way from itself; a definition feeds a
use that it reaches without being defined again. The slice is the least set that holds what decides
or feeds the seeds, and is closed under both.
-/

namespace Backslice.Slice

open Backslice.Graph NameScheme

section

variable (g : Graph) (vars : List Variable) (scheme : NameScheme) (l : Int) (name : RawText)

def Seed (s : NodeId) : Prop :=
  ∃ n ∈ g.nodes, n.id = s ∧ n.line = some l ∧
    ∃ y ∈ n.uses, scheme.matchesName y.name (.text name) = .ok true

/-- What a seed depends on directly, as far as it matters for the name. -/
def Start (p : NodeId) : Prop :=
  ∃ s, Seed g scheme l name s ∧
    (g.Controls p s ∨ (g.Feeds p s ∧ ∃ y, Resolved vars scheme name y ∧ g.Reaches y p s))

inductive Member : NodeId → Prop
  | start {p : NodeId} : Start g vars scheme l name p → Member p
  | control {p u : NodeId} : Member u → g.Controls p u → Member p
  | data {p u : NodeId} : Member u → g.Feeds p u → Member p

inductive Bears (n : Node) : Label → Prop
  | entry : n.line = none → Bears n .entry
  | line {k : Int} : n.line = some k → Bears n (.line k)

inductive Answer (budget : Option Nat) : Except (SliceError NodeId) (List Label) → Prop
  | unknown : (∀ y, ¬ Resolved vars scheme name y) →
      Answer budget (.error (.unknownVariable (.text name)))
  | vacuous : (∃ y, Resolved vars scheme name y) → (∀ p, ¬ Start g vars scheme l name p) →
      Answer budget (.ok [])
  | truncated {units : List NodeId} {b : Nat} : (∃ y, Resolved vars scheme name y) →
      (∃ p, Start g vars scheme l name p) →
      units.Nodup → (∀ u, u ∈ units ↔ Member g vars scheme l name u) →
      budget = some b → b < units.length → Answer budget (.error (.truncated b b))
  | complete {units : List NodeId} {labels : List Label} : (∃ y, Resolved vars scheme name y) →
      (∃ p, Start g vars scheme l name p) →
      units.Nodup → (∀ u, u ∈ units ↔ Member g vars scheme l name u) →
      (∀ b ∈ budget, units.length ≤ b) → labels.Nodup →
      (∀ label, label ∈ labels ↔ label = .line l ∨ ∃ n ∈ g.nodes, n.id ∈ units ∧ Bears n label) →
      Answer budget (.ok labels)

end

variable {g : Graph} {vars : List Variable} {f : Facts NodeId} {pdg : DependenceGraph NodeId}
  {scheme : NameScheme} {version suffix name : RawText} {l : Int}
  {seeds narrowed closed : List NodeId} {p u y : NodeId}

theorem bears_iff {n : Node} {label : Label} : Bears n label ↔ label = .ofLine n.line := by
  constructor
  · rintro (hline | hline) <;> rw [hline] <;> rfl
  · rintro rfl
    cases hline : n.line with
    | none => exact .entry hline
    | some k => exact .line hline

theorem Member.exists_start (h : Member g vars scheme l name u) :
    ∃ p, Start g vars scheme l name p := by
  induction h with
  | start hp => exact ⟨_, hp⟩
  | control _ _ ih => exact ih
  | data _ _ ih => exact ih

theorem resolved_iff (hf : Analysis.Exact g vars f) {y : Variable} :
    Resolved f.declared scheme name y ↔ Resolved vars scheme name y :=
  and_congr_left fun _ => hf.mem_declared y

theorem mem_sources_iff (hf : Analysis.Exact g vars f) (hpdg : DependenceGraph.Mirrors f pdg)
    (hu : u ∈ g.ids) : p ∈ pdg.sources u ↔ g.Controls p u ∨ g.Feeds p u := by
  rw [hpdg.mem_sources_iff, hf.units, hf.mem_frontier u hu, hf.mem_usesOf]
  exact or_congr (and_iff_right hu) (and_iff_right_of_imp Feeds.source_mem)

theorem kept_iff (hf : Analysis.Exact g vars f) (hpdg : DependenceGraph.Mirrors f pdg)
    (hu : u ∈ g.ids) : (p ∈ pdg.sources u ∧ (p ∈ f.frontier u ∨
      ∃ y, Resolved f.declared scheme name y ∧ p ∈ f.reachingDefs y u)) ↔
      g.Controls p u ∨ (g.Feeds p u ∧ ∃ y, Resolved vars scheme name y ∧ g.Reaches y p u) := by
  simp only [mem_sources_iff hf hpdg hu, hf.mem_frontier u hu, resolved_iff hf,
    hf.mem_reachingDefs _ u hu]
  constructor
  · rintro ⟨hc | hd, hc' | hr⟩
    · exact .inl hc
    · exact .inl hc
    · exact .inl hc'
    · exact .inr ⟨hd, hr⟩
  · rintro (hc | ⟨hd, hr⟩)
    · exact ⟨.inl hc, .inl hc⟩
    · exact ⟨.inr hd, .inr hr⟩

section Stages

variable (hf : Analysis.Exact g vars f)
  (h : Stages f scheme (some l) name pdg seeds narrowed closed)

include hf h

theorem Stages.mem_seeds_iff : u ∈ seeds ↔ Seed g scheme l name u := by
  rw [h.mem_seeds, mem_unitsOn, hf.units]
  constructor
  · rintro ⟨⟨hu, hline⟩, raw, hraw, hmatch⟩
    obtain ⟨n, hn, rfl⟩ := mem_ids_iff.mp hu
    rw [hf.usedNames n hn, List.mem_map] at hraw
    obtain ⟨y, hy, rfl⟩ := hraw
    exact ⟨n, hn, rfl, (hf.line n hn).symm.trans hline, y, hy, hmatch⟩
  · rintro ⟨n, hn, rfl, hline, y, hy, hmatch⟩
    refine ⟨⟨id_mem_ids hn, (hf.line n hn).trans hline⟩, y.name, ?_, hmatch⟩
    rw [hf.usedNames n hn]
    exact List.mem_map_of_mem hy

theorem Stages.mem_narrowed_iff : p ∈ narrowed ↔ Start g vars scheme l name p := by
  rw [h.mem_narrowed]
  refine exists_congr fun s => ?_
  rw [h.mem_seeds_iff hf]
  refine and_congr_right fun hs => ?_
  have hmem : s ∈ g.ids := by
    obtain ⟨n, hn, rfl, _⟩ := hs
    exact id_mem_ids hn
  exact kept_iff hf h.mirrors hmem

theorem Stages.mem_closed_iff : u ∈ closed ↔ Member g vars scheme l name u := by
  constructor
  · intro hu
    obtain ⟨p, hp, hpu⟩ := (h.mem_closed u).mp hu
    have hclosed : ∀ {v}, Relation.ReflTransGen (fun u p => p ∈ pdg.sources u) p v →
        v ∈ g.ids := fun hv => by
      rw [← hf.units]
      exact h.closed_mem ((h.mem_closed _).mpr ⟨p, hp, hv⟩)
    clear hu
    -- along the dependences, all of which lie in the graph
    induction hpu with
    | refl => exact .start ((h.mem_narrowed_iff hf).mp hp)
    | tail hpv hsource ih =>
      rcases (mem_sources_iff hf h.mirrors (hclosed hpv)).mp hsource with hc | hd
      · exact .control ih hc
      · exact .data ih hd
  · have hstep : ∀ {p u}, u ∈ closed → g.Controls p u ∨ g.Feeds p u → p ∈ closed := by
      intro p u hu hdep
      have hmem : u ∈ g.ids := hf.units ▸ h.closed_mem hu
      obtain ⟨q, hq, hqu⟩ := (h.mem_closed u).mp hu
      exact (h.mem_closed p).mpr ⟨q, hq, hqu.tail ((mem_sources_iff hf h.mirrors hmem).mpr hdep)⟩
    intro hu
    induction hu with
    | @start p hp => exact (h.mem_closed p).mpr ⟨p, (h.mem_narrowed_iff hf).mpr hp, .refl⟩
    | control _ hc ih => exact hstep ih (.inl hc)
    | data _ hd ih => exact hstep ih (.inr hd)

theorem Stages.mem_labelsOf {label : Label} : label ∈ labelsOf f (some l) closed ↔
    label = .line l ∨ ∃ n ∈ g.nodes, n.id ∈ closed ∧ Bears n label := by
  simp only [labelsOf, List.mem_eraseDups, Option.toList_some, List.map_cons, List.map_nil,
    List.singleton_append, List.mem_cons, List.mem_map, bears_iff]
  refine or_congr_right ⟨?_, ?_⟩
  · rintro ⟨u, hu, rfl⟩
    obtain ⟨n, hn, rfl⟩ := mem_ids_iff.mp (hf.units ▸ h.closed_mem hu)
    exact ⟨n, hn, hu, by rw [hf.line n hn]⟩
  · rintro ⟨n, hn, hu, rfl⟩
    exact ⟨n.id, hu, by rw [hf.line n hn]⟩

end Stages

theorem Stages.answer (hf : Analysis.Exact g vars f)
    (h : Stages f (ofTexts version suffix) (some l) name pdg seeds narrowed closed)
    (hname : ∃ y, Resolved vars (ofTexts version suffix) name y) (budget : Option Nat) :
    Answer g vars (ofTexts version suffix) l name budget
      (query f (ofTexts version suffix) (budget.map Int.ofNat) ⟨some l, .text name⟩).outcome := by
  have hname' : ∃ y, Resolved f.declared (ofTexts version suffix) name y :=
    hname.imp fun y => (resolved_iff hf).mpr
  by_cases hne : narrowed = []
  · rw [h.outcome hname', if_pos hne]
    refine .vacuous hname fun p hp => ?_
    have := (h.mem_narrowed_iff hf).mpr hp
    rw [hne] at this
    cases this
  · have hstart : ∃ p, Start g vars (ofTexts version suffix) l name p := by
      obtain ⟨p, hp⟩ := List.exists_mem_of_ne_nil _ hne
      exact ⟨p, (h.mem_narrowed_iff hf).mp hp⟩
    by_cases hfits : ∀ b ∈ budget, closed.length ≤ b
    · rw [h.outcome_of_fits hname' hne hfits]
      exact .complete hname hstart h.nodup (fun u => h.mem_closed_iff hf) hfits
        (nodup_eraseDups _) fun label => h.mem_labelsOf hf
    · push Not at hfits
      obtain ⟨b, hb, hexceeds⟩ := hfits
      rw [Option.mem_def] at hb
      subst hb
      rw [show (some b).map Int.ofNat = some (b : Int) from rfl,
        h.outcome_of_exceeds hname' hne hexceeds]
      exact .truncated hname hstart h.nodup (fun u => h.mem_closed_iff hf) rfl hexceeds

theorem answer_of_exact (hf : Analysis.Exact g vars f) (hclosed : DependenceGraph.Closed f)
    (version suffix name : RawText) (l : Int) (budget : Option Nat) :
    Answer g vars (ofTexts version suffix) l name budget
      (query f (ofTexts version suffix) (budget.map Int.ofNat) ⟨some l, .text name⟩).outcome := by
  by_cases hname : ∃ y, Resolved vars (ofTexts version suffix) name y
  · obtain ⟨pdg, seeds, narrowed, closed, h⟩ := stages_ok hclosed (some l)
      (hname.imp fun y => (resolved_iff hf).mpr)
    exact h.answer hf hname budget
  · have hnone : ∀ y, ¬ Resolved vars (ofTexts version suffix) name y := not_exists.mp hname
    rw [outcome_unknown _ fun y hy => hnone y ((resolved_iff hf).mp hy)]
    exact .unknown hnone

/-- A query answers in terms of the ways through the graph. -/
theorem query_answer (hg : g.Built) (hexit : g.successors exitId = []) (vars : List Variable)
    (version suffix name : RawText) (l : Int) (budget : Option Nat) :
    ∃ a, Analysis.ofGraph g vars = .ok a ∧
      Answer g vars (ofTexts version suffix) l name budget
        (query a.facts (ofTexts version suffix) (budget.map Int.ofNat)
          ⟨some l, .text name⟩).outcome := by
  obtain ⟨a, ha, hf⟩ := Analysis.ofGraph_ok hg.sound hexit vars
  exact ⟨a, ha, answer_of_exact hf (hf.closed hg.sound) version suffix name l budget⟩

def count : Variable := { name := "count", sourceName := "count" }
def note : Variable := { name := "note", sourceName := "note" }
def total : Variable := { name := "total", sourceName := "total" }

/-- A loop that counts down, adds up, and notes each sum where nobody reads it. -/
def counting : Graph :=
  let g : Graph := {}
  let g := g.addNode { id := 0, kind := .entry, line := none, defs := [count, total] }
  let g := g.addNode { id := 1, kind := .whileTest, line := some 1, uses := [count] }
  let g := g.addNode
    { id := 2, kind := .expression, line := some 2, defs := [note], uses := [total] }
  let g := g.addNode
    { id := 3, kind := .expression, line := some 3, defs := [count, total],
      uses := [count, total] }
  let g := g.addNode { id := 4, kind := .returnJump, line := some 4, uses := [total] }
  let g := (g.addEdge 0 1 "").1
  let g := (g.addEdge 1 2 "true").1
  let g := (g.addEdge 2 3 "").1
  let g := (g.addEdge 3 1 "").1
  let g := (g.addEdge 1 4 "false").1
  (g.addEdge 4 exitId "").1

theorem built_counting : counting.Built := by
  unfold counting
  repeat' first | exact .empty | apply Built.join | apply Built.addNode | decide

theorem query_answer_counting : ∃ a, Analysis.ofGraph counting [count, note, total] = .ok a ∧
    (∀ budget, Answer counting [count, note, total] (ofTexts "$" "#") 4 "total" budget
      (query a.facts (ofTexts "$" "#") (budget.map Int.ofNat) ⟨some 4, .text "total"⟩).outcome) ∧
    (query a.facts (ofTexts "$" "#") (some 3) ⟨some 4, .text "total"⟩).outcome =
      .ok [.line 4, .line 1, .entry, .line 3] ∧
    (query a.facts (ofTexts "$" "#") (some 2) ⟨some 4, .text "total"⟩).outcome =
      .error (.truncated 2 2) := by
  have hrun : ((Analysis.ofGraph counting [count, note, total]).toOption.any fun a => decide (
      (query a.facts (ofTexts "$" "#") (some 3) ⟨some 4, .text "total"⟩).outcome =
        .ok [.line 4, .line 1, .entry, .line 3] ∧
      (query a.facts (ofTexts "$" "#") (some 2) ⟨some 4, .text "total"⟩).outcome =
        .error (.truncated 2 2))) = true := by decide +kernel
  obtain ⟨a, ha, hrun⟩ := exists_of_any hrun
  refine ⟨a, ha, fun budget => ?_, of_decide_eq_true hrun⟩
  obtain ⟨a', ha', hanswer⟩ := query_answer built_counting (by decide) [count, note, total]
    "$" "#" "total" 4 budget
  cases ha.symm.trans ha'
  exact hanswer

end Backslice.Slice

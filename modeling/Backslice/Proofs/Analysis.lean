import Backslice.Analysis
import Backslice.Proofs.Dependence
import Backslice.Proofs.Flow.PostDominance
import Backslice.Proofs.Flow.Reaching

namespace Backslice

namespace Graph

/-- The branch `p` decides whether `u` is reached. -/
def Controls (g : Graph) (p u : NodeId) : Prop := Decides g.Extended exitId p u

/-- A variable that `u` uses may have its value from `p`. -/
def Feeds (g : Graph) (p u : NodeId) : Prop := ∃ x, g.Uses u x ∧ g.Reaches x p u

variable {g : Graph} {p u : NodeId} {x : Variable}

theorem Uses.mem_ids (h : g.Uses u x) : u ∈ g.ids := by
  obtain ⟨n, hn, rfl, _⟩ := h
  exact id_mem_ids hn

theorem Uses.mem_vars {vars : List Variable} (h : g.Uses u x)
    (huses : ∀ n ∈ g.nodes, ∀ y ∈ n.uses, y ∈ vars) : x ∈ vars := by
  obtain ⟨n, hn, _, hx⟩ := h
  exact huses n hn x hx

theorem Feeds.source_mem (h : g.Feeds p u) : p ∈ g.ids := by
  obtain ⟨_, _, hd, _⟩ := h
  exact hd.mem_ids

theorem Feeds.target_mem (h : g.Feeds p u) : u ∈ g.ids := by
  obtain ⟨_, hu, _⟩ := h
  exact hu.mem_ids

theorem Controls.source_mem (h : g.Controls p u) (hg : g.Sound) : p ∈ g.ids := by
  obtain ⟨⟨s, hs, _⟩, _⟩ := h
  exact hs.source_mem hg

end Graph

namespace Analysis

open Backslice.Graph

structure Exact (g : Graph) (vars : List Variable) (f : Facts NodeId) : Prop where
  units : f.units = g.ids
  mem_declared : ∀ y, y ∈ f.declared ↔ y ∈ vars
  mem_frontier : ∀ u ∈ g.ids, ∀ p, p ∈ f.frontier u ↔ g.Controls p u
  mem_usesOf : ∀ p u, u ∈ f.usesOf p ↔ g.Feeds p u
  mem_reachingDefs : ∀ x, ∀ u ∈ g.ids, ∀ p, p ∈ f.reachingDefs x u ↔ g.Reaches x p u
  line : ∀ n ∈ g.nodes, f.line n.id = n.line
  usedNames : ∀ n ∈ g.nodes, f.usedNames n.id = n.uses.map (·.name)

variable {g : Graph} {vars : List Variable} {f : Facts NodeId}

theorem ofGraph_ok (hg : g.Sound) (hexit : g.successors exitId = []) (vars : List Variable) :
    ∃ a, ofGraph g vars = .ok a ∧ Exact g vars a.facts := by
  obtain ⟨pd, hpd, _, hfrontier⟩ := PostDominance.ofGraph_ok hg
  obtain ⟨r, hr, hprogress⟩ := Reaching.ofGraph_ok hg hexit
  refine ⟨⟨g, vars, pd, r⟩, ?_, ?_⟩
  · simp only [ofGraph, hpd, hr, bind, Except.bind]
    rfl
  · constructor
    case units => rfl
    case mem_declared => exact fun y => List.mem_eraseDups
    case mem_frontier => exact fun u hu p => hfrontier u (List.mem_cons_of_mem _ hu) p
    case mem_usesOf => exact fun p u => Reaching.mem_usesOf hg hexit hprogress
    case mem_reachingDefs =>
      intro x u hu p
      rw [← hprogress.mem_into_iff (d := ⟨p, x⟩) hg hexit hu]
      exact Reaching.mem_definitionsOf
    case line =>
      intro n hn
      simp only [facts, hg.node?_id hn, Option.bind_some]
    case usedNames =>
      intro n hn
      simp only [facts, hg.node?_id hn, Option.map_some, Option.getD_some]

theorem Exact.closed (h : Exact g vars f) (hg : g.Sound) : DependenceGraph.Closed f where
  frontier_mem u hu r hr := by
    rw [h.units] at hu ⊢
    exact ((h.mem_frontier u hu r).mp hr).source_mem hg
  usesOf_mem u _ v hv := by
    rw [h.units]
    exact ((h.mem_usesOf u v).mp hv).target_mem

theorem exists_body_of_flowOf {src : Source} {suffix : RawText} {function : Tree}
    {scoping : Scoping} {draft : Flow.Draft}
    (h : flowOf src suffix function = .ok (scoping, draft)) :
    ∃ body, Stmt.ofFunction ⟨src, scoping.lookup⟩ function = .ok body ∧
      draft = Flow.build scoping.parameters body := by
  unfold flowOf at h
  obtain ⟨s, _, h⟩ := exists_of_bind_eq_ok h
  obtain ⟨body, hbody, h⟩ := exists_of_bind_eq_ok h
  cases h
  exact ⟨body, hbody, rfl⟩

end Analysis

end Backslice

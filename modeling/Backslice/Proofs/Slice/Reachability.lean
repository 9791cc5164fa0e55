import Backslice.Proofs.Slice.Closure

namespace Backslice

def DependenceGraph.HasPath {υ : Type} (g : DependenceGraph υ) : υ → υ → Prop :=
  Relation.ReflTransGen fun u v => ∃ k, ⟨u, v, k⟩ ∈ g.edges

namespace Slice

variable {υ : Type} [DecidableEq υ] {g : DependenceGraph υ} {seeds stack N : List υ} {w : υ}

theorem behind_iff_hasPath : Behind g seeds w ↔ ∃ s ∈ seeds, g.HasPath w s := by
  have hswap : (fun u p => p ∈ g.sources u) =
      Function.swap fun u v => ∃ k, (⟨u, v, k⟩ : Dependence υ) ∈ g.edges := by
    funext u p
    exact propext DependenceGraph.mem_sources
  refine exists_congr fun s => and_congr_right fun _ => ?_
  rw [hswap]
  exact Relation.reflTransGen_swap

structure Covers (g : DependenceGraph υ) (seeds : List υ) (S : υ → Prop) : Prop where
  seed : ∀ s ∈ seeds, S s
  source : ∀ u v k, ⟨u, v, k⟩ ∈ g.edges → S v → S u

omit [DecidableEq υ] in
theorem Covers.of_hasPath {S : υ → Prop} (h : Covers g seeds S) {s : υ} (hs : s ∈ seeds)
    (hw : g.HasPath w s) : S w := by
  induction hw using Relation.ReflTransGen.head_induction_on with
  | refl => exact h.seed s hs
  | head he _ ih =>
    obtain ⟨k, he⟩ := he
    exact h.source _ _ k he ih

omit [DecidableEq υ] in
theorem covers_of_mem_iff (h : ∀ w, w ∈ N ↔ ∃ s ∈ seeds, g.HasPath w s) :
    Covers g seeds (· ∈ N) where
  seed s hs := (h s).mpr ⟨s, hs, .refl⟩
  source u v k he hv := by
    obtain ⟨s, hs, hvs⟩ := (h v).mp hv
    exact (h u).mpr ⟨s, hs, .head ⟨k, he⟩ hvs⟩

/-- Two results that differ in the order of the units, or in the stray seed they name, but in
nothing else. -/
inductive SameOutcome : Except (SliceError υ) (List υ) → Except (SliceError υ) (List υ) → Prop
  | ok {N M : List υ} : N.Perm M → SameOutcome (.ok N) (.ok M)
  | malformed (m n : MalformedFacts υ) : SameOutcome (.error (.malformed m)) (.error (.malformed n))
  | truncated (b : Int) (n : Nat) : SameOutcome (.error (.truncated b n)) (.error (.truncated b n))

theorem Yields.alike {r r' : Except (SliceError υ) (List υ)} {stack' : List υ} (hg : g.Regular)
    (hstack : ∀ s, s ∈ stack ↔ s ∈ seeds) (hstack' : ∀ s, s ∈ stack' ↔ s ∈ seeds)
    (h : Yields g none ⟨stack, []⟩ r) (h' : Yields g none ⟨stack', []⟩ r') : SameOutcome r r' := by
  rcases h.exact hg hstack with ⟨N, rfl, hN, hlisted, hmem⟩ | ⟨u, rfl, hu, hunlisted⟩
  · rcases h'.exact hg hstack' with ⟨M, rfl, hM, _, hmem'⟩ | ⟨u, _, hu, hunlisted⟩
    · exact .ok ((List.perm_ext_iff_of_nodup hN hM).mpr fun w => by rw [hmem, hmem'])
    · exact absurd (hlisted u hu) hunlisted
  · rcases h'.exact hg hstack' with ⟨_, _, _, hlisted, _⟩ | ⟨u', rfl, _, _⟩
    · exact absurd (hlisted u hu) hunlisted
    · exact .malformed _ _

/-- The closure ends, fails just for a seed that is no unit of the graph, and is otherwise the least
set that holds the seeds and all they depend on. Every other order of visits ends, too, and gives
the same. -/
theorem closure_reachable (hg : g.Built) (seeds : List υ) :
    ((∃ m, closure g seeds none = .error (.malformed m)) ↔ ∃ s ∈ seeds, s ∉ g.units) ∧
    ((∀ s ∈ seeds, s ∈ g.units) → ∃ N, closure g seeds none = .ok N ∧ N.Nodup ∧
      (∀ w, w ∈ N ↔ ∃ s ∈ seeds, g.HasPath w s) ∧
      Covers g seeds (· ∈ N) ∧ ∀ S, Covers g seeds S → ∀ w ∈ N, S w) ∧
    (WellFounded fun x y => Turn g none y x) ∧
    ∀ stack r, (∀ s, s ∈ stack ↔ s ∈ seeds) → Yields g none ⟨stack, []⟩ r →
      SameOutcome (closure g seeds none) r := by
  have hstack : ∀ s, s ∈ seeds.reverse ↔ s ∈ seeds := fun s => List.mem_reverse
  have hclosure : Yields g none ⟨seeds.reverse, []⟩ (closure g seeds none) := yields_close ..
  refine ⟨⟨?_, ?_⟩, fun hseeds => ?_, wellFounded_turn g none, fun stack r hs hr =>
    hclosure.alike hg.regular hstack hs hr⟩
  · rintro ⟨m, hm⟩
    rcases hclosure.exact hg.regular hstack with ⟨N, hN, _⟩ | ⟨u, _, hu⟩
    · rw [hm] at hN
      cases hN
    · exact ⟨u, hu⟩
  · rintro ⟨s, hs, hunlisted⟩
    rcases hclosure.exact hg.regular hstack with ⟨N, _, _, hlisted, _⟩ | ⟨u, hu, _⟩
    · exact absurd (hlisted s hs) hunlisted
    · exact ⟨_, hu⟩
  · obtain ⟨N, hok, hnodup, hmem, _⟩ := closure_ok hg.regular hseeds
    simp only [behind_iff_hasPath] at hmem
    refine ⟨N, hok, hnodup, hmem, covers_of_mem_iff hmem, fun S hS w hw => ?_⟩
    obtain ⟨s, hs, hws⟩ := (hmem w).mp hw
    exact hS.of_hasPath hs hws

def knot : DependenceGraph Nat :=
  let g : DependenceGraph Nat := {}
  let g := (g.addUnit 9).addEdge 1 2 .control
  let g := g.1.addEdge 1 2 .data
  let g := g.1.addEdge 2 1 .data
  let g := g.1.addEdge 2 2 .control
  (g.1.addEdge 2 3 .data).1

theorem built_knot : knot.Built :=
  .addEdge _ _ _ (.addEdge _ _ _ (.addEdge _ _ _ (.addEdge _ _ _ (.addEdge _ _ _
    (.addUnit _ .empty)))))

theorem closure_knot : closure knot [3, 1, 3] none = .ok [1, 2, 3] := by decide +kernel

theorem closure_reachable_knot :
    (closure knot [3, 1, 3] none = .ok [1, 2, 3] ∧
      (∀ w, w ∈ [1, 2, 3] ↔ ∃ s ∈ [3, 1, 3], knot.HasPath w s) ∧
      Covers knot [3, 1, 3] (· ∈ [1, 2, 3]) ∧
      ∀ S, Covers knot [3, 1, 3] S → ∀ w ∈ [1, 2, 3], S w) ∧
    ∃ m, closure knot [3, 7, 1] none = .error (.malformed m) := by
  obtain ⟨N, hN, _, hreached⟩ := (closure_reachable built_knot [3, 1, 3]).2.1 (by decide)
  cases closure_knot.symm.trans hN
  exact ⟨⟨closure_knot, hreached⟩,
    (closure_reachable built_knot [3, 7, 1]).1.mpr ⟨7, by decide, by decide⟩⟩

/-- A budget refuses just the closures with more units than it admits, and what it admits is the
whole closure. A larger budget admits no less, and the order of the visits does not matter. -/
theorem closure_budget (hg : g.Built) (hseeds : ∀ s ∈ seeds, s ∈ g.units) :
    ∃ N, closure g seeds none = .ok N ∧ N.Nodup ∧
      (∀ b : Nat, closure g seeds (some b) =
        if N.length ≤ b then .ok N else .error (.truncated b b)) ∧
      (∀ b c : Nat, b ≤ c → ∀ M, closure g seeds (some b) = .ok M →
        closure g seeds (some c) = .ok M) ∧
      ∀ (b : Nat) stack r, (∀ s, s ∈ stack ↔ s ∈ seeds) → Yields g (some b) ⟨stack, []⟩ r →
        SameOutcome (closure g seeds (some b)) r := by
  obtain ⟨N, hok, hnodup, hmem, hbudget⟩ := closure_ok hg.regular hseeds
  refine ⟨N, hok, hnodup, hbudget, fun b c hbc M hM => ?_, fun b stack r hs hr => ?_⟩
  · rw [hbudget] at hM ⊢
    split at hM
    · rename_i hle
      rw [if_pos (Nat.le_trans hle hbc), hM]
    · cases hM
  · rw [hbudget]
    rcases hr.within hg.regular hseeds hnodup hmem hs with ⟨hle, M, rfl, hperm⟩ | ⟨hlt, rfl⟩
    · rw [if_pos hle]
      exact .ok hperm.symm
    · rw [if_neg (Nat.not_le.mpr hlt)]
      exact .truncated _ _

theorem closure_budget_knot :
    (∀ b : Nat, closure knot [3, 1, 3] (some b) =
      if 3 ≤ b then .ok [1, 2, 3] else .error (.truncated b b)) ∧
    (∀ b c : Nat, b ≤ c → ∀ M, closure knot [3, 1, 3] (some b) = .ok M →
      closure knot [3, 1, 3] (some c) = .ok M) ∧
    ∀ (b : Nat) stack r, (∀ s, s ∈ stack ↔ s ∈ [3, 1, 3]) →
      Yields knot (some b) ⟨stack, []⟩ r → SameOutcome (closure knot [3, 1, 3] (some b)) r := by
  have hseeds : ∀ s ∈ [3, 1, 3], s ∈ knot.units := by decide
  obtain ⟨N, hN, _, hbudget⟩ := closure_budget built_knot hseeds
  cases closure_knot.symm.trans hN
  exact hbudget

end Slice

end Backslice

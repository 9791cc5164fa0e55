import Backslice.Slice.Seeds

/-!
The backward closure: all units from which a seed can be reached along dependences of either kind.
A budget bounds how many units may be visited; a closure that needs more is refused as a whole.
-/

namespace Backslice

variable {υ : Type} [DecidableEq υ]

namespace Slice

def unvisited (g : DependenceGraph υ) (visited : List υ) : List υ :=
  g.units.filter fun u => u ∉ visited

theorem length_unvisited_lt {g : DependenceGraph υ} {visited : List υ} {u : υ}
    (hu : u ∈ g.units) (hv : u ∉ visited) :
    (unvisited g (u :: visited)).length < (unvisited g visited).length := by
  have hsub : unvisited g (u :: visited) = (unvisited g visited).filter fun w => w ≠ u := by
    simp only [unvisited, List.filter_filter]
    congr 1
    funext w
    by_cases h : w = u <;> simp [h]
  rw [hsub]
  apply List.length_filter_lt_length_iff_exists.mpr
  exact ⟨u, by simp [unvisited, hu, hv], by simp⟩

theorem length_sources_le (g : DependenceGraph υ) (visited : List υ) (u : υ) :
    ((g.sources u).filter fun w => w ∉ visited).length ≤ g.edges.length := by
  refine Nat.le_trans (List.length_filter_le ..) ?_
  rw [DependenceGraph.sources, List.length_map]
  exact List.length_filter_le ..

def spent (budget : Option Int) (visited : Nat) : Option Int :=
  budget.filter fun b => b ≤ visited

def close (g : DependenceGraph υ) (budget : Option Int) (stack visited : List υ) :
    Except (SliceError υ) (List υ) :=
  match stack with
  | [] => .ok visited
  | u :: rest =>
    if _hv : u ∈ visited then close g budget rest visited
    else match spent budget visited.length with
      | some b => .error (.truncated b visited.length)
      | none =>
        if _hu : u ∈ g.units then
          close g budget ((g.sources u).filter (· ∉ u :: visited) ++ rest) (u :: visited)
        else .error (.malformed (.notInGraph u))
termination_by (unvisited g visited).length * (g.edges.length + 1) + stack.length
decreasing_by
  · simp
  · have hlt := length_unvisited_lt _hu _hv
    have hle := length_sources_le g (u :: visited) u
    have hmul := Nat.mul_le_mul_right (g.edges.length + 1) hlt
    simp only [List.length_append, List.length_cons, Nat.succ_mul] at *
    omega

/-- All units that the seeds depend on, the seeds among them. The last seed is visited first. -/
def closure (g : DependenceGraph υ) (seeds : List υ) (budget : Option Int) :
    Except (SliceError υ) (List υ) :=
  close g budget seeds.reverse []

end Slice

end Backslice

import Backslice.Flow.ExitEdges
import Backslice.Proofs.Flow.DepthFirst
import Backslice.Proofs.Flow.Graph
import Mathlib.Data.Finset.Card
import Mathlib.Data.List.MinMax

namespace Backslice

open Relation (ReflTransGen)
open DepthFirst (Linked neighbours)

namespace Graph

def Flows (g : Graph) (v w : NodeId) : Prop := v ≠ exitId ∧ g.Step v w

/-- The flow cannot get from a node to the exit, can get back to the node from wherever it gets,
and the node has the smallest id there. -/
def Trapped (g : Graph) (v : NodeId) : Prop :=
  v ∈ g.ids ∧ ¬ ReflTransGen g.Flows v exitId ∧
    ∀ w, ReflTransGen g.Flows v w → ReflTransGen g.Flows w v ∧ v ≤ w

/-- The flow with virtual exit edges. -/
def Extended (g : Graph) (v w : NodeId) : Prop := g.Flows v w ∨ (w = exitId ∧ g.Trapped v)

variable {g : Graph} {v w : NodeId}

theorem Sound.reaches_known (h : g.Sound) (hv : v ∈ exitId :: g.ids)
    (hr : ReflTransGen g.Flows v w) : w ∈ exitId :: g.ids := by
  cases hr with
  | refl => exact hv
  | tail _ hs => exact h.target_known _ _ hs.2

end Graph

namespace ExitEdges

open Backslice.Graph

variable {g : Graph} {v w : NodeId}

theorem smallest_eq_min? (l : List NodeId) : smallest l = l.min? := by
  cases l <;> rfl

theorem smallest_eq_some {l : List NodeId} {m : NodeId} :
    smallest l = some m ↔ m ∈ l ∧ ∀ w ∈ l, m ≤ w := by
  rw [smallest_eq_min?, List.min?_eq_some_iff]

theorem nodup_keys_plain (g : Graph) : (plain g).keys.Nodup :=
  Table.nodup_keys_put (Table.nodup_keys_ofKeys ..) ..

@[simp] theorem mem_keys_plain : v ∈ (plain g).keys ↔ v ∈ exitId :: g.ids := by
  simp [plain, or_comm]

theorem linked_plain (h : g.Sound) : Linked (plain g) v w ↔ g.Flows v w := by
  simp only [Linked, neighbours, plain, Table.get?_put, Table.get?_ofKeys, Flows]
  by_cases hv : exitId = v
  · simp [hv]
  · by_cases hmem : v ∈ g.ids
    · simp [hv, hmem, Ne.symm hv, Step]
    · have hstep : ¬ g.Step v w := by
        intro hs
        have hknown := h.source_known hs
        rw [List.mem_cons] at hknown
        exact absurd hknown (not_or.mpr ⟨Ne.symm hv, hmem⟩)
      simp [hv, hmem, hstep]

theorem linked_plain_eq (h : g.Sound) : Linked (plain g) = g.Flows := by
  funext v w
  exact propext (linked_plain h)

theorem mem_reach (h : g.Sound) (hv : v ∈ exitId :: g.ids) :
    w ∈ ((Table.ofKeys (plain g).keys (DepthFirst.reachable (plain g))).get? v).getD [] ↔
      ReflTransGen g.Flows v w := by
  rw [Table.get?_ofKeys, if_pos (mem_keys_plain.mpr hv), Option.getD_some,
    DepthFirst.mem_reachable, linked_plain_eq h]

theorem header?_eq_some (h : g.Sound) (hv : v ∈ exitId :: g.ids) {m : NodeId} :
    header? (Table.ofKeys (plain g).keys (DepthFirst.reachable (plain g))) v = some m ↔
      ¬ ReflTransGen g.Flows v exitId ∧
        (∀ w, ReflTransGen g.Flows v w → ReflTransGen g.Flows w v) ∧
        ReflTransGen g.Flows v m ∧ ∀ w, ReflTransGen g.Flows v w → m ≤ w := by
  have hback : ∀ w, ReflTransGen g.Flows v w →
      (v ∈ ((Table.ofKeys (plain g).keys (DepthFirst.reachable (plain g))).get? w).getD [] ↔
        ReflTransGen g.Flows w v) := fun w hw => mem_reach h (h.reaches_known hv hw)
  unfold header?
  dsimp only
  split
  · rename_i hexit
    rw [mem_reach h hv] at hexit
    simp [hexit]
  · rename_i hexit
    rw [mem_reach h hv] at hexit
    split
    · rename_i hall
      have hall' : ∀ w, ReflTransGen g.Flows v w → ReflTransGen g.Flows w v := by
        intro w hw
        have hmem := List.all_eq_true.mp hall w ((mem_reach h hv).mpr hw)
        exact (hback w hw).mp (of_decide_eq_true hmem)
      rw [smallest_eq_some]
      simp only [mem_reach h hv]
      exact ⟨fun hm => ⟨hexit, hall', hm⟩, fun hm => hm.2.2⟩
    · rename_i hall
      constructor
      · intro hm; cases hm
      · rintro ⟨_, hall', _⟩
        refine absurd (List.all_eq_true.mpr fun w hw => ?_) hall
        have hw := (mem_reach h hv).mp hw
        exact decide_eq_true ((hback w hw).mpr (hall' w hw))

theorem mem_headers (h : g.Sound) : v ∈ headers (plain g) ↔ g.Trapped v := by
  simp only [headers, List.mem_eraseDups, List.mem_filterMap, List.mem_reverse,
    DepthFirst.mem_walkFrom_left, linked_plain_eq h]
  constructor
  · rintro ⟨u, ⟨root, hroot, hreach⟩, hu⟩
    have hknown := h.reaches_known (mem_keys_plain.mp hroot) hreach
    obtain ⟨hexit, hback, huv, hmin⟩ := (header?_eq_some h hknown).mp hu
    have hvu := hback v huv
    refine ⟨?_, fun hv => hexit (huv.trans hv), fun w hw => ?_⟩
    · rcases List.mem_cons.mp (h.reaches_known hknown huv) with rfl | hv
      · exact absurd huv hexit
      · exact hv
    · exact ⟨(hback w (huv.trans hw)).trans huv, hmin w (huv.trans hw)⟩
  · rintro ⟨hv, hexit, hback⟩
    have hknown : v ∈ exitId :: g.ids := List.mem_cons_of_mem _ hv
    refine ⟨v, ⟨v, mem_keys_plain.mpr hknown, .refl⟩, (header?_eq_some h hknown).mpr ?_⟩
    exact ⟨hexit, fun w hw => (hback w hw).1, .refl, fun w hw => (hback w hw).2⟩

theorem linked_addExit {succ : Adjacency} {u : NodeId} :
    Linked (addExit succ u) v w ↔ Linked succ v w ∨ (w = exitId ∧ v = u) := by
  simp only [Linked, neighbours, addExit, Table.get?_put]
  split
  · rename_i hu
    subst hu
    simp
  · rename_i hu
    simp [Ne.symm hu]

theorem linked_foldl_addExit {succ : Adjacency} (us : List NodeId) :
    Linked (us.foldl addExit succ) v w ↔ Linked succ v w ∨ (w = exitId ∧ v ∈ us) := by
  induction us generalizing succ with
  | nil => simp
  | cons u us ih =>
    rw [List.foldl_cons, ih, linked_addExit, List.mem_cons]
    tauto

theorem keys_foldl_addExit {succ : Adjacency} {us : List NodeId} (h : ∀ u ∈ us, u ∈ succ.keys) :
    (us.foldl addExit succ).keys = succ.keys := by
  induction us generalizing succ with
  | nil => rfl
  | cons u us ih =>
    have hkeys : (addExit succ u).keys = succ.keys := by
      rw [addExit, Table.keys_put, if_pos (h u (List.mem_cons_self ..))]
    rw [List.foldl_cons, ih (fun u' hu' => hkeys ▸ h u' (List.mem_cons_of_mem _ hu')), hkeys]

theorem keys_extended (h : g.Sound) : (extended g).keys = (plain g).keys := by
  refine keys_foldl_addExit fun u hu => ?_
  rw [mem_headers h] at hu
  exact mem_keys_plain.mpr (List.mem_cons_of_mem _ hu.1)

theorem mem_keys_extended (h : g.Sound) : v ∈ (extended g).keys ↔ v ∈ exitId :: g.ids := by
  rw [keys_extended h, mem_keys_plain]

theorem nodup_keys_extended (h : g.Sound) : (extended g).keys.Nodup :=
  keys_extended h ▸ nodup_keys_plain g

theorem linked_extended (h : g.Sound) : Linked (extended g) v w ↔ g.Extended v w := by
  rw [extended, linked_foldl_addExit, linked_plain h, mem_headers h, Extended]

theorem get?_extended (h : g.Sound) (hv : v ∈ exitId :: g.ids) :
    (extended g).get? v = some (neighbours (extended g) v) := by
  rw [← mem_keys_extended h, ← Table.exists_get?_iff] at hv
  obtain ⟨ws, hws⟩ := hv
  rw [hws, neighbours, hws, Option.getD_some]

theorem mem_neighbours_reversed (h : g.Sound) :
    w ∈ neighbours (reversed (extended g)) v ↔ g.Extended w v := by
  rw [← linked_extended h, Linked, neighbours, reversed, Table.get?_ofKeys]
  have hentry : ∀ ws, (w, ws) ∈ (extended g).entries ↔ (extended g).get? w = some ws :=
    fun ws => (Table.get?_eq_some_iff_mem (nodup_keys_extended h)).symm
  have hmem : w ∈ ((extended g).entries.filter fun e => v ∈ e.2).map (·.1) ↔
      v ∈ neighbours (extended g) w := by
    simp only [List.mem_map, List.mem_filter, Prod.exists, exists_and_right, exists_eq_right,
      decide_eq_true_eq, hentry, neighbours]
    constructor
    · rintro ⟨ws, hws, hv⟩
      rwa [hws]
    · intro hv
      cases hw : (extended g).get? w with
      | none => rw [hw] at hv; cases hv
      | some ws => rw [hw] at hv; exact ⟨ws, rfl, hv⟩
  split
  · rw [Option.getD_some, hmem]
  · rename_i hv
    constructor
    · intro hw; cases hw
    · intro hw
      refine absurd ((mem_keys_extended h).mpr ?_) hv
      rcases (linked_extended h).mp hw with hflow | ⟨rfl, _⟩
      · exact h.target_known _ _ hflow.2
      · exact List.mem_cons_self ..

end ExitEdges

namespace Graph

variable {g : Graph} {v w : NodeId}

theorem Extended.source_mem (h : g.Sound) (he : g.Extended v w) : v ∈ g.ids := by
  rcases he with ⟨hne, hs⟩ | ⟨_, ht⟩
  · exact (List.mem_cons.mp (h.source_known hs)).resolve_left hne
  · exact ht.1

theorem Extended.source_ne_exit (h : g.Sound) (he : g.Extended v w) : v ≠ exitId :=
  fun hv => h.exit_notMem (hv ▸ he.source_mem h)

theorem Extended.target_mem (h : g.Sound) (he : g.Extended v w) : w ∈ exitId :: g.ids := by
  rcases he with hf | ⟨rfl, _⟩
  · exact h.target_known _ _ hf.2
  · exact List.mem_cons_self ..

theorem Sound.extended_reaches_exit (h : g.Sound) (hv : v ∈ exitId :: g.ids) :
    ReflTransGen g.Extended v exitId := by
  have hmono : ∀ {a b}, ReflTransGen g.Flows a b → ReflTransGen g.Extended a b :=
    fun hab => hab.lift id fun _ _ => .inl
  -- either all that is reached leads back, or some of it reaches less
  induction hn : (DepthFirst.reachable (ExitEdges.plain g) v).toFinset.card using Nat.strongRecOn
    generalizing v with
  | _ n ih =>
    have hreach : ∀ u w, w ∈ (DepthFirst.reachable (ExitEdges.plain g) u).toFinset ↔
        ReflTransGen g.Flows u w := by
      intro u w
      rw [List.mem_toFinset, DepthFirst.mem_reachable, ExitEdges.linked_plain_eq h]
    by_cases hexit : ReflTransGen g.Flows v exitId
    · exact hmono hexit
    by_cases hback : ∀ w, ReflTransGen g.Flows v w → ReflTransGen g.Flows w v
    · obtain ⟨m, hm⟩ : ∃ m, ExitEdges.smallest (DepthFirst.reachable (ExitEdges.plain g) v) =
          some m := by
        have hself := List.mem_toFinset.mp ((hreach v v).mpr .refl)
        cases hl : DepthFirst.reachable (ExitEdges.plain g) v with
        | nil => rw [hl] at hself; cases hself
        | cons a l => exact ⟨_, rfl⟩
      rw [ExitEdges.smallest_eq_some] at hm
      have hvm : ReflTransGen g.Flows v m := (hreach v m).mp (List.mem_toFinset.mpr hm.1)
      have htrapped : g.Trapped m := by
        refine ⟨?_, fun hme => hexit (hvm.trans hme), fun w hw => ?_⟩
        · rcases List.mem_cons.mp (h.reaches_known hv hvm) with rfl | hmem
          · exact absurd hvm hexit
          · exact hmem
        · have hvw := hvm.trans hw
          exact ⟨(hback w hvw).trans hvm, hm.2 w (List.mem_toFinset.mp ((hreach v w).mpr hvw))⟩
      exact (hmono hvm).tail (.inr ⟨rfl, htrapped⟩)
    · push Not at hback
      obtain ⟨w, hvw, hwv⟩ := hback
      have hlt : (DepthFirst.reachable (ExitEdges.plain g) w).toFinset.card < n := by
        rw [← hn]
        apply Finset.card_lt_card
        refine ⟨fun u hu => (hreach v u).mpr (hvw.trans ((hreach w u).mp hu)), fun hsub => ?_⟩
        exact hwv ((hreach w v).mp (hsub ((hreach v v).mpr .refl)))
      exact (hmono hvw).trans (ih _ hlt (h.reaches_known hv hvw) rfl)

end Graph

end Backslice

import Backslice.Proofs.Flow.ExitEdges
import Backslice.Proofs.Table

namespace Backslice

open Relation (ReflTransGen)
open DepthFirst (Linked neighbours)

namespace Graph

def Together (g : Graph) (v w : NodeId) : Prop :=
  ReflTransGen g.Flows v w ∧ ReflTransGen g.Flows w v

structure Enclosed (g : Graph) (v : NodeId) : Prop where
  kept : ∀ u w, g.Together v u → g.Flows u w → g.Together v w
  exit_apart : ¬ g.Together v exitId

structure Heads (g : Graph) (v : NodeId) : Prop extends g.Enclosed v where
  least : ∀ w, g.Together v w → v ≤ w

variable {g : Graph} {v w m : NodeId}

namespace Together

theorem refl (g : Graph) (v : NodeId) : g.Together v v := ⟨.refl, .refl⟩

theorem symm (h : g.Together v w) : g.Together w v := ⟨h.2, h.1⟩

theorem trans (h : g.Together v w) (h' : g.Together w m) : g.Together v m :=
  ⟨h.1.trans h'.1, h'.2.trans h.2⟩

end Together

namespace Enclosed

theorem together_of_reaches (h : g.Enclosed v) (hw : ReflTransGen g.Flows v w) :
    g.Together v w := by
  induction hw with
  | refl => exact .refl g v
  | tail _ hs ih => exact h.kept _ _ ih hs

theorem of_together (h : g.Enclosed v) (hm : g.Together v m) : g.Enclosed m where
  kept u w hu hs := hm.symm.trans (h.kept u w (hm.trans hu) hs)
  exit_apart hexit := h.exit_apart (hm.trans hexit)

theorem exists_heads (h : g.Enclosed v) (hg : g.Sound) : ∃ m, g.Together v m ∧ g.Heads m := by
  have hmem : ∀ w, w ∈ DepthFirst.reachable (ExitEdges.plain g) v ↔ g.Together v w := by
    intro w
    rw [DepthFirst.mem_reachable, ExitEdges.linked_plain_eq hg]
    exact ⟨h.together_of_reaches, And.left⟩
  cases hl : ExitEdges.smallest (DepthFirst.reachable (ExitEdges.plain g) v) with
  | none =>
    have hself := (hmem v).mpr (.refl g v)
    rw [ExitEdges.smallest_eq_min?, List.min?_eq_none_iff] at hl
    rw [hl] at hself
    cases hself
  | some m =>
    obtain ⟨hm, hmin⟩ := ExitEdges.smallest_eq_some.mp hl
    have hvm := (hmem m).mp hm
    exact ⟨m, hvm, h.of_together hvm, fun w hw => hmin w ((hmem w).mpr (hvm.trans hw))⟩

end Enclosed

theorem Heads.unique (h : g.Heads v) (h' : g.Heads w) (hvw : g.Together v w) : v = w :=
  Int.le_antisymm (h.least w hvw) (h'.least v hvw.symm)

theorem trapped_iff_heads (hv : v ∈ g.ids) : g.Trapped v ↔ g.Heads v := by
  constructor
  · rintro ⟨_, hexit, hback⟩
    refine ⟨⟨fun u w hu hs => ?_, fun h => hexit h.1⟩, fun w hw => (hback w hw.1).2⟩
    have hw := hu.1.tail hs
    exact ⟨hw, (hback w hw).1⟩
  · intro h
    refine ⟨hv, fun hexit => h.exit_apart (h.together_of_reaches hexit), fun w hw => ?_⟩
    have hvw := h.together_of_reaches hw
    exact ⟨hvw.2, h.least w hvw⟩

theorem flows_exit_of_step (h : ReflTransGen g.Step v exitId) : ReflTransGen g.Flows v exitId := by
  induction h using ReflTransGen.head_induction_on with
  | refl => exact .refl
  | @head u w hs _ ih =>
    -- a way that comes by the exit earlier is cut off there
    by_cases hu : u = exitId
    · exact hu ▸ .refl
    · exact .head ⟨hu, hs⟩ ih

end Graph

namespace ExitEdges

open Backslice.Graph

variable {g : Graph} {v : NodeId}

theorem get?_foldl_addExit {succ : Adjacency} {us : List NodeId} (hus : us.Nodup) :
    (us.foldl addExit succ).get? v =
      if v ∈ us then some ((succ.get? v).getD [] ++ [exitId]) else succ.get? v := by
  induction us generalizing succ with
  | nil => rfl
  | cons u us ih =>
    rw [List.nodup_cons] at hus
    rw [List.foldl_cons, ih hus.2, addExit, Table.get?_put]
    by_cases hu : u = v
    · subst hu
      simp [hus.1]
    · simp [hu, Ne.symm hu]

theorem get?_extended_eq : (extended g).get? v =
    if v ∈ headers (plain g) then some (((plain g).get? v).getD [] ++ [exitId])
    else (plain g).get? v :=
  get?_foldl_addExit (nodup_eraseDups _)

theorem get?_plain (hv : v ∈ g.ids) (hne : v ≠ exitId) :
    (plain g).get? v = some (g.successors v) := by
  rw [plain, Table.get?_put, if_neg (Ne.symm hne), Table.get?_ofKeys, if_pos hv]

theorem get?_extended_of_heads (hg : g.Sound) (hv : v ∈ g.ids) (h : g.Heads v) :
    (extended g).get? v = some (g.successors v ++ [exitId]) := by
  have hmem := (mem_headers hg).mpr ((trapped_iff_heads hv).mpr h)
  rw [get?_extended_eq, if_pos hmem,
    get?_plain hv fun hne => hg.exit_notMem (hne ▸ hv), Option.getD_some]

theorem get?_extended_of_not_heads (hg : g.Sound) (hv : v ∈ g.ids) (h : ¬ g.Heads v) :
    (extended g).get? v = some (g.successors v) := by
  have hmem := mt (mem_headers hg).mp (mt (trapped_iff_heads hv).mp h)
  rw [get?_extended_eq, if_neg hmem,
    get?_plain hv fun hne => hg.exit_notMem (hne ▸ hv)]

theorem get?_extended_exit (hg : g.Sound) : (extended g).get? exitId = some [] := by
  have hmem : exitId ∉ headers (plain g) := fun h =>
    hg.exit_notMem ((mem_headers hg).mp h).1
  rw [get?_extended_eq, if_neg hmem, plain, Table.get?_put,
    if_pos rfl]

theorem count_exit_le_one (hg : g.Built) (hv : v ∈ g.ids) :
    (neighbours (extended g) v).count exitId ≤ 1 := by
  have hsuccessors := List.nodup_iff_count_le_one.mp (hg.nodup_successors v) exitId
  by_cases h : g.Heads v
  · have hexit : exitId ∉ g.successors v := fun hs =>
      h.exit_apart (h.kept v _ (.refl g v) ⟨fun hne => hg.sound.exit_notMem (hne ▸ hv), hs⟩)
    rw [neighbours, get?_extended_of_heads hg.sound hv h, Option.getD_some, List.count_append,
      List.count_eq_zero_of_not_mem hexit]
    simp
  · rwa [neighbours, get?_extended_of_not_heads hg.sound hv h, Option.getD_some]

/-- A table of successors is that of a graph, ending at the exit, with one more edge to the exit for
each component that no edge leaves. -/
structure Completes (g : Graph) (succ : Adjacency) : Prop where
  mem_keys : ∀ v, v ∈ succ.keys ↔ v ∈ exitId :: g.ids
  exit_ends : succ.get? exitId = some []
  of_heads : ∀ v ∈ g.ids, g.Heads v → succ.get? v = some (g.successors v ++ [exitId])
  of_not_heads : ∀ v ∈ g.ids, ¬ g.Heads v → succ.get? v = some (g.successors v)
  exists_heads : ∀ v ∈ g.ids, g.Enclosed v → ∃! m, g.Together v m ∧ g.Heads m
  reaches_exit : ∀ v ∈ exitId :: g.ids, ReflTransGen (Linked succ) v exitId
  exit_once : ∀ v ∈ g.ids, (neighbours succ v).count exitId ≤ 1
  kept : ∀ v ∈ g.ids, ReflTransGen g.Step v exitId → succ.get? v = some (g.successors v)

theorem extended_completes (h : g.Built) : Completes g (extended g) where
  mem_keys v := mem_keys_extended h.sound
  exit_ends := get?_extended_exit h.sound
  of_heads v hv := get?_extended_of_heads h.sound hv
  of_not_heads v hv := get?_extended_of_not_heads h.sound hv
  exists_heads v _ henclosed := by
    obtain ⟨m, hvm, hm⟩ := henclosed.exists_heads h.sound
    exact ⟨m, ⟨hvm, hm⟩, fun u hu => hu.2.unique hm (hu.1.symm.trans hvm)⟩
  reaches_exit v hv := by
    have hlinked : Linked (extended g) = g.Extended := by
      funext v w
      exact propext (linked_extended h.sound)
    exact hlinked ▸ h.sound.extended_reaches_exit hv
  exit_once v hv := count_exit_le_one h hv
  kept v hv hexit := by
    refine get?_extended_of_not_heads h.sound hv fun hheads => ?_
    exact hheads.exit_apart (hheads.together_of_reaches (flows_exit_of_step hexit))

def bare (id : NodeId) : Node := { id, kind := .expression, line := none }

/-- Two loops without an end, one of them behind a test, a node that leads nowhere, and an edge out
of the exit. -/
def spinning : Graph :=
  let g : Graph := {}
  let g := (((g.addNode (bare 4)).addNode (bare 2)).addNode (bare 0)).addNode (bare 3)
  let g := (g.addNode (bare 1)).addNode (bare 5)
  let g := (g.addEdge 0 4 "").1
  let g := (g.addEdge 0 exitId "").1
  let g := (g.addEdge 4 2 "").1
  let g := (g.addEdge 2 4 "").1
  let g := (g.addEdge 1 3 "").1
  let g := (g.addEdge 3 1 "").1
  let g := (g.addEdge 1 1 "").1
  (g.addEdge exitId 5 "").1

theorem built_spinning : spinning.Built := by
  unfold spinning
  repeat' first | exact .empty | apply Built.join | apply Built.addNode | decide

theorem extended_completes_spinning : Completes spinning (extended spinning) ∧
    (extended spinning).entries = [(4, [2]), (2, [4, exitId]), (0, [4, exitId]), (3, [1]),
      (1, [3, 1, exitId]), (5, [exitId]), (exitId, [])] :=
  ⟨extended_completes built_spinning, by decide +kernel⟩

end ExitEdges

end Backslice

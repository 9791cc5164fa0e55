import Backslice.Proofs.Flow.History
import Backslice.Proofs.Flow.PostDominance
import Mathlib.Logic.Function.Iterate

/-!
The order in which the sweeps take the ids. It is found by a loop over the ids that lie open, each
with the neighbours it still has to look at; the loop ends, with what the walk that descends into
one neighbour after another leaves. In the first sweep each id has a target that had its turn
before.
-/

namespace Backslice

namespace DepthFirst

/-- A walk on its way. The ids it has entered and not left lie open, the innermost first, each with
those of its neighbours that it has not looked at yet. -/
structure Descent where
  walk : Walk
  opened : List (NodeId × List NodeId)

namespace Descent

def start (graph : Adjacency) (root : NodeId) : Descent :=
  ⟨{ seen := [root] }, [(root, neighbours graph root)]⟩

def round (next : NodeId → List NodeId) : Descent → Descent
  | ⟨w, []⟩ => ⟨w, []⟩
  | ⟨w, (v, us) :: rest⟩ =>
    match us.dropWhile (· ∈ w.seen) with
    | [] => ⟨{ w with left := v :: w.left }, rest⟩
    | u :: us => ⟨{ w with seen := u :: w.seen }, (u, next u) :: (v, us) :: rest⟩

variable {next : NodeId → List NodeId} {w : Walk} {u v : NodeId} {us : List NodeId}
  {rest : List (NodeId × List NodeId)}

theorem round_nil (next : NodeId → List NodeId) (w : Walk) (v : NodeId)
    (rest : List (NodeId × List NodeId)) :
    round next ⟨w, (v, []) :: rest⟩ = ⟨{ w with left := v :: w.left }, rest⟩ := rfl

theorem round_skip (hu : u ∈ w.seen) :
    round next ⟨w, (v, u :: us) :: rest⟩ = round next ⟨w, (v, us) :: rest⟩ := by
  rw [round, round, List.dropWhile_cons_of_pos (by simpa using hu)]

theorem round_enter (hu : u ∉ w.seen) : round next ⟨w, (v, u :: us) :: rest⟩ =
    ⟨{ w with seen := u :: w.seen }, (u, next u) :: (v, us) :: rest⟩ := by
  rw [round, List.dropWhile_cons_of_neg (by simpa using hu)]

end Descent

open Descent (round)

variable {next : NodeId → List NodeId} {w w' : Walk} {us : List NodeId}

theorem Descends.rounds (h : Descends next us w w') (v : NodeId)
    (rest : List (NodeId × List NodeId)) : ∃ n, w'.left.length = w.left.length + n ∧
      (round next)^[2 * n + 1] ⟨w, (v, us) :: rest⟩ =
        ⟨{ w' with left := v :: w'.left }, rest⟩ := by
  induction h generalizing v rest with
  | nil w => exact ⟨0, rfl, Descent.round_nil next w v rest⟩
  | skip hu _ ih =>
    obtain ⟨n, hn, hrounds⟩ := ih v rest
    refine ⟨n, hn, ?_⟩
    rw [Function.iterate_succ_apply] at hrounds ⊢
    rw [Descent.round_skip hu, hrounds]
  | @enter us w inner w' u hu _ _ ihb ihl =>
    obtain ⟨m, hm, hbelow⟩ := ihb u ((v, us) :: rest)
    obtain ⟨n, hn, hlater⟩ := ihl v rest
    refine ⟨n + (m + 1), ?_, ?_⟩
    · simp only [List.length_cons] at hm hn
      omega
    · -- one round enters `u`, and it is left when what is below it has been left
      have hcount : 2 * (n + (m + 1)) + 1 = (2 * n + 1) + ((2 * m + 1) + 1) := by omega
      calc (round next)^[2 * (n + (m + 1)) + 1] ⟨w, (v, u :: us) :: rest⟩
        _ = (round next)^[2 * n + 1] ((round next)^[2 * m + 1]
              (round next ⟨w, (v, u :: us) :: rest⟩)) := by
          rw [hcount, Function.iterate_add_apply, ← Function.iterate_succ_apply]
        _ = (round next)^[2 * n + 1]
              ⟨{ inner with left := u :: inner.left }, (v, us) :: rest⟩ := by
          rw [Descent.round_enter hu, hbelow]
        _ = ⟨{ w' with left := v :: w'.left }, rest⟩ := hlater

theorem rounds_walkFrom (graph : Adjacency) (root : NodeId) :
    (round (neighbours graph))^[2 * (reversePostorder graph root).length - 1]
      (Descent.start graph root) = ⟨walkFrom graph [root], []⟩ := by
  obtain ⟨inner, hbelow, hwalk⟩ := exists_walkFrom_root graph root
  obtain ⟨n, hn, hrounds⟩ := hbelow.rounds root []
  have hcount : 2 * (root :: inner.left).length - 1 = 2 * n + 1 := by
    simp only [List.length_nil] at hn
    rw [List.length_cons]
    omega
  rw [reversePostorder, hwalk, hcount]
  exact hrounds

end DepthFirst

namespace Graph

/-- All ids are different and none is the exit, and each target of a node has an entry of its own.
How the graph came to be does not matter; edges out of the exit may lead anywhere. -/
structure Confined (g : Graph) : Prop where
  ids_nodup : g.ids.Nodup
  exit_notMem : exitId ∉ g.ids
  target_known : ∀ v ∈ g.ids, ∀ w ∈ g.successors v, w ∈ exitId :: g.ids

def mended (g : Graph) : Graph where
  nodes := g.nodes
  edges := g.edges
  succ := .ofKeys (exitId :: g.ids) fun v => if v ∈ g.ids then g.successors v else []
  pred := .ofKeys (exitId :: g.ids) fun w => g.ids.filter fun v => w ∈ g.successors v

variable {g : Graph} {v w : NodeId}

theorem successors_mended (hv : v ∈ g.ids) : g.mended.successors v = g.successors v := by
  simp [mended, successors, hv]

theorem step_mended : g.mended.Step v w ↔ v ∈ g.ids ∧ w ∈ g.successors v := by
  rw [Step, mended, successors, Table.get?_ofKeys]
  by_cases hv : v ∈ g.ids
  · simp [hv]
  · split <;> simp [hv]

theorem Confined.sound_mended (h : g.Confined) : g.mended.Sound := by
  have hnodup : (exitId :: g.ids).Nodup := List.nodup_cons.mpr ⟨h.exit_notMem, h.ids_nodup⟩
  refine ⟨h.ids_nodup, h.exit_notMem, Table.keys_ofKeys hnodup _, Table.keys_ofKeys hnodup _, ?_,
    ?_⟩
  · intro v w
    rw [step_mended, mended, predecessors, Table.get?_ofKeys]
    split
    · simp
    · rename_i hw
      constructor
      · intro hv; cases hv
      · rintro ⟨hv, hs⟩
        exact absurd (h.target_known v hv w hs) hw
  · intro v w hs
    obtain ⟨hv, hs⟩ := step_mended.mp hs
    exact h.target_known v hv w hs

theorem extended_mended (g : Graph) : ExitEdges.extended g.mended = ExitEdges.extended g := by
  have hplain : ExitEdges.plain g.mended = ExitEdges.plain g := by
    unfold ExitEdges.plain
    congr 1
    exact Table.ofKeys_congr fun v hv => successors_mended hv
  rw [ExitEdges.extended, ExitEdges.extended, hplain]

end Graph

namespace PostDominance

open DepthFirst (Descent neighbours)
open ExitEdges (extended reversed)

variable {succ : Adjacency} {index : Table NodeId Nat} {order vs before after : List NodeId}
  {t t' : Table NodeId NodeId} {changed changed' : Bool} {g : Graph} {v : NodeId}

theorem sweep_append (succ : Adjacency) (index : Table NodeId Nat) (vs ws : List NodeId)
    (t : Table NodeId NodeId) (changed : Bool) :
    sweep succ index (vs ++ ws) t changed =
      sweep succ index vs t changed >>= fun r => sweep succ index ws r.1 r.2 := by
  induction vs generalizing t changed with
  | nil => rfl
  | cons v vs ih =>
    rw [List.cons_append, sweep, sweep]
    split
    · exact ih t changed
    · cases improved succ index t v with
      | error e => rfl
      | ok new =>
        simp only [ok_bind]
        split
        · exact ih t changed
        · exact ih (t.put v new) true

theorem mem_keys_of_sweep (h : sweep succ index vs t changed = .ok (t', changed')) :
    (∀ v ∈ t.keys, v ∈ t'.keys) ∧ ∀ v ∈ vs, v ≠ exitId → v ∈ t'.keys := by
  induction vs generalizing t changed with
  | nil =>
    cases h
    exact ⟨fun _ hv => hv, by simp⟩
  | cons u vs ih =>
    rw [sweep] at h
    split at h
    · rename_i hu
      obtain ⟨hkept, hall⟩ := ih h
      exact ⟨hkept, List.forall_mem_cons.mpr ⟨fun hne => absurd hu hne, hall⟩⟩
    · obtain ⟨new, _, h⟩ := exists_of_bind_eq_ok h
      split at h
      · rename_i hsame
        obtain ⟨hkept, hall⟩ := ih h
        refine ⟨hkept, List.forall_mem_cons.mpr ⟨fun _ => ?_, hall⟩⟩
        exact hkept u (Table.mem_keys_of_get? hsame)
      · obtain ⟨hkept, hall⟩ := ih h
        refine ⟨fun v hv => hkept v ((t.mem_keys_put v u new).mpr (.inl hv)),
          List.forall_mem_cons.mpr ⟨fun _ => ?_, hall⟩⟩
        exact hkept u ((t.mem_keys_put u u new).mpr (.inr rfl))

theorem Schedule.exists_before (hs : Schedule succ order) (horder : order = before ++ v :: after)
    (hne : v ≠ exitId) : ∃ w ∈ before, w ∈ neighbours succ v := by
  have hv : v ∈ order := by rw [horder]; simp
  obtain ⟨w, hw, hlt⟩ := hs.earlier v hv hne
  exact ⟨w, (hs.mem_done horder).mpr hlt, hw⟩

theorem Schedule.exists_sweep (hs : Schedule succ order) (horder : order = before ++ v :: after) :
    ∃ t changed,
      sweep succ (indexOf order) before ⟨[(exitId, exitId)]⟩ false = .ok (t, changed) ∧
      sweep succ (indexOf order) order ⟨[(exitId, exitId)]⟩ false =
        sweep succ (indexOf order) (v :: after) t changed ∧
      ∀ w ∈ before, w ∈ t.keys := by
  obtain ⟨_, _, hok, _⟩ := sweep_ok hs order (List.nil_append _).symm (midway_start hs) false
  have hsplit := sweep_append succ (indexOf order) before (v :: after) ⟨[(exitId, exitId)]⟩ false
  rw [← horder] at hsplit
  obtain ⟨⟨t, changed⟩, hbefore, _⟩ := exists_of_bind_eq_ok (hsplit.symm.trans hok)
  obtain ⟨hkept, hall⟩ := mem_keys_of_sweep hbefore
  refine ⟨t, changed, hbefore, ?_, fun w hw => ?_⟩
  · rw [hsplit, hbefore, ok_bind]
  · by_cases hexit : w = exitId
    · exact hexit ▸ hkept exitId (List.mem_singleton_self _)
    · exact hall w hw hexit

theorem sweepOrder_mended (g : Graph) : sweepOrder g.mended = sweepOrder g := by
  rw [sweepOrder, sweepOrder, Graph.extended_mended]

theorem schedule_of_confined (h : g.Confined) : Schedule (extended g) (sweepOrder g) := by
  rw [← Graph.extended_mended, ← sweepOrder_mended]
  exact schedule_sweepOrder h.sound_mended

theorem mem_sweepOrder_of_confined (h : g.Confined) : v ∈ sweepOrder g ↔ v ∈ exitId :: g.ids := by
  rw [← sweepOrder_mended]
  exact mem_sweepOrder h.sound_mended

def firstSweep (g : Graph) (vs : List NodeId) : Except FlowError (Table NodeId NodeId × Bool) :=
  sweep (extended g) (indexOf (sweepOrder g)) vs ⟨[(exitId, exitId)]⟩ false

/-- The loop that orders the ids ends, and looks at no id without an entry. The order starts with
the exit, has the exit and each node once, and each node comes behind one of its targets. So when
the first sweep comes to a node, some of its targets are known. -/
theorem sweepOrder_ready (h : g.Confined) :
    (∃ w, (Descent.round (neighbours (reversed (extended g))))^[2 * (sweepOrder g).length - 1]
      (Descent.start (reversed (extended g)) exitId) = ⟨w, []⟩ ∧ w.left = sweepOrder g) ∧
    (∀ v ∈ sweepOrder g, v ∈ (reversed (extended g)).keys) ∧
    (sweepOrder g).head? = some exitId ∧
    (∀ v, (sweepOrder g).count v = if v ∈ exitId :: g.ids then 1 else 0) ∧
    ∀ before v after, sweepOrder g = before ++ v :: after → v ≠ exitId →
      (∃ w ∈ before, w ∈ neighbours (extended g) v) ∧
      ∃ t changed targets, firstSweep g before = .ok (t, changed) ∧
        firstSweep g (sweepOrder g) =
          sweep (extended g) (indexOf (sweepOrder g)) (v :: after) t changed ∧
        (extended g).get? v = some targets ∧ targets.filter t.contains ≠ [] := by
  have hs := schedule_of_confined h
  refine ⟨⟨_, DepthFirst.rounds_walkFrom _ exitId, rfl⟩, fun v hv => ?_, ?_, fun v => ?_, ?_⟩
  · have hkey := Table.mem_keys_of_get? (hs.get?_succ v hv)
    exact (Table.mem_keys_ofKeys _ _ v).mpr hkey
  · obtain ⟨rest, hrest⟩ := reversePostorder_eq_cons (reversed (extended g)) exitId
    rw [sweepOrder, hrest, List.head?_cons]
  · rw [hs.nodup.count, if_congr (mem_sweepOrder_of_confined h) rfl rfl]
  · intro before v after horder hne
    have hv : v ∈ sweepOrder g := by rw [horder]; simp
    obtain ⟨w, hw, hnext⟩ := hs.exists_before horder hne
    obtain ⟨t, changed, hbefore, hrest, hknown⟩ := hs.exists_sweep horder
    refine ⟨⟨w, hw, hnext⟩, t, changed, _, hbefore, hrest, hs.get?_succ v hv, ?_⟩
    have hmem : w ∈ (neighbours (extended g) v).filter t.contains :=
      List.mem_filter.mpr ⟨hnext, contains_iff.mpr (hknown w hw)⟩
    exact List.ne_nil_of_mem hmem

def belated : List Graph.Call :=
  [.addNode { id := 0, kind := .expression, line := none }, .addEdge ⟨0, 2, "Y"⟩,
    .addNode { id := 1, kind := .expression, line := none },
    .addNode { id := 2, kind := .expression, line := none }, .addEdge ⟨0, 1, "N"⟩,
    .addEdge ⟨1, 1, ""⟩, .addEdge ⟨2, exitId, ""⟩, .addEdge ⟨exitId, 5, ""⟩]

theorem sweepOrder_ready_belated :
    (Graph.after belated).Confined ∧ sweepOrder (Graph.after belated) = [exitId, 2, 1, 0] ∧
    (∃ w, (Descent.round (neighbours (reversed (extended (Graph.after belated)))))^[7]
      (Descent.start (reversed (extended (Graph.after belated))) exitId) = ⟨w, []⟩) ∧
    ∃ t changed targets, firstSweep (Graph.after belated) [exitId, 2] = .ok (t, changed) ∧
      (extended (Graph.after belated)).get? 1 = some targets ∧ targets.filter t.contains ≠ [] := by
  have hconfined : (Graph.after belated).Confined := ⟨by decide, by decide, by decide⟩
  have horder : sweepOrder (Graph.after belated) = [exitId, 2] ++ 1 :: [0] := by decide +kernel
  obtain ⟨⟨w, hrounds, _⟩, _, _, _, hturns⟩ := sweepOrder_ready hconfined
  obtain ⟨_, t, changed, targets, hbefore, _, htargets, hsome⟩ :=
    hturns [exitId, 2] 1 [0] horder (by decide)
  rw [horder] at hrounds
  exact ⟨hconfined, horder, ⟨w, hrounds⟩, t, changed, targets, hbefore, htargets, hsome⟩

end PostDominance

end Backslice

import Backslice.Flow.Graph
import Backslice.Proofs.Table

namespace Backslice.Graph

/-- Graphs made by additions that all succeed, of nodes with ids other than the exit's. -/
inductive Built : Graph → Prop
  | empty : Built {}
  | addNode {g : Graph} {n : Node} : Built g → n.id ≠ exitId → Built (g.addNode n)
  | addEdge {g g' : Graph} {source target : NodeId} {label : String} {isNew : Bool} :
      Built g → g.addEdge source target label = (g', .ok isNew) → Built g'

def Step (g : Graph) (v w : NodeId) : Prop := w ∈ g.successors v

instance (g : Graph) : DecidableRel g.Step :=
  fun v w => inferInstanceAs (Decidable (w ∈ g.successors v))

def Defines (g : Graph) (v : NodeId) (x : Variable) : Prop := ∃ n ∈ g.nodes, n.id = v ∧ x ∈ n.defs

def Uses (g : Graph) (v : NodeId) (x : Variable) : Prop := ∃ n ∈ g.nodes, n.id = v ∧ x ∈ n.uses

structure Sound (g : Graph) : Prop where
  ids_nodup : g.ids.Nodup
  exit_notMem : exitId ∉ g.ids
  keys_succ : g.succ.keys = exitId :: g.ids
  keys_pred : g.pred.keys = exitId :: g.ids
  mem_predecessors : ∀ v w, v ∈ g.predecessors w ↔ g.Step v w
  target_known : ∀ v w, g.Step v w → w ∈ exitId :: g.ids

variable {g g' : Graph} {n : Node} {v w source target : NodeId} {label : String}

theorem mem_ids_iff : v ∈ g.ids ↔ ∃ n ∈ g.nodes, n.id = v := List.mem_map

theorem id_mem_ids (h : n ∈ g.nodes) : n.id ∈ g.ids := List.mem_map_of_mem h

theorem node?_isSome : (g.node? v).isSome ↔ v ∈ g.ids := by
  simp [node?, mem_ids_iff]

theorem node?_eq_some (h : g.node? v = some n) : n ∈ g.nodes ∧ n.id = v :=
  ⟨List.mem_of_find?_eq_some h, by simpa using List.find?_some h⟩

theorem Sound.source_known (h : g.Sound) (hs : g.Step v w) : v ∈ exitId :: g.ids := by
  rw [← h.keys_succ]
  unfold Step successors at hs
  cases hv : g.succ.get? v with
  | none => rw [hv] at hs; cases hs
  | some ws => exact Table.mem_keys_of_get? hv

theorem Sound.source_mem_ids (h : g.Sound) (hexit : g.successors exitId = []) (hs : g.Step v w) :
    v ∈ g.ids := by
  refine (List.mem_cons.mp (h.source_known hs)).resolve_left ?_
  rintro rfl
  rw [Step, hexit] at hs
  cases hs

theorem Sound.node_unique (h : g.Sound) {m n : Node} (hm : m ∈ g.nodes) (hn : n ∈ g.nodes)
    (hid : m.id = n.id) : m = n :=
  List.inj_on_of_nodup_map h.ids_nodup hm hn hid

theorem Sound.node?_id (h : g.Sound) (hn : n ∈ g.nodes) : g.node? n.id = some n := by
  obtain ⟨m, hm⟩ := Option.isSome_iff_exists.mp (node?_isSome.mpr (id_mem_ids hn))
  obtain ⟨hmem, hid⟩ := node?_eq_some hm
  rw [hm, h.node_unique hmem hn hid]

theorem Sound.get_id (h : g.Sound) (hn : n ∈ g.nodes) : g.get n.id = .ok n := by
  rw [Graph.get, h.node?_id hn]

theorem Sound.defines_id (h : g.Sound) (hn : n ∈ g.nodes) {x : Variable} :
    g.Defines n.id x ↔ x ∈ n.defs := by
  constructor
  · rintro ⟨m, hm, hid, hx⟩
    rwa [h.node_unique hm hn hid] at hx
  · exact fun hx => ⟨n, hn, rfl, hx⟩

theorem Sound.get?_succ (h : g.Sound) (hv : v ∈ exitId :: g.ids) :
    g.succ.get? v = some (g.successors v) := by
  rw [← h.keys_succ, ← Table.exists_get?_iff] at hv
  obtain ⟨ws, hws⟩ := hv
  rw [hws, successors, hws, Option.getD_some]

theorem Sound.get?_pred (h : g.Sound) (hv : v ∈ exitId :: g.ids) :
    g.pred.get? v = some (g.predecessors v) := by
  rw [← h.keys_pred, ← Table.exists_get?_iff] at hv
  obtain ⟨ws, hws⟩ := hv
  rw [hws, predecessors, hws, Option.getD_some]

theorem ids_addNode (hv : n.id ∉ g.ids) : (g.addNode n).ids = g.ids ++ [n.id] := by
  rw [addNode, if_neg (by rwa [node?_isSome])]
  simp [ids]

theorem addNode_of_mem (hv : n.id ∈ g.ids) : g.addNode n = g := by
  rw [addNode, if_pos (by rwa [node?_isSome])]

theorem successors_addNode (hv : n.id ∉ g.ids) :
    (g.addNode n).successors v = if n.id = v then [] else g.successors v := by
  rw [addNode, if_neg (by rwa [node?_isSome])]
  simp only [successors, Table.get?_put]
  split <;> rfl

theorem predecessors_addNode (hv : n.id ∉ g.ids) :
    (g.addNode n).predecessors v = if n.id = v then [] else g.predecessors v := by
  rw [addNode, if_neg (by rwa [node?_isSome])]
  simp only [predecessors, Table.get?_put]
  split <;> rfl

theorem Sound.step_addNode (h : g.Sound) (hexit : n.id ≠ exitId) :
    (g.addNode n).Step v w ↔ g.Step v w := by
  by_cases hmem : n.id ∈ g.ids
  · rw [addNode_of_mem hmem]
  · unfold Step
    rw [successors_addNode hmem]
    split
    · rename_i hv
      subst hv
      constructor
      · intro hw; cases hw
      · intro hw
        have hsource := h.source_known hw
        rw [List.mem_cons] at hsource
        exact absurd hsource (not_or.mpr ⟨hexit, hmem⟩)
    · rfl

theorem keys_addNode (hsucc : g.succ.keys = exitId :: g.ids)
    (hpred : g.pred.keys = exitId :: g.ids) (hexit : n.id ≠ exitId) :
    (g.addNode n).succ.keys = exitId :: (g.addNode n).ids ∧
      (g.addNode n).pred.keys = exitId :: (g.addNode n).ids := by
  by_cases hmem : n.id ∈ g.ids
  · rw [addNode_of_mem hmem]
    exact ⟨hsucc, hpred⟩
  · rw [ids_addNode hmem, addNode, if_neg (by rwa [node?_isSome])]
    simp [Table.keys_put, hsucc, hpred, hexit, hmem]

theorem Sound.addNode (h : g.Sound) (hexit : n.id ≠ exitId) : (g.addNode n).Sound := by
  by_cases hmem : n.id ∈ g.ids
  · rwa [addNode_of_mem hmem]
  have hkeys := keys_addNode h.keys_succ h.keys_pred hexit
  refine ⟨?_, ?_, hkeys.1, hkeys.2, ?_, ?_⟩
  · rw [ids_addNode hmem]
    exact List.Nodup.append h.ids_nodup (List.nodup_singleton _) (by simpa using hmem)
  · simp [ids_addNode hmem, h.exit_notMem, Ne.symm hexit]
  · intro v w
    rw [h.step_addNode hexit, predecessors_addNode hmem]
    split
    · rename_i hw
      subst hw
      constructor
      · intro hv; cases hv
      · intro hv
        have htarget := h.target_known _ _ hv
        simp [hexit, hmem] at htarget
    · exact h.mem_predecessors v w
  · intro v w hv
    have := h.target_known v w ((h.step_addNode hexit).mp hv)
    simp only [ids_addNode hmem, List.mem_cons, List.mem_append] at this ⊢
    tauto

theorem Sound.addEdge_ok (h : g.Sound) (hs : source ∈ exitId :: g.ids)
    (ht : target ∈ exitId :: g.ids) (label : String) :
    ∃ g' isNew, g.addEdge source target label = (g', .ok isNew) := by
  unfold Graph.addEdge
  rw [h.get?_succ hs]
  simp only [h.get?_pred ht]
  split
  · exact ⟨_, _, rfl⟩
  · exact ⟨_, _, rfl⟩

theorem nodes_addEdge (g : Graph) (source target : NodeId) (label : String) :
    (g.addEdge source target label).1.nodes = g.nodes := by
  unfold Graph.addEdge
  split
  · rfl
  · split
    · rfl
    · dsimp only
      split <;> rfl

theorem step_addEdge {isNew : Bool} (he : g.addEdge source target label = (g', .ok isNew)) :
    g'.Step v w ↔ g.Step v w ∨ (v = source ∧ w = target) := by
  unfold Graph.addEdge at he
  split at he
  · cases he
  · rename_i targets hs
    have hsucc : g.successors source = targets := by rw [successors, hs, Option.getD_some]
    split at he
    · rename_i hmem
      cases he
      constructor
      · exact .inl
      · rintro (hw | ⟨rfl, rfl⟩)
        · exact hw
        · rwa [Step, hsucc]
    · dsimp only at he
      split at he
      · cases he
      · cases he
        simp only [Step, successors, Table.get?_put]
        split
        · rename_i hv
          subst hv
          simp [hs]
        · rename_i hv
          simp [Ne.symm hv]

theorem Sound.addEdge {isNew : Bool} (h : g.Sound)
    (he : g.addEdge source target label = (g', .ok isNew)) : g'.Sound := by
  have hstep := fun v w => step_addEdge (v := v) (w := w) he
  have hnodes : g'.nodes = g.nodes := by
    rw [← nodes_addEdge g source target label, he]
  have hids : g'.ids = g.ids := by rw [ids, hnodes, ids]
  unfold Graph.addEdge at he
  split at he
  · cases he
  · rename_i targets hs
    have hsource := Table.mem_keys_of_get? hs
    split at he
    · cases he
      exact h
    · dsimp only at he
      split at he
      · cases he
      · rename_i sources ht
        have htarget := Table.mem_keys_of_get? ht
        cases he
        refine ⟨hids ▸ h.ids_nodup, hids ▸ h.exit_notMem, ?_, ?_, ?_, ?_⟩
        · rw [Table.keys_put, if_pos hsource, hids, h.keys_succ]
        · rw [Table.keys_put, if_pos htarget, hids, h.keys_pred]
        · intro v w
          rw [hstep, ← h.mem_predecessors]
          simp only [predecessors, Table.get?_put]
          split
          · rename_i hw
            subst hw
            simp [ht]
          · rename_i hw
            simp [Ne.symm hw]
        · intro v w hv
          rw [hids]
          rcases (hstep v w).mp hv with hv | ⟨_, rfl⟩
          · exact h.target_known v w hv
          · exact h.keys_pred ▸ htarget

theorem Sound.empty : Sound {} := by
  refine ⟨List.nodup_nil, List.not_mem_nil, rfl, rfl, ?_, ?_⟩
  · intro v w
    simp only [Step, predecessors, successors, Table.get?, Table.find]
    split <;> split <;> simp
  · intro v w hv
    simp only [Step, successors, Table.get?, Table.find] at hv
    split at hv <;> cases hv

theorem Built.sound (h : g.Built) : g.Sound := by
  induction h with
  | empty => exact .empty
  | addNode _ hexit ih => exact ih.addNode hexit
  | addEdge _ he ih => exact ih.addEdge he

theorem Built.join (h : g.Built) (hs : source ∈ exitId :: g.ids) (ht : target ∈ exitId :: g.ids)
    (label : String) : (g.addEdge source target label).1.Built := by
  obtain ⟨g', isNew, he⟩ := h.sound.addEdge_ok hs ht label
  rw [he]
  exact h.addEdge he

theorem Built.nodup_successors (h : g.Built) (v : NodeId) : (g.successors v).Nodup := by
  induction h with
  | empty =>
    unfold successors Table.get? Table.find
    split
    · exact List.nodup_nil
    · exact List.nodup_nil
  | addNode hg hexit ih =>
    rename_i g n
    by_cases hmem : n.id ∈ g.ids
    · rwa [addNode_of_mem hmem]
    · rw [successors_addNode hmem]
      split
      · exact List.nodup_nil
      · exact ih
  | addEdge hg he ih =>
    unfold Graph.addEdge at he
    split at he
    · cases he
    · rename_i targets hs
      split at he
      · cases he
        exact ih
      · rename_i hmem
        dsimp only at he
        split at he
        · cases he
        · cases he
          simp only [successors, Table.get?_put]
          split
          · rename_i hv
            subst hv
            have htargets : targets.Nodup := by rwa [successors, hs, Option.getD_some] at ih
            exact htargets.append (List.nodup_singleton _) (by simpa using hmem)
          · exact ih

theorem Built.length_successors_le_one (h : g.Built)
    (hunique : ∀ w w', g.Step v w → g.Step v w' → w = w') : (g.successors v).length ≤ 1 := by
  have hnodup := h.nodup_successors v
  unfold Step at hunique
  match hl : g.successors v with
  | [] => exact Nat.zero_le 1
  | [_] => exact Nat.le_refl 1
  | a :: b :: l =>
    rw [hl] at hunique hnodup
    obtain rfl := hunique a b (by simp) (by simp)
    simp at hnodup

end Backslice.Graph

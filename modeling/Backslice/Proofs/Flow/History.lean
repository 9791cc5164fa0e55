import Backslice.Proofs.Flow.Graph
import Mathlib.Data.List.Induction
import Mathlib.Data.List.Perm.Subperm

/-!
Flow graphs after any history of calls. A call may fail, and what it has entered by then stays: an
edge to an unknown target leaves this target among the successors of its source, and later calls
read what it left. So what holds of a graph is told from the calls that were made and their answers.
-/

namespace Backslice

def Edge.ends (e : Edge) : NodeId × NodeId := (e.source, e.target)

namespace Graph

inductive Call where
  | addNode (n : Node)
  | addEdge (e : Edge)
  deriving DecidableEq, Repr

def Call.perform (g : Graph) : Call → Graph
  | .addNode n => g.addNode n
  | .addEdge e => (g.addEdge e.source e.target e.label).1

def after (calls : List Call) : Graph := calls.foldl Call.perform {}

/-- At some point of a history an edge was asked for, from a source that was known then. -/
def Asked (calls : List Call) (e : Edge) (answer : Except FlowError Bool) : Prop :=
  ∃ past rest, calls = past ++ .addEdge e :: rest ∧ e.source ∈ exitId :: (after past).ids ∧
    ((after past).addEdge e.source e.target e.label).2 = answer

def Dangling (g : Graph) (s t : NodeId) : Prop :=
  t ∈ g.successors s ∧ (s, t) ∉ g.edges.map Edge.ends

def targetsFrom (g : Graph) (s : NodeId) : List NodeId :=
  (g.edges.filter (·.source = s)).map (·.target)

def sourcesTo (g : Graph) (t : NodeId) : List NodeId :=
  (g.edges.filter (·.target = t)).map (·.source)

def enter (g : Graph) (e : Edge) : Graph :=
  { g with succ := g.succ.put e.source (g.successors e.source ++ [e.target]) }

def join (g : Graph) (e : Edge) : Graph :=
  { g.enter e with
    pred := g.pred.put e.target (g.predecessors e.target ++ [e.source])
    edges := g.edges ++ [e] }

inductive Adds (g : Graph) (e : Edge) : Graph × Except FlowError Bool → Prop
  | noSource : e.source ∉ g.succ.keys → Adds g e (g, .error (.missing e.source))
  | present : e.source ∈ g.succ.keys → e.target ∈ g.successors e.source → Adds g e (g, .ok false)
  | noTarget : e.source ∈ g.succ.keys → e.target ∉ g.successors e.source →
      e.target ∉ g.pred.keys → Adds g e (g.enter e, .error (.missing e.target))
  | joined : e.source ∈ g.succ.keys → e.target ∉ g.successors e.source →
      e.target ∈ g.pred.keys → Adds g e (g.join e, .ok true)

/-- The edges account for all predecessors, and for successors up to targets without an edge. -/
structure Tallied (g : Graph) : Prop where
  keys_succ : g.succ.keys = exitId :: g.ids
  keys_pred : g.pred.keys = exitId :: g.ids
  ends_known : ∀ e ∈ g.edges, e.source ∈ exitId :: g.ids ∧ e.target ∈ exitId :: g.ids
  nodup_ends : (g.edges.map Edge.ends).Nodup
  predecessors_eq : ∀ t, g.predecessors t = g.sourcesTo t
  sublist_successors : ∀ s, (g.targetsFrom s).Sublist (g.successors s)
  nodup_successors : ∀ s, (g.successors s).Nodup

variable {g : Graph} {n : Node} {e : Edge} {s t v : NodeId} {calls : List Call} {c : Call}

theorem successors_enter (g : Graph) (e : Edge) (v : NodeId) :
    (g.enter e).successors v = g.successors v ++ if e.source = v then [e.target] else [] :=
  g.succ.getD_put_append e.source v e.target

theorem successors_join (g : Graph) (e : Edge) (v : NodeId) :
    (g.join e).successors v = (g.enter e).successors v := rfl

theorem predecessors_join (g : Graph) (e : Edge) (v : NodeId) :
    (g.join e).predecessors v = g.predecessors v ++ if e.target = v then [e.source] else [] :=
  g.pred.getD_put_append e.target v e.source

theorem targetsFrom_join (g : Graph) (e : Edge) (v : NodeId) :
    (g.join e).targetsFrom v = g.targetsFrom v ++ if e.source = v then [e.target] else [] := by
  rw [targetsFrom, join, List.filter_append, List.map_append, List.filter_singleton, targetsFrom]
  by_cases hv : e.source = v <;> simp [hv]

theorem sourcesTo_join (g : Graph) (e : Edge) (v : NodeId) :
    (g.join e).sourcesTo v = g.sourcesTo v ++ if e.target = v then [e.source] else [] := by
  rw [sourcesTo, join, List.filter_append, List.map_append, List.filter_singleton, sourcesTo]
  by_cases hv : e.target = v <;> simp [hv]

theorem mem_successors_enter : t ∈ (g.enter e).successors s ↔
    t ∈ g.successors s ∨ e.ends = (s, t) := by
  rw [successors_enter, List.mem_append, Edge.ends, Prod.mk.injEq]
  by_cases hs : e.source = s <;> simp [hs, eq_comm]

theorem successors_eq_nil (h : s ∉ g.succ.keys) : g.successors s = [] := by
  rw [successors, (g.succ.get?_eq_none_iff s).mpr h, Option.getD_none]

theorem predecessors_eq_nil (h : t ∉ g.pred.keys) : g.predecessors t = [] := by
  rw [predecessors, (g.pred.get?_eq_none_iff t).mpr h, Option.getD_none]

theorem adds_addEdge (g : Graph) (e : Edge) : Adds g e (g.addEdge e.source e.target e.label) := by
  unfold Graph.addEdge
  cases hs : g.succ.get? e.source with
  | none => exact .noSource ((g.succ.get?_eq_none_iff e.source).mp hs)
  | some targets =>
    have hsource := Table.mem_keys_of_get? hs
    obtain rfl : g.successors e.source = targets := by rw [successors, hs, Option.getD_some]
    dsimp only
    split
    · exact .present hsource ‹_›
    · cases ht : g.pred.get? e.target with
      | none => exact .noTarget hsource ‹_› ((g.pred.get?_eq_none_iff e.target).mp ht)
      | some sources =>
        obtain rfl : g.predecessors e.target = sources := by
          rw [predecessors, ht, Option.getD_some]
        exact .joined hsource ‹_› (Table.mem_keys_of_get? ht)

theorem mem_targetsFrom : t ∈ g.targetsFrom s ↔ (s, t) ∈ g.edges.map Edge.ends := by
  simp [targetsFrom, Edge.ends, and_assoc]

theorem mem_sourcesTo : s ∈ g.sourcesTo t ↔ (s, t) ∈ g.edges.map Edge.ends := by
  simp only [sourcesTo, Edge.ends, List.mem_map, List.mem_filter, decide_eq_true_eq, Prod.mk.injEq,
    and_assoc]
  exact exists_congr fun _ => and_congr_right fun _ => and_comm

theorem Tallied.mem_successors (h : g.Tallied) (he : (s, t) ∈ g.edges.map Edge.ends) :
    t ∈ g.successors s :=
  (h.sublist_successors s).subset (mem_targetsFrom.mpr he)

theorem Tallied.nodup_sourcesTo (h : g.Tallied) (t : NodeId) : (g.sourcesTo t).Nodup := by
  have hends : (g.sourcesTo t).map (·, t) = (g.edges.filter (·.target = t)).map Edge.ends := by
    rw [sourcesTo, List.map_map]
    refine List.map_congr_left fun e he => ?_
    rw [List.mem_filter, decide_eq_true_eq] at he
    rw [Edge.ends, he.2, Function.comp_apply]
  refine List.Nodup.of_map (·, t) ?_
  rw [hends]
  exact h.nodup_ends.sublist (List.filter_sublist.map _)

theorem successors_empty (s : NodeId) : ({} : Graph).successors s = [] := by
  by_cases hs : exitId = s <;> simp [successors, Table.get?, Table.find, hs]

theorem predecessors_empty (t : NodeId) : ({} : Graph).predecessors t = [] := by
  by_cases ht : exitId = t <;> simp [predecessors, Table.get?, Table.find, ht]

theorem Tallied.empty : Tallied {} where
  keys_succ := rfl
  keys_pred := rfl
  ends_known := nofun
  nodup_ends := List.nodup_nil
  predecessors_eq t := predecessors_empty t
  sublist_successors s := List.nil_sublist _
  nodup_successors s := by
    rw [successors_empty]
    exact List.nodup_nil

theorem edges_addNode (g : Graph) (n : Node) : (g.addNode n).edges = g.edges := by
  unfold addNode
  split <;> rfl

theorem mem_ids_addNode : v ∈ (g.addNode n).ids ↔ v ∈ g.ids ∨ n.id = v := by
  by_cases hmem : n.id ∈ g.ids
  · rw [addNode_of_mem hmem]
    exact (or_iff_left_of_imp fun hv => hv ▸ hmem).symm
  · rw [ids_addNode hmem, List.mem_append, List.mem_singleton, eq_comm]

theorem Tallied.successors_addNode (h : g.Tallied) (hexit : n.id ≠ exitId) :
    (g.addNode n).successors v = g.successors v := by
  by_cases hmem : n.id ∈ g.ids
  · rw [addNode_of_mem hmem]
  rw [Graph.successors_addNode hmem]
  split
  · rename_i hv
    rw [← hv, successors_eq_nil]
    simp [h.keys_succ, hexit, hmem]
  · rfl

theorem Tallied.predecessors_addNode (h : g.Tallied) (hexit : n.id ≠ exitId) :
    (g.addNode n).predecessors v = g.predecessors v := by
  by_cases hmem : n.id ∈ g.ids
  · rw [addNode_of_mem hmem]
  rw [Graph.predecessors_addNode hmem]
  split
  · rename_i hv
    rw [← hv, predecessors_eq_nil]
    simp [h.keys_pred, hexit, hmem]
  · rfl

theorem Tallied.addNode (h : g.Tallied) (hexit : n.id ≠ exitId) : (g.addNode n).Tallied where
  keys_succ := (keys_addNode h.keys_succ h.keys_pred hexit).1
  keys_pred := (keys_addNode h.keys_succ h.keys_pred hexit).2
  ends_known e he := by
    rw [edges_addNode] at he
    have hknown := h.ends_known e he
    simp only [List.mem_cons, mem_ids_addNode] at hknown ⊢
    tauto
  nodup_ends := by
    rw [edges_addNode]
    exact h.nodup_ends
  predecessors_eq t := by
    rw [h.predecessors_addNode hexit, sourcesTo, edges_addNode]
    exact h.predecessors_eq t
  sublist_successors s := by
    rw [h.successors_addNode hexit, targetsFrom, edges_addNode]
    exact h.sublist_successors s
  nodup_successors s := by
    rw [h.successors_addNode hexit]
    exact h.nodup_successors s

theorem Tallied.nodup_enter (h : g.Tallied) (hnew : e.target ∉ g.successors e.source)
    (v : NodeId) : ((g.enter e).successors v).Nodup := by
  rw [successors_enter]
  split
  · rename_i hv
    rw [← hv]
    exact (h.nodup_successors _).append (List.nodup_singleton _) (by simpa using hnew)
  · rw [List.append_nil]
    exact h.nodup_successors v

theorem Tallied.keys_enter (h : g.Tallied) (hsource : e.source ∈ g.succ.keys) :
    (g.enter e).succ.keys = exitId :: g.ids := by
  rw [enter, Table.keys_put, if_pos hsource, h.keys_succ]

theorem Tallied.enter (h : g.Tallied) (hsource : e.source ∈ g.succ.keys)
    (hnew : e.target ∉ g.successors e.source) : (g.enter e).Tallied where
  keys_succ := h.keys_enter hsource
  keys_pred := h.keys_pred
  ends_known := h.ends_known
  nodup_ends := h.nodup_ends
  predecessors_eq := h.predecessors_eq
  sublist_successors s := by
    rw [successors_enter]
    exact (h.sublist_successors s).trans (List.sublist_append_left _ _)
  nodup_successors := h.nodup_enter hnew

theorem Tallied.join (h : g.Tallied) (hsource : e.source ∈ g.succ.keys)
    (hnew : e.target ∉ g.successors e.source) (htarget : e.target ∈ g.pred.keys) :
    (g.join e).Tallied where
  keys_succ := h.keys_enter hsource
  keys_pred := by
    rw [Graph.join, Table.keys_put, if_pos htarget]
    exact h.keys_pred
  ends_known e' he' := by
    rcases List.mem_append.mp he' with he' | he'
    · exact h.ends_known e' he'
    · rw [List.mem_singleton.mp he']
      exact ⟨h.keys_succ ▸ hsource, h.keys_pred ▸ htarget⟩
  nodup_ends := by
    rw [Graph.join, List.map_append, List.map_singleton]
    refine h.nodup_ends.append (List.nodup_singleton _) ?_
    rw [List.disjoint_singleton]
    exact fun hmem => hnew (h.mem_successors hmem)
  predecessors_eq t := by rw [predecessors_join, sourcesTo_join, h.predecessors_eq]
  sublist_successors s := by
    rw [successors_join, successors_enter, targetsFrom_join]
    exact (h.sublist_successors s).append (List.Sublist.refl _)
  nodup_successors := h.nodup_enter hnew

theorem Tallied.addEdge (h : g.Tallied) (e : Edge) :
    (g.addEdge e.source e.target e.label).1.Tallied := by
  have hadds := adds_addEdge g e
  generalize g.addEdge e.source e.target e.label = r at hadds ⊢
  cases hadds with
  | noSource => exact h
  | present => exact h
  | noTarget hsource hnew _ => exact h.enter hsource hnew
  | joined hsource hnew htarget => exact h.join hsource hnew htarget

theorem after_concat (calls : List Call) (c : Call) :
    after (calls ++ [c]) = c.perform (after calls) := by
  rw [after, List.foldl_append, List.foldl_cons, List.foldl_nil, after]

theorem asked_concat {answer : Except FlowError Bool} :
    Asked (calls ++ [c]) e answer ↔ Asked calls e answer ∨
      (c = .addEdge e ∧ e.source ∈ exitId :: (after calls).ids ∧
        ((after calls).addEdge e.source e.target e.label).2 = answer) := by
  constructor
  · rintro ⟨past, rest, heq, hasked⟩
    rcases List.eq_nil_or_concat rest with rfl | ⟨rest, c', rfl⟩
    · obtain ⟨rfl, hc⟩ := List.append_inj' heq rfl
      exact .inr ⟨List.singleton_inj.mp hc, hasked⟩
    · rw [List.concat_eq_append, ← List.cons_append, ← List.append_assoc] at heq
      exact .inl ⟨past, rest, (List.append_inj' heq rfl).1, hasked⟩
  · rintro (⟨past, rest, rfl, hasked⟩ | ⟨rfl, hasked⟩)
    · exact ⟨past, rest ++ [c], by simp, hasked⟩
    · exact ⟨calls, [], rfl, hasked⟩

theorem not_asked_nil {answer : Except FlowError Bool} : ¬ Asked [] e answer := by
  rintro ⟨past, rest, heq, _⟩
  simp at heq

theorem addEdge_of_notMem (h : e.source ∉ g.succ.keys) :
    g.addEdge e.source e.target e.label = (g, .error (.missing e.source)) := by
  have hadds := adds_addEdge g e
  generalize g.addEdge e.source e.target e.label = r at hadds ⊢
  cases hadds with
  | noSource => rfl
  | present hsource => exact absurd hsource h
  | noTarget hsource => exact absurd hsource h
  | joined hsource => exact absurd hsource h

theorem addEdge_missing_iff (h : e.source ∈ g.succ.keys) :
    (g.addEdge e.source e.target e.label).2 = .error (.missing e.target) ↔
      e.target ∉ g.pred.keys ∧ e.target ∉ g.successors e.source := by
  have hadds := adds_addEdge g e
  generalize g.addEdge e.source e.target e.label = r at hadds ⊢
  cases hadds with
  | noSource hsource => exact absurd h hsource
  | present _ hpresent => simp [hpresent]
  | noTarget _ hnew htarget => simp [hnew, htarget]
  | joined _ _ htarget => simp [htarget]

theorem mem_edges_addEdge {e' : Edge} :
    e' ∈ (g.addEdge e.source e.target e.label).1.edges ↔ e' ∈ g.edges ∨
      (e = e' ∧ e.source ∈ g.succ.keys ∧ (g.addEdge e.source e.target e.label).2 = .ok true) := by
  have hadds := adds_addEdge g e
  generalize g.addEdge e.source e.target e.label = r at hadds ⊢
  cases hadds with
  | noSource => simp
  | present => simp
  | noTarget => simp [enter]
  | joined hsource _ _ => simp [join, hsource, eq_comm]

theorem Tallied.dangling_addEdge (h : g.Tallied) :
    (g.addEdge e.source e.target e.label).1.Dangling s t ↔ g.Dangling s t ∨
      (e.ends = (s, t) ∧ e.source ∈ g.succ.keys ∧
        (g.addEdge e.source e.target e.label).2 = .error (.missing e.target)) := by
  have hadds := adds_addEdge g e
  generalize g.addEdge e.source e.target e.label = r at hadds ⊢
  cases hadds with
  | noSource hsource => simp [hsource]
  | present => simp
  | noTarget hsource hnew _ =>
    have hends : e.ends ∉ g.edges.map Edge.ends := fun hmem => hnew (h.mem_successors hmem)
    rw [Dangling, mem_successors_enter, Dangling]
    constructor
    · rintro ⟨hmem | heq, hno⟩
      · exact .inl ⟨hmem, hno⟩
      · exact .inr ⟨heq, hsource, rfl⟩
    · rintro (⟨hmem, hno⟩ | ⟨heq, _⟩)
      · exact ⟨.inl hmem, hno⟩
      · exact ⟨.inr heq, heq ▸ hends⟩
  | joined hsource hnew _ =>
    rw [Dangling, successors_join, mem_successors_enter, Dangling, Graph.join, List.map_append,
      List.map_singleton, List.mem_append, List.mem_singleton, not_or]
    constructor
    · rintro ⟨hmem | heq, hno, hne⟩
      · exact .inl ⟨hmem, hno⟩
      · exact absurd heq.symm hne
    · rintro (⟨hmem, hno⟩ | ⟨_, _, heq⟩)
      · refine ⟨.inl hmem, hno, fun heq => hnew ?_⟩
        obtain ⟨rfl, rfl⟩ := Prod.mk.inj heq
        exact hmem
      · cases heq

theorem Tallied.dangling_addNode (h : g.Tallied) (hexit : n.id ≠ exitId) :
    (g.addNode n).Dangling s t ↔ g.Dangling s t := by
  rw [Dangling, h.successors_addNode hexit, edges_addNode, Dangling]

theorem Tallied.successors_eq (h : g.Tallied) (hno : ∀ t, ¬ g.Dangling s t) :
    g.successors s = g.targetsFrom s := by
  have hsubset : g.successors s ⊆ g.targetsFrom s := by
    intro t ht
    rw [mem_targetsFrom]
    exact Classical.byContradiction fun hends => hno t ⟨ht, hends⟩
  have hlength := ((h.nodup_successors s).subperm hsubset).length_le
  exact ((h.sublist_successors s).eq_of_length_le hlength).symm

section Runs

variable (h : ∀ n, Call.addNode n ∈ calls → n.id ≠ exitId)
include h

theorem tallied_after : (after calls).Tallied := by
  induction calls using List.reverseRecOn with
  | nil => exact .empty
  | append_singleton calls c ih =>
    have hpast := ih fun n hn => h n (List.mem_append_left _ hn)
    rw [after_concat]
    cases c with
    | addNode n => exact hpast.addNode (h n (by simp))
    | addEdge e => exact hpast.addEdge e

theorem mem_edges_after : e ∈ (after calls).edges ↔ Asked calls e (.ok true) := by
  induction calls using List.reverseRecOn with
  | nil => exact iff_of_false List.not_mem_nil not_asked_nil
  | append_singleton calls c ih =>
    have hpast : ∀ n, Call.addNode n ∈ calls → n.id ≠ exitId :=
      fun n hn => h n (List.mem_append_left _ hn)
    rw [after_concat, asked_concat, ← ih hpast]
    cases c with
    | addNode n => simp [Call.perform, edges_addNode]
    | addEdge e' =>
      rw [Call.perform, mem_edges_addEdge, (tallied_after hpast).keys_succ, Call.addEdge.injEq]
      exact or_congr_right (and_congr_right fun heq => heq ▸ Iff.rfl)

theorem dangling_after : (after calls).Dangling s t ↔
    ∃ label, Asked calls ⟨s, t, label⟩ (.error (.missing t)) := by
  induction calls using List.reverseRecOn with
  | nil =>
    refine iff_of_false (fun hdangling => ?_) fun ⟨_, hasked⟩ => not_asked_nil hasked
    exact List.not_mem_nil (successors_empty s ▸ hdangling.1)
  | append_singleton calls c ih =>
    have hpast : ∀ n, Call.addNode n ∈ calls → n.id ≠ exitId :=
      fun n hn => h n (List.mem_append_left _ hn)
    simp only [asked_concat, exists_or, ← ih hpast]
    rw [after_concat]
    cases c with
    | addNode n =>
      rw [Call.perform, (tallied_after hpast).dangling_addNode (h n (by simp))]
      simp
    | addEdge e =>
      rw [Call.perform, (tallied_after hpast).dangling_addEdge, (tallied_after hpast).keys_succ]
      refine or_congr_right ?_
      obtain ⟨s', t', label⟩ := e
      constructor
      · rintro ⟨hends, hasked⟩
        cases hends
        exact ⟨label, rfl, hasked⟩
      · rintro ⟨_, hcall, hasked⟩
        cases hcall
        exact ⟨rfl, hasked⟩

end Runs

theorem mem_ids_after : v ∈ (after calls).ids ↔ ∃ n, .addNode n ∈ calls ∧ n.id = v := by
  induction calls using List.reverseRecOn with
  | nil => simp [after, ids]
  | append_singleton calls c ih =>
    rw [after_concat]
    cases c with
    | addNode n =>
      simp only [Call.perform, mem_ids_addNode, ih, List.mem_append, List.mem_singleton,
        Call.addNode.injEq, or_and_right, exists_or, exists_eq_left]
    | addEdge e =>
      rw [Call.perform, ids, nodes_addEdge, ← ids, ih]
      simp

/-- A graph after any history of calls, failures included. There is at most one edge between two
ids, both ends of an edge are the exit or nodes that were added, the predecessors are told by the
edges, and each edge is told by the successors. A target without an edge is left exactly where an
edge from a known source was asked for while its target was unknown; where this never happened,
edges, successors and predecessors mirror each other. From an unknown source nothing changes. -/
theorem after_consistent (h : ∀ n, Call.addNode n ∈ calls → n.id ≠ exitId)
    (hg : after calls = g) :
    (g.edges.map Edge.ends).Nodup ∧
    (∀ s t, (g.predecessors t).count s = if (s, t) ∈ g.edges.map Edge.ends then 1 else 0) ∧
    (∀ e ∈ g.edges, (g.successors e.source).count e.target = 1) ∧
    (∀ e ∈ g.edges, e.source ∈ exitId :: g.ids ∧ e.target ∈ exitId :: g.ids) ∧
    (∀ v, v ∈ g.ids ↔ ∃ n, .addNode n ∈ calls ∧ n.id = v) ∧
    (∀ e, e ∈ g.edges ↔ Asked calls e (.ok true)) ∧
    (∀ s t, (t ∈ g.successors s ∧ (s, t) ∉ g.edges.map Edge.ends) ↔
      ∃ label, Asked calls ⟨s, t, label⟩ (.error (.missing t))) ∧
    (∀ s ∈ exitId :: g.ids, ∀ t label, (g.addEdge s t label).2 = .error (.missing t) ↔
      t ∉ exitId :: g.ids ∧ t ∉ g.successors s) ∧
    (∀ s, s ∉ exitId :: g.ids → ∀ t label, g.addEdge s t label = (g, .error (.missing s))) ∧
    ((∀ e, ¬ Asked calls e (.error (.missing e.target))) → ∀ v,
      g.successors v = g.targetsFrom v ∧ g.predecessors v = g.sourcesTo v ∧
      ∀ w, w ∈ g.successors v ↔ v ∈ g.predecessors w) := by
  subst hg
  have htallied := tallied_after h
  refine ⟨htallied.nodup_ends, fun s t => ?_, fun e he => ?_, htallied.ends_known,
    fun v => mem_ids_after, fun e => mem_edges_after h, fun s t => dangling_after h, ?_, ?_, ?_⟩
  · rw [htallied.predecessors_eq, (htallied.nodup_sourcesTo t).count,
      if_congr mem_sourcesTo rfl rfl]
  · rw [List.count_eq_one_of_mem (htallied.nodup_successors _)]
    exact htallied.mem_successors (List.mem_map_of_mem he)
  · intro s hs t label
    rw [← htallied.keys_pred]
    exact addEdge_missing_iff (e := ⟨s, t, label⟩) (htallied.keys_succ ▸ hs)
  · intro s hs t label
    exact addEdge_of_notMem (e := ⟨s, t, label⟩) (htallied.keys_succ ▸ hs)
  · intro hnone v
    have hsuccessors := fun v => htallied.successors_eq (s := v) fun t hdangling => by
      obtain ⟨label, hasked⟩ := (dangling_after h).mp hdangling
      exact hnone _ hasked
    refine ⟨hsuccessors v, htallied.predecessors_eq v, fun w => ?_⟩
    rw [hsuccessors, htallied.predecessors_eq, mem_targetsFrom, mem_sourcesTo]

def patched : List Call :=
  [.addNode { id := 0, kind := .expression, line := none }, .addEdge ⟨0, 1, "Y"⟩,
    .addEdge ⟨1, 0, ""⟩, .addNode { id := 1, kind := .expression, line := none },
    .addNode { id := 1, kind := .statement, line := some 3 }, .addEdge ⟨0, 1, "N"⟩,
    .addEdge ⟨1, 0, ""⟩, .addEdge ⟨1, exitId, ""⟩]

def around : List Call :=
  [.addNode { id := 0, kind := .expression, line := none }, .addEdge ⟨0, exitId, ""⟩,
    .addEdge ⟨exitId, 0, ""⟩]

theorem after_consistent_patched :
    ((after patched).edges = [⟨1, 0, ""⟩, ⟨1, exitId, ""⟩] ∧
      ((after patched).predecessors 0).count 1 = 1 ∧
      ((after patched).predecessors 1).count 0 = 0 ∧
      1 ∈ (after patched).successors 0 ∧
      (∃ label, Asked patched ⟨0, 1, label⟩ (.error (.missing 1))) ∧
      (after patched).addEdge 2 0 "" = (after patched, .error (.missing 2))) ∧
    (∀ e, ¬ Asked around e (.error (.missing e.target))) ∧
      (after around).successors exitId = [0] ∧ exitId ∈ (after around).predecessors 0 := by
  have hexit : ∀ n, Call.addNode n ∈ patched → n.id ≠ exitId := by simp [patched, exitId]
  have hedges : (after patched).edges = [⟨1, 0, ""⟩, ⟨1, exitId, ""⟩] := by decide +kernel
  have hsuccessors : 1 ∈ (after patched).successors 0 := by decide +kernel
  obtain ⟨_, hpredecessors, _, _, _, _, hdangling, _, hunknown, _⟩ := after_consistent hexit rfl
  have hnone : ∀ e, ¬ Asked around e (.error (.missing e.target)) := by
    intro e hasked
    rw [show around = (([] ++ [_]) ++ [_]) ++ [_] from rfl] at hasked
    simp only [asked_concat] at hasked
    rcases hasked with ((hnil | ⟨hcall, _⟩) | ⟨hcall, _, hanswer⟩) | ⟨hcall, _, hanswer⟩
    · exact not_asked_nil hnil
    · cases hcall
    · cases hcall
      exact absurd hanswer (by decide +kernel)
    · cases hcall
      exact absurd hanswer (by decide +kernel)
  have haround : ∀ n, Call.addNode n ∈ around → n.id ≠ exitId := by simp [around, exitId]
  obtain ⟨_, _, _, _, _, _, _, _, _, hmirror⟩ := after_consistent haround rfl
  refine ⟨⟨hedges, ?_, ?_, hsuccessors, ?_, ?_⟩, hnone, ?_, ?_⟩
  · rw [hpredecessors, hedges]
    decide
  · rw [hpredecessors, hedges]
    decide
  · refine (hdangling 0 1).mp ⟨hsuccessors, ?_⟩
    rw [hedges]
    decide
  · exact hunknown 2 (by decide +kernel) 0 ""
  · rw [(hmirror hnone exitId).1]
    decide +kernel
  · refine ((hmirror hnone exitId).2.2 0).mp ?_
    decide +kernel

end Graph

end Backslice

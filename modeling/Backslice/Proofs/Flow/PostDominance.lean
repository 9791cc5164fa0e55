import Backslice.Proofs.Flow.ExitEdges
import Backslice.Proofs.Flow.Sweeps

namespace Backslice

theorem exists_mapM_ok {ε α β : Type} {f : α → Except ε β} {q : α → β → Prop} {xs : List α}
    (h : ∀ x ∈ xs, ∃ y, f x = .ok y ∧ q x y) :
    ∃ ys, xs.mapM f = .ok ys ∧ List.Forall₂ q xs ys := by
  induction xs with
  | nil => exact ⟨[], rfl, .nil⟩
  | cons x xs ih =>
    obtain ⟨y, hy, hq⟩ := h x (List.mem_cons_self ..)
    obtain ⟨ys, hys, hall⟩ := ih fun x' hx' => h x' (List.mem_cons_of_mem _ hx')
    refine ⟨y :: ys, ?_, .cons hq hall⟩
    rw [List.mapM_cons, hy, hys]
    rfl

theorem exists_mem_iff_of_forall₂ {α β : Type} {q : α → β → Prop} {xs : List α} {ys : List β}
    {p : α → Prop} {p' : β → Prop} (h : List.Forall₂ q xs ys)
    (hp : ∀ x y, q x y → (p' y ↔ p x)) : (∃ y ∈ ys, p' y) ↔ ∃ x ∈ xs, p x := by
  induction h with
  | nil => simp
  | cons hq _ ih => simp only [List.exists_mem_cons_iff, hp _ _ hq, ih]

namespace PostDominance

open DepthFirst (Linked neighbours)
open Relation (ReflTransGen)

variable {g : Graph} {t : Table NodeId NodeId} {order : List NodeId} {v a f stop : NodeId}

theorem linked_extended_eq (h : g.Sound) : Linked (ExitEdges.extended g) = g.Extended := by
  funext v w
  exact propext (ExitEdges.linked_extended h)

theorem linked_reversed_eq (h : g.Sound) :
    Linked (ExitEdges.reversed (ExitEdges.extended g)) = Function.swap g.Extended := by
  funext v w
  exact propext (ExitEdges.mem_neighbours_reversed h)

def sweepOrder (g : Graph) : List NodeId :=
  DepthFirst.reversePostorder (ExitEdges.reversed (ExitEdges.extended g)) exitId

theorem mem_sweepOrder (h : g.Sound) : v ∈ sweepOrder g ↔ v ∈ exitId :: g.ids := by
  rw [sweepOrder, DepthFirst.reversePostorder, DepthFirst.mem_walkFrom_left, linked_reversed_eq h]
  simp only [List.mem_singleton, exists_eq_left, Relation.reflTransGen_swap]
  constructor
  · intro hreach
    rcases Relation.ReflTransGen.cases_head hreach with rfl | ⟨w, hw, _⟩
    · exact List.mem_cons_self ..
    · exact List.mem_cons_of_mem _ (hw.source_mem h)
  · exact h.extended_reaches_exit

theorem reversePostorder_eq_cons (graph : Adjacency) (root : NodeId) :
    ∃ rest, DepthFirst.reversePostorder graph root = root :: rest := by
  obtain ⟨inner, _, hwalk⟩ := DepthFirst.exists_walkFrom_root graph root
  exact ⟨inner.left, by rw [DepthFirst.reversePostorder, hwalk]⟩

theorem schedule_sweepOrder (h : g.Sound) :
    Schedule (ExitEdges.extended g) (sweepOrder g) := by
  have hvisits := DepthFirst.visits_walkFrom (ExitEdges.reversed (ExitEdges.extended g)) [exitId]
  have hmem := fun v => mem_sweepOrder (v := v) h
  refine ⟨hvisits.nodup, (hmem _).mpr (List.mem_cons_self ..), ?_, ?_, ?_, ?_⟩
  · obtain ⟨rest, hrest⟩ := reversePostorder_eq_cons
      (ExitEdges.reversed (ExitEdges.extended g)) exitId
    rw [sweepOrder, hrest, List.idxOf_cons_self]
  · exact fun v hv => ExitEdges.get?_extended h ((hmem v).mp hv)
  · intro v _ w hw
    exact (hmem w).mpr (((ExitEdges.linked_extended h).mp hw).target_mem h)
  · intro v hv hne
    have hfollows := (hvisits.led v hv).resolve_left (by simpa using hne)
    obtain ⟨w, _, hw, hlt⟩ := hfollows.exists_idxOf_lt hvisits.nodup
    exact ⟨w, (ExitEdges.linked_extended h).mpr ((ExitEdges.mem_neighbours_reversed h).mp hw), hlt⟩

/-- A table of immediate post-dominators: the ancestors of an id are its post-dominators, and the
parent of an id has exactly those ancestors that all its targets share. -/
structure IsTree (g : Graph) (order : List NodeId) (t : Table NodeId NodeId) : Prop
    extends Climbs order t where
  mem_keys : ∀ v, v ∈ t.keys ↔ v ∈ exitId :: g.ids
  nodup_order : order.Nodup
  order_keys : ∀ v ∈ order, v ∈ t.keys
  above_iff : ∀ v ∈ exitId :: g.ids, ∀ a, Above t v a ↔ Unavoidable g.Extended exitId a v
  settled : ∀ v ∈ g.ids, ∃ p, t.get? v = some p ∧
    ∀ a, Above t p a ↔ ∀ w, g.Extended v w → Above t w a

theorem immediate_ok (h : g.Sound) : ∃ t,
    immediate (ExitEdges.extended g) (ExitEdges.reversed (ExitEdges.extended g)) = .ok t ∧
      IsTree g (sweepOrder g) t := by
  have hs := schedule_sweepOrder h
  have hmem := fun v => mem_sweepOrder (v := v) h
  have hfuel : weight (sweepOrder g) ⟨[(exitId, exitId)]⟩ <
      ((sweepOrder g).length + 1) * ((sweepOrder g).length + 1) :=
    Nat.lt_of_le_of_lt (weight_le ..) (Nat.mul_self_lt_mul_self (Nat.lt_succ_self _))
  obtain ⟨t, hok, hm, hall⟩ := sweeps_ok hs _ (midway_start hs) hfuel
  refine ⟨t, hok, hm.toClimbs, ?_, hs.nodup, hm.done_mem, ?_, ?_⟩
  · exact fun v => ⟨fun hv => (hmem v).mp (hm.listed v hv),
      fun hv => hm.done_mem v ((hmem v).mpr hv)⟩
  · intro v hv a
    rw [← linked_extended_eq h]
    exact hm.above_iff_unavoidable hs hall ((hmem v).mpr hv)
  · intro v hv
    have hknown := (hmem v).mpr (List.mem_cons_of_mem _ hv)
    obtain ⟨p, hp, hmeet⟩ := hall v hknown fun hne => h.exit_notMem (hne ▸ hv)
    refine ⟨p, hp, fun a => ?_⟩
    rw [hmeet]
    constructor
    · intro hshare w hw
      have hw' := (ExitEdges.linked_extended h).mpr hw
      exact hshare w hw' (hm.done_mem w (hs.closed v hknown w hw'))
    · exact fun hshare w hw _ => hshare w ((ExitEdges.linked_extended h).mp hw)

theorem climb_ok (h : Climbs order t) (fuel : Nat) (hv : v ∈ t.keys) (hstop : Above t v stop)
    (hfuel : order.idxOf v < fuel) :
    ∃ l, climb t stop fuel v = .ok l ∧ ∀ x, x ∈ l ↔ Above t v x ∧ ¬ Above t stop x := by
  induction fuel generalizing v with
  | zero => omega
  | succ fuel ih =>
    rw [climb]
    by_cases hend : v = stop ∨ v = exitId
    · have heq : v = stop := by
        rcases hend with heq | rfl
        · exact heq
        · exact (above_exit_iff.mp hstop).symm
      subst heq
      exact ⟨[], by rw [if_pos hend], by simp⟩
    · rw [not_or] at hend
      obtain ⟨p, hpk, hp, hlt⟩ := h.exists_parent hv hend.2
      have hpstop := ((PostDominance.above_iff hend.2 hp).mp hstop).resolve_left (Ne.symm hend.1)
      obtain ⟨l, hok, hmem⟩ := ih hpk hpstop (by omega)
      refine ⟨v :: l, ?_, fun x => ?_⟩
      · rw [if_neg (not_or.mpr hend), require_eq_ok hp]
        simp only [bind, Except.bind, hok]
        rfl
      · rw [List.mem_cons, hmem, PostDominance.above_iff hend.2 hp]
        constructor
        · rintro (rfl | ⟨hpx, hx⟩)
          · exact ⟨.inl rfl, fun hx => hend.1 (h.antisymm hx hstop)⟩
          · exact ⟨.inr hpx, hx⟩
        · rintro ⟨rfl | hpx, hx⟩
          · exact .inl rfl
          · exact .inr ⟨hpx, hx⟩

theorem IsTree.length_le (h : IsTree g order t) : order.length ≤ t.entries.length := by
  have hsub : order ⊆ t.keys := h.order_keys
  have hle := (List.subperm_of_subset h.nodup_order hsub).length_le
  rwa [Table.keys, List.length_map] at hle

/-- A branch decides an id if one of its targets has the id above it and its parent has not. -/
theorem IsTree.decides_iff (h : IsTree g order t) (hg : g.Sound) (hf : f ∈ g.ids) {p : NodeId}
    (hp : t.get? f = some p) :
    Decides g.Extended exitId f a ↔ (∃ s, g.Extended f s ∧ Above t s a) ∧ ¬ Above t p a := by
  have hne : f ≠ exitId := fun hne => hg.exit_notMem (hne ▸ hf)
  have hstrict : (a ≠ f ∧ Unavoidable g.Extended exitId a f) ↔ Above t p a := by
    rw [← h.above_iff f (List.mem_cons_of_mem _ hf), PostDominance.above_iff hne hp]
    constructor
    · exact fun ⟨hne, ha⟩ => ha.resolve_left hne
    · intro ha
      refine ⟨?_, .inr ha⟩
      rintro rfl
      exact absurd (h.idxOf_le ha) (Nat.not_le_of_lt (h.parent_lt _ _ hne hp))
  rw [Decides, hstrict]
  refine and_congr_left fun _ => exists_congr fun s => and_congr_right fun hs => ?_
  rw [h.above_iff s (hs.target_mem hg)]

theorem IsTree.climb_target (h : IsTree g order t) (hg : g.Sound) {p s : NodeId}
    (hmeet : ∀ a, Above t p a ↔ ∀ w, g.Extended f w → Above t w a) (hs : g.Extended f s) :
    ∃ l, climb t p (t.entries.length + 1) s = .ok l ∧
      ∀ x, x ∈ l ↔ Above t s x ∧ ¬ Above t p x := by
  have hsk := (h.mem_keys s).mpr (hs.target_mem hg)
  refine climb_ok h.toClimbs _ hsk ((hmeet p).mp (.refl p) s hs) ?_
  have := List.idxOf_lt_length_of_mem (h.listed s hsk)
  have := h.length_le
  omega

theorem controlled_ok (h : IsTree g order t) (hg : g.Sound) (hf : f ∈ exitId :: g.ids) :
    ∃ l, controlled t f (neighbours (ExitEdges.extended g) f) = .ok l ∧
      ∀ x, x ∈ l ↔ Decides g.Extended exitId f x := by
  have hlinked : ∀ w, w ∈ neighbours (ExitEdges.extended g) f ↔ g.Extended f w :=
    fun w => ExitEdges.linked_extended hg
  rcases List.mem_cons.mp hf with rfl | hf
  · have hnone : neighbours (ExitEdges.extended g) exitId = [] := by
      rw [List.eq_nil_iff_forall_not_mem]
      exact fun w hw => ((hlinked w).mp hw).source_ne_exit hg rfl
    refine ⟨[], by rw [controlled, hnone]; rfl, fun x => ?_⟩
    simp only [List.not_mem_nil, false_iff]
    rintro ⟨⟨s, hs, _⟩, _⟩
    exact hs.source_ne_exit hg rfl
  · obtain ⟨p, hp, hmeet⟩ := h.settled f hf
    unfold controlled
    split
    · -- with a single target, the target is the parent
      rename_i hlen
      refine ⟨[], rfl, fun x => ?_⟩
      rw [h.decides_iff hg hf hp]
      simp only [List.not_mem_nil, false_iff, not_and, not_not, forall_exists_index, and_imp]
      intro s hs hsx
      refine (hmeet x).mpr fun w hw => ?_
      have hmem := (hlinked w).mpr hw
      have hmem' := (hlinked s).mpr hs
      match hl : neighbours (ExitEdges.extended g) f with
      | [] => rw [hl] at hmem; cases hmem
      | [u] =>
        rw [hl, List.mem_singleton] at hmem hmem'
        rwa [hmem, ← hmem']
      | _ :: _ :: _ =>
        rw [hl, List.length_cons, List.length_cons] at hlen
        omega
    · obtain ⟨paths, hok, hall⟩ := exists_mapM_ok fun s hs =>
        h.climb_target hg hmeet ((hlinked s).mp hs)
      refine ⟨paths.flatten, ?_, fun x => ?_⟩
      · rw [require_eq_ok hp]
        simp only [bind, Except.bind, hok]
        rfl
      · rw [List.mem_flatten, h.decides_iff hg hf hp,
          exists_mem_iff_of_forall₂ hall fun s l hl => hl x]
        simp only [hlinked]
        exact ⟨fun ⟨s, hs, hsx, hpx⟩ => ⟨⟨s, hs, hsx⟩, hpx⟩,
          fun ⟨⟨s, hs, hsx⟩, hpx⟩ => ⟨s, hs, hsx, hpx⟩⟩

theorem frontierOf_ok (h : IsTree g order t) (hg : g.Sound) :
    ∃ frontier, frontierOf (ExitEdges.extended g) t = .ok frontier ∧
      ∀ v ∈ exitId :: g.ids, ∀ f,
        f ∈ (frontier.get? v).getD [] ↔ Decides g.Extended exitId f v := by
  have hentry : ∀ e ∈ (ExitEdges.extended g).entries,
      e.1 ∈ exitId :: g.ids ∧ e.2 = neighbours (ExitEdges.extended g) e.1 := by
    intro e he
    have hget := (Table.get?_eq_some_iff_mem (ExitEdges.nodup_keys_extended hg)).mpr he
    exact ⟨(ExitEdges.mem_keys_extended hg).mp (Table.mem_keys_of_get? hget), by
      rw [neighbours, hget, Option.getD_some]⟩
  obtain ⟨decided, hok, hall⟩ := exists_mapM_ok
    (f := fun e : NodeId × List NodeId => do return (e.1, ← controlled t e.1 e.2))
    (q := fun e d => e.1 = d.1 ∧ ∀ x, x ∈ d.2 ↔ Decides g.Extended exitId e.1 x) (by
      intro e (he : e ∈ (ExitEdges.extended g).entries)
      obtain ⟨hknown, htargets⟩ := hentry e he
      obtain ⟨l, hl, hmem⟩ := controlled_ok h hg hknown
      refine ⟨(e.1, l), ?_, rfl, hmem⟩
      rw [htargets, hl]
      rfl)
  refine ⟨Table.ofKeys (ExitEdges.extended g).keys fun v =>
    (decided.filter fun e => v ∈ e.2).map (·.1), ?_, fun v hv f => ?_⟩
  · rw [frontierOf, hok]
    rfl
  · rw [Table.get?_ofKeys, if_pos ((ExitEdges.mem_keys_extended hg).mpr hv), Option.getD_some,
      List.mem_map]
    simp only [List.mem_filter, decide_eq_true_eq, and_assoc]
    rw [exists_mem_iff_of_forall₂ (p := fun e => Decides g.Extended exitId e.1 v ∧ e.1 = f) hall
      fun e d hd => by rw [hd.2 v, hd.1]]
    constructor
    · rintro ⟨e, _, hdec, rfl⟩
      exact hdec
    · intro hdec
      obtain ⟨⟨s, hs, _⟩, _⟩ := id hdec
      have hf : f ∈ exitId :: g.ids := List.mem_cons_of_mem _ (hs.source_mem hg)
      have hget := ExitEdges.get?_extended hg hf
      exact ⟨_, (Table.get?_eq_some_iff_mem (ExitEdges.nodup_keys_extended hg)).mp hget, hdec, rfl⟩

theorem ofGraph_ok (h : g.Sound) : ∃ pd, ofGraph g = .ok pd ∧ IsTree g (sweepOrder g) pd.ipdom ∧
    ∀ v ∈ exitId :: g.ids, ∀ f,
      f ∈ (pd.frontier.get? v).getD [] ↔ Decides g.Extended exitId f v := by
  obtain ⟨t, ht, htree⟩ := immediate_ok h
  obtain ⟨frontier, hf, hmem⟩ := frontierOf_ok htree h
  refine ⟨⟨ExitEdges.extended g, ExitEdges.reversed (ExitEdges.extended g), t, frontier⟩, ?_,
    htree, hmem⟩
  rw [ofGraph]
  simp only [bind, Except.bind, ht, hf]
  rfl

end PostDominance

end Backslice

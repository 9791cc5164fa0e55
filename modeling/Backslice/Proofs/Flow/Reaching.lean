import Backslice.Flow.Reaching
import Backslice.Proofs.Flow.Graph
import Backslice.Proofs.Walk
import Mathlib.Algebra.BigOperators.Ring.List
import Mathlib.Algebra.Order.BigOperators.Group.List
import Mathlib.Algebra.Order.Group.Nat
import Mathlib.Algebra.Ring.Nat

namespace Backslice

namespace Graph

/-- A way of one or more edges from `site` to `v`, on which `x` is not defined in between. -/
def Carries (g : Graph) (x : Variable) (site v : NodeId) : Prop :=
  ∃ w l, g.Step site w ∧ Walk g.Step w v l ∧ ∀ m ∈ l, ¬ g.Defines m x

def Reaches (g : Graph) (x : Variable) (site v : NodeId) : Prop :=
  g.Defines site x ∧ g.Carries x site v

def Leaves (g : Graph) (x : Variable) (site v : NodeId) : Prop :=
  (site = v ∧ g.Defines v x) ∨ (g.Reaches x site v ∧ ¬ g.Defines v x)

theorem Leaves.step {g : Graph} {x : Variable} {site v w : NodeId} (h : g.Leaves x site v)
    (hs : g.Step v w) : g.Reaches x site w := by
  rcases h with ⟨rfl, hd⟩ | ⟨⟨hd, u, l, hu, hl, hnot⟩, hv⟩
  · exact ⟨hd, w, [], hs, .nil w, by simp⟩
  · refine ⟨hd, u, l ++ [v], hu, hl.append (.single hs), fun m hm => ?_⟩
    rcases List.mem_append.mp hm with hm | hm
    · exact hnot m hm
    · rwa [List.mem_singleton.mp hm]

theorem Sound.start_mem_ids {g : Graph} {v w : NodeId} {l : List NodeId} (hg : g.Sound)
    (hexit : g.successors exitId = []) (hl : Walk g.Step v w l) (hw : w ∈ g.ids) : v ∈ g.ids := by
  cases hl with
  | nil => exact hw
  | cons hs _ => exact hg.source_mem_ids hexit hs

theorem Defines.mem_ids {g : Graph} {x : Variable} {v : NodeId} (h : g.Defines v x) :
    v ∈ g.ids := by
  obtain ⟨n, hn, rfl, _⟩ := h
  exact id_mem_ids hn

end Graph

namespace Reaching

open Backslice.Graph

def into (r : Reaching) (v : NodeId) : List Definition := (r.incoming.get? v).getD []

def outOf (r : Reaching) (v : NodeId) : List Definition := (r.outgoing.get? v).getD []

def Arrives (g : Graph) (r : Reaching) (v : NodeId) (d : Definition) : Prop :=
  ∃ p, g.Step p v ∧ d ∈ outOf r p

variable {g : Graph} {r : Reaching} {n : Node} {v w : NodeId} {d : Definition}
  {queue : List NodeId}

theorem gather_ok {outgoing : Table NodeId (List Definition)} {ps : List NodeId}
    (h : ∀ p ∈ ps, p ∈ outgoing.keys) : ∃ ds, gather outgoing ps = .ok ds ∧
      ∀ d, d ∈ ds ↔ ∃ p ∈ ps, d ∈ (outgoing.get? p).getD [] := by
  induction ps with
  | nil => exact ⟨[], rfl, by simp⟩
  | cons p ps ih =>
    obtain ⟨ds, hds⟩ := (outgoing.exists_get?_iff p).mpr (h p (List.mem_cons_self ..))
    obtain ⟨rest, hok, hmem⟩ := ih fun q hq => h q (List.mem_cons_of_mem _ hq)
    refine ⟨ds ++ rest, ?_, fun d => ?_⟩
    · simp only [gather, hds, hok]
      rfl
    · rw [List.mem_append, hmem, List.exists_mem_cons_iff, hds, Option.getD_some]

theorem mem_transfer {incoming : List Definition} : d ∈ transfer n incoming ↔
    (d ∈ incoming ∧ d.var ∉ n.defs) ∨ (d.site = n.id ∧ d.var ∈ n.defs) := by
  obtain ⟨site, x⟩ := d
  simp only [transfer, List.mem_append, List.mem_filter, decide_eq_true_eq, List.mem_map,
    Definition.mk.injEq]
  refine or_congr_right ⟨?_, ?_⟩
  · rintro ⟨y, hy, rfl, rfl⟩
    exact ⟨rfl, hy⟩
  · rintro ⟨rfl, hx⟩
    exact ⟨x, hx, rfl, rfl⟩

theorem sameMembers_iff {a b : List Definition} :
    sameMembers a b = true ↔ ∀ d, d ∈ a ↔ d ∈ b := by
  simp only [sameMembers, Bool.and_eq_true, List.all_eq_true, decide_eq_true_eq]
  exact ⟨fun h d => ⟨h.1 d, h.2 d⟩, fun h => ⟨fun d => (h d).mp, fun d => (h d).mpr⟩⟩

theorem mem_enqueue {vs : List NodeId} :
    w ∈ enqueue queue vs ↔ w ∈ queue ∨ (w ∈ vs ∧ w ≠ exitId) := by
  induction vs generalizing queue with
  | nil => simp [enqueue]
  | cons v vs ih =>
    rw [enqueue]
    split
    · rename_i h
      rw [ih, List.mem_cons]
      rcases h with rfl | h
      · tauto
      · constructor
        · tauto
        · rintro (hw | ⟨rfl | hw, hne⟩)
          · exact .inl hw
          · exact .inl h
          · exact .inr ⟨hw, hne⟩
    · rename_i h
      rw [not_or] at h
      rw [ih, List.mem_append, List.mem_singleton, List.mem_cons]
      constructor
      · rintro ((hw | rfl) | hw)
        · exact .inl hw
        · exact .inr ⟨.inl rfl, h.1⟩
        · exact .inr ⟨.inr hw.1, hw.2⟩
      · tauto

theorem length_enqueue_le (queue vs : List NodeId) :
    (enqueue queue vs).length ≤ queue.length + vs.length := by
  induction vs generalizing queue with
  | nil => simp [enqueue]
  | cons v vs ih =>
    rw [enqueue, List.length_cons]
    split
    · have := ih queue
      omega
    · have := ih (queue ++ [v])
      simp only [List.length_append, List.length_singleton] at this
      omega

/-- What holds while the queue is worked off. A node that does not wait in the queue agrees with
its predecessors. -/
structure Progress (g : Graph) (queue : List NodeId) (r : Reaching) : Prop where
  queued : ∀ v ∈ queue, v ∈ g.ids
  listed : ∀ v ∈ g.ids, v ∈ r.outgoing.keys
  nodup : ∀ v, (outOf r v).Nodup
  into_sound : ∀ v, ∀ d ∈ into r v, g.Reaches d.var d.site v
  outOf_sound : ∀ v, ∀ d ∈ outOf r v, g.Leaves d.var d.site v
  lasting : ∀ n ∈ g.nodes, ∀ d ∈ outOf r n.id,
    (Arrives g r n.id d ∧ d.var ∉ n.defs) ∨ (d.site = n.id ∧ d.var ∈ n.defs)
  into_settled : ∀ n ∈ g.nodes, n.id ∉ queue → ∀ d, d ∈ into r n.id ↔ Arrives g r n.id d
  outOf_settled : ∀ n ∈ g.nodes, n.id ∉ queue → ∀ d,
    d ∈ outOf r n.id ↔ (Arrives g r n.id d ∧ d.var ∉ n.defs) ∨ (d.site = n.id ∧ d.var ∈ n.defs)

structure Visit (g : Graph) (n : Node) (r : Reaching) (incoming out : List Definition) :
    Prop where
  mem : n ∈ g.nodes
  mem_incoming : ∀ d, d ∈ incoming ↔ Arrives g r n.id d
  mem_out : ∀ d, d ∈ out ↔
    (Arrives g r n.id d ∧ d.var ∉ n.defs) ∨ (d.site = n.id ∧ d.var ∈ n.defs)
  nodup_out : out.Nodup

theorem Progress.reaches (h : Progress g queue r) (ha : Arrives g r w d) :
    g.Reaches d.var d.site w := by
  obtain ⟨p, hp, hd⟩ := ha
  exact (h.outOf_sound p d hd).step hp

theorem Progress.leaves {incoming out : List Definition} (h : Progress g queue r) (hg : g.Sound)
    (hv : Visit g n r incoming out) (hd : d ∈ out) : g.Leaves d.var d.site n.id := by
  rcases (hv.mem_out d).mp hd with ⟨ha, hnot⟩ | ⟨hsite, hx⟩
  · right
    rw [hg.defines_id hv.mem]
    exact ⟨h.reaches ha, hnot⟩
  · exact .inl ⟨hsite, (hg.defines_id hv.mem).mpr hx⟩

theorem into_put (r : Reaching) (ds : List Definition) (k : Nat) (w : NodeId) :
    into { r with incoming := r.incoming.put v ds, visits := k } w =
      if v = w then ds else into r w := by
  simp only [into, Table.get?_put]
  split <;> rfl

theorem Progress.keep {incoming out : List Definition} (h : Progress g (n.id :: queue) r)
    (hg : g.Sound) (hv : Visit g n r incoming out) (hsame : ∀ d, d ∈ out ↔ d ∈ outOf r n.id)
    (k : Nat) :
    Progress g queue { r with incoming := r.incoming.put n.id incoming, visits := k } where
  queued w hw := h.queued w (List.mem_cons_of_mem _ hw)
  listed := h.listed
  nodup := h.nodup
  into_sound w d hd := by
    rw [into_put] at hd
    split at hd
    · rename_i hw
      subst hw
      exact h.reaches ((hv.mem_incoming d).mp hd)
    · exact h.into_sound w d hd
  outOf_sound := h.outOf_sound
  lasting := h.lasting
  into_settled m hm hq d := by
    rw [into_put]
    split
    · rename_i hid
      exact hid ▸ hv.mem_incoming d
    · rename_i hid
      exact h.into_settled m hm (by simp [Ne.symm hid, hq]) d
  outOf_settled m hm hq d := by
    by_cases hid : n.id = m.id
    · have heq := hg.node_unique hv.mem hm hid
      subst heq
      exact (hsame d).symm.trans (hv.mem_out d)
    · exact h.outOf_settled m hm (by simp [Ne.symm hid, hq]) d

abbrev recorded (r : Reaching) (v : NodeId) (incoming out : List Definition) (k : Nat) :
    Reaching :=
  { incoming := r.incoming.put v incoming, outgoing := r.outgoing.put v out, visits := k }

theorem into_recorded (r : Reaching) (incoming out : List Definition) (k : Nat) (w : NodeId) :
    into (recorded r v incoming out k) w = if v = w then incoming else into r w :=
  into_put r incoming k w

theorem outOf_recorded (r : Reaching) (incoming out : List Definition) (k : Nat) (w : NodeId) :
    outOf (recorded r v incoming out k) w = if v = w then out else outOf r w := by
  simp only [outOf, Table.get?_put]
  split <;> rfl

theorem Progress.outOf_subset {incoming out : List Definition} (h : Progress g queue r)
    (hv : Visit g n r incoming out) (k : Nat) (w : NodeId) :
    outOf r w ⊆ outOf (recorded r n.id incoming out k) w := by
  intro d hd
  rw [outOf_recorded]
  split
  · rename_i hw
    subst hw
    exact (hv.mem_out d).mpr (h.lasting n hv.mem d hd)
  · exact hd

theorem Progress.arrives_recorded {incoming out : List Definition}
    (h : Progress g (n.id :: queue) r) (hv : Visit g n r incoming out) (k : Nat)
    (ha : Arrives g r w d) : Arrives g (recorded r n.id incoming out k) w d := by
  obtain ⟨p, hp, hd⟩ := ha
  exact ⟨p, hp, h.outOf_subset hv k p hd⟩

theorem Progress.arrives_recorded_iff {incoming out : List Definition} {m : Node}
    (h : Progress g (n.id :: queue) r) (hg : g.Sound) (hv : Visit g n r incoming out) (k : Nat)
    (hm : m ∈ g.nodes) (hq : m.id ∉ enqueue queue (g.successors n.id)) :
    Arrives g (recorded r n.id incoming out k) m.id d ↔ Arrives g r m.id d := by
  refine ⟨?_, h.arrives_recorded hv k⟩
  rintro ⟨p, hp, hd⟩
  have hne : n.id ≠ p := by
    -- a successor of the visited node would wait
    rintro rfl
    refine hq (mem_enqueue.mpr (.inr ⟨hp, ?_⟩))
    exact fun he => hg.exit_notMem (he ▸ id_mem_ids hm)
  rw [outOf_recorded, if_neg hne] at hd
  exact ⟨p, hp, hd⟩

theorem Progress.grow {incoming out : List Definition} (h : Progress g (n.id :: queue) r)
    (hg : g.Sound) (hv : Visit g n r incoming out) (k : Nat) :
    Progress g (enqueue queue (g.successors n.id)) (recorded r n.id incoming out k) := by
  have hwaits : ∀ m : Node, m.id ∉ enqueue queue (g.successors n.id) → n.id ≠ m.id →
      m.id ∉ n.id :: queue := by
    intro m hq hne
    rw [List.mem_cons, not_or]
    exact ⟨hne.symm, fun hmq => hq (mem_enqueue.mpr (.inl hmq))⟩
  constructor
  case queued =>
    intro w hw
    rcases mem_enqueue.mp hw with hw | ⟨hw, hne⟩
    · exact h.queued w (List.mem_cons_of_mem _ hw)
    · exact (List.mem_cons.mp (hg.target_known _ _ hw)).resolve_left hne
  case listed =>
    intro w hw
    simp [h.listed w hw]
  case nodup =>
    intro w
    rw [outOf_recorded]
    split
    · exact hv.nodup_out
    · exact h.nodup w
  case into_sound =>
    intro w d hd
    rw [into_recorded] at hd
    split at hd
    · rename_i hw
      subst hw
      exact h.reaches ((hv.mem_incoming d).mp hd)
    · exact h.into_sound w d hd
  case outOf_sound =>
    intro w d hd
    rw [outOf_recorded] at hd
    split at hd
    · rename_i hw
      exact hw ▸ h.leaves hg hv hd
    · exact h.outOf_sound w d hd
  case lasting =>
    intro m hm d hd
    rw [outOf_recorded] at hd
    split at hd
    · rename_i hid
      have heq := hg.node_unique hv.mem hm hid
      subst heq
      exact ((hv.mem_out d).mp hd).imp_left fun ⟨ha, hx⟩ => ⟨h.arrives_recorded hv k ha, hx⟩
    · exact (h.lasting m hm d hd).imp_left fun ⟨ha, hx⟩ => ⟨h.arrives_recorded hv k ha, hx⟩
  case into_settled =>
    intro m hm hq d
    rw [h.arrives_recorded_iff hg hv k hm hq, into_recorded]
    split
    · rename_i hid
      exact hid ▸ hv.mem_incoming d
    · rename_i hid
      exact h.into_settled m hm (hwaits m hq hid) d
  case outOf_settled =>
    intro m hm hq d
    rw [h.arrives_recorded_iff hg hv k hm hq, outOf_recorded]
    split
    · rename_i hid
      have heq := hg.node_unique hv.mem hm hid
      subst heq
      exact hv.mem_out d
    · rename_i hid
      exact h.outOf_settled m hm (hwaits m hq hid) d

theorem visit_ok (h : Progress g (n.id :: queue) r) (hg : g.Sound) (hn : n ∈ g.nodes)
    (hexit : g.successors exitId = []) : ∃ arriving,
      gather r.outgoing (g.predecessors n.id) = .ok arriving ∧
        Visit g n r arriving.eraseDups (transfer n arriving.eraseDups).eraseDups := by
  have hkeys : ∀ p ∈ g.predecessors n.id, p ∈ r.outgoing.keys := by
    intro p hp
    exact h.listed p (hg.source_mem_ids hexit ((hg.mem_predecessors p n.id).mp hp))
  obtain ⟨arriving, hok, hmem⟩ := gather_ok hkeys
  have harrive : ∀ d, d ∈ arriving.eraseDups ↔ Arrives g r n.id d := by
    intro d
    rw [List.mem_eraseDups, hmem]
    exact exists_congr fun p => and_congr_left fun _ => hg.mem_predecessors p n.id
  refine ⟨arriving, hok, hn, harrive, fun d => ?_, nodup_eraseDups _⟩
  rw [List.mem_eraseDups, mem_transfer, harrive]

def everywhere (g : Graph) : List Definition := g.nodes.flatMap fun n => n.defs.map (⟨n.id, ·⟩)

theorem length_everywhere (g : Graph) :
    (everywhere g).length = (g.nodes.flatMap (·.defs)).length := by
  simp [everywhere, List.length_flatMap]

theorem Progress.length_outOf_le (h : Progress g queue r) (v : NodeId) :
    (outOf r v).length ≤ (everywhere g).length := by
  refine (List.subperm_of_subset (h.nodup v) fun d hd => ?_).length_le
  have hdef : g.Defines d.site d.var := by
    rcases h.outOf_sound v d hd with ⟨hsite, hd⟩ | ⟨hd, _⟩
    · exact hsite ▸ hd
    · exact hd.1
  obtain ⟨m, hm, hid, hx⟩ := hdef
  exact List.mem_flatMap.mpr ⟨m, hm, List.mem_map.mpr ⟨d.var, hx, by rw [hid]⟩⟩

theorem sum_map_add_le {f f' : NodeId → Nat} {k : Nat} {vs : List NodeId} (hv : v ∈ vs)
    (hle : ∀ w ∈ vs, f' w ≤ f w) (hlt : f' v + k ≤ f v) :
    (vs.map f').sum + k ≤ (vs.map f).sum := by
  induction vs with
  | nil => cases hv
  | cons u vs ih =>
    simp only [List.map_cons, List.sum_cons]
    have hu := hle u (List.mem_cons_self ..)
    rcases List.mem_cons.mp hv with rfl | hv
    · have hrest : (vs.map f').sum ≤ (vs.map f).sum :=
        List.sum_le_sum fun w hw => hle w (List.mem_cons_of_mem _ hw)
      omega
    · have hrest := ih hv fun w hw => hle w (List.mem_cons_of_mem _ hw)
      omega

/-- The visits that definitions still missing can ask for. -/
def potential (g : Graph) (r : Reaching) : Nat :=
  (g.ids.map fun v => ((everywhere g).length - (outOf r v).length) * (g.successors v).length).sum

theorem potential_grow {incoming out : List Definition} (h : Progress g (n.id :: queue) r)
    (hg : g.Sound) (hv : Visit g n r incoming out) (hmore : ∃ d ∈ out, d ∉ outOf r n.id) (k : Nat) :
    potential g (recorded r n.id incoming out k) + (g.successors n.id).length
      ≤ potential g r := by
  obtain ⟨d, hd, hnew⟩ := hmore
  have hsub := h.outOf_subset hv k n.id
  rw [outOf_recorded, if_pos rfl] at hsub
  have hlt : (outOf r n.id).length + 1 ≤ out.length := by
    have hnodup : (d :: outOf r n.id).Nodup := List.nodup_cons.mpr ⟨hnew, h.nodup n.id⟩
    simpa using (List.subperm_of_subset hnodup (List.cons_subset.mpr ⟨hd, hsub⟩)).length_le
  have hmost := (h.grow hg hv k).length_outOf_le n.id
  rw [outOf_recorded, if_pos rfl] at hmost
  refine sum_map_add_le (id_mem_ids hv.mem) (fun w _ => ?_) ?_
  · refine Nat.mul_le_mul_right _ (Nat.sub_le_sub_left ?_ _)
    exact (List.subperm_of_subset (h.nodup w) (h.outOf_subset hv k w)).length_le
  · rw [outOf_recorded, if_pos rfl, ← Nat.succ_mul]
    exact Nat.mul_le_mul_right _ (by omega)

theorem solve_ok (hg : g.Sound) (hexit : g.successors exitId = []) (fuel : Nat)
    (h : Progress g queue r) (hfuel : queue.length + potential g r ≤ fuel) :
    ∃ r', solve g fuel queue r = .ok r' ∧ Progress g [] r' := by
  -- a visit that finds more pays for the successors it puts into the queue with a definition gained
  induction fuel generalizing queue r with
  | zero =>
    obtain rfl : queue = [] := List.length_eq_zero_iff.mp (by omega)
    exact ⟨r, rfl, h⟩
  | succ fuel ih =>
    cases queue with
    | nil => exact ⟨r, rfl, h⟩
    | cons v queue =>
      obtain ⟨n, hn, rfl⟩ := mem_ids_iff.mp (h.queued v (List.mem_cons_self ..))
      obtain ⟨arriving, hgather, hv⟩ := visit_ok h hg hn hexit
      obtain ⟨before, hbefore⟩ := (r.outgoing.exists_get?_iff n.id).mpr
        (h.listed n.id (id_mem_ids hn))
      have hout : outOf r n.id = before := by rw [outOf, hbefore, Option.getD_some]
      rw [List.length_cons] at hfuel
      simp only [solve, hgather, hg.get_id hn, hbefore, bind, Except.bind]
      split
      · rename_i hsame
        refine ih (h.keep hg hv (hout ▸ sameMembers_iff.mp hsame) _) ?_
        have : potential g { r with
          incoming := r.incoming.put n.id arriving.eraseDups, visits := r.visits + 1 } =
            potential g r := rfl
        omega
      · rename_i hdiff
        have hmore : ∃ d ∈ (transfer n arriving.eraseDups).eraseDups, d ∉ outOf r n.id := by
          by_contra hnone
          push Not at hnone
          refine hdiff (sameMembers_iff.mpr fun d => ⟨fun hd => hout ▸ hnone d hd, fun hd => ?_⟩)
          exact (hv.mem_out d).mpr (h.lasting n hn d (hout ▸ hd))
        refine ih (h.grow hg hv _) ?_
        have hpotential := potential_grow h hg hv hmore (r.visits + 1)
        have hlength := length_enqueue_le queue (g.successors n.id)
        rw [recorded] at hpotential
        omega

theorem sum_successors_le (hg : g.Sound) :
    (g.ids.map fun v => (g.successors v).length).sum ≤
      (g.succ.entries.flatMap (·.2)).length := by
  have hkeys : g.succ.keys.Nodup := by
    rw [hg.keys_succ]
    exact List.nodup_cons.mpr ⟨hg.exit_notMem, hg.ids_nodup⟩
  have hentries : g.succ.entries.map (·.2.length) =
      g.succ.keys.map fun v => (g.successors v).length := by
    rw [Table.keys, List.map_map]
    refine List.map_congr_left fun e he => ?_
    have hget : g.succ.get? e.1 = some e.2 := (Table.get?_eq_some_iff_mem hkeys).mpr he
    simp [successors, hget]
  rw [List.length_flatMap, hentries, hg.keys_succ, List.map_cons, List.sum_cons]
  exact Nat.le_add_left _ _

theorem potential_le (hg : g.Sound) (r : Reaching) :
    g.ids.length + potential g r ≤ fuelFor g := by
  have hpotential : potential g r ≤
      (everywhere g).length * (g.ids.map fun v => (g.successors v).length).sum := by
    rw [← List.sum_map_mul_left]
    exact List.sum_le_sum fun v _ => Nat.mul_le_mul_right _ (Nat.sub_le _ _)
  have hsum := Nat.mul_le_mul (Nat.le_succ (everywhere g).length) (sum_successors_le hg)
  rw [fuelFor, ← length_everywhere, Graph.ids, List.length_map]
  exact Nat.add_le_add_left (hpotential.trans hsum) _

theorem progress_start (g : Graph) :
    Progress g g.ids ⟨Table.ofKeys g.ids fun _ => [], Table.ofKeys g.ids fun _ => [], 0⟩ := by
  have hnone : ∀ v, ((Table.ofKeys g.ids fun _ => ([] : List Definition)).get? v).getD [] = [] := by
    intro v
    rw [Table.get?_ofKeys]
    split <;> rfl
  constructor
  case queued => exact fun v hv => hv
  case listed => simp
  case nodup => simp only [outOf, hnone, List.nodup_nil, implies_true]
  case into_sound => simp only [into, hnone, List.not_mem_nil, false_implies, implies_true]
  case outOf_sound => simp only [outOf, hnone, List.not_mem_nil, false_implies, implies_true]
  case lasting => simp only [outOf, hnone, List.not_mem_nil, false_implies, implies_true]
  case into_settled => exact fun n hn hq => absurd (id_mem_ids hn) hq
  case outOf_settled => exact fun n hn hq => absurd (id_mem_ids hn) hq

section Settled

variable (h : Progress g [] r) (hg : g.Sound) (hexit : g.successors exitId = [])

include h hg hexit

theorem Progress.into_of_step {x : Variable} {site : NodeId} (hs : g.Step v w) (hw : w ∈ g.ids)
    (hd : (site = v ∧ g.Defines v x) ∨ (⟨site, x⟩ ∈ into r v ∧ ¬ g.Defines v x)) :
    ⟨site, x⟩ ∈ into r w := by
  obtain ⟨m, hm, rfl⟩ := mem_ids_iff.mp hw
  obtain ⟨n, hn, rfl⟩ := mem_ids_iff.mp (hg.source_mem_ids hexit hs)
  refine (h.into_settled m hm (by simp) _).mpr ⟨n.id, hs, ?_⟩
  refine (h.outOf_settled n hn (by simp) _).mpr ?_
  rw [hg.defines_id hn, h.into_settled n hn (by simp)] at hd
  exact hd.symm

theorem Progress.into_of_walk {x : Variable} {site : NodeId} {l : List NodeId} (hv : v ∈ g.ids)
    (hl : Walk g.Step w v l) (hnot : ∀ m ∈ l, ¬ g.Defines m x) (hd : ⟨site, x⟩ ∈ into r w) :
    ⟨site, x⟩ ∈ into r v := by
  induction hl with
  | nil => exact hd
  | @cons a b c l hab hl ih =>
    have hb : b ∈ g.ids := hg.start_mem_ids hexit hl hv
    refine ih hv (fun m hm => hnot m (List.mem_cons_of_mem _ hm)) ?_
    exact h.into_of_step hg hexit hab hb (.inr ⟨hd, hnot a (List.mem_cons_self ..)⟩)

theorem Progress.mem_into_iff (hv : v ∈ g.ids) : d ∈ into r v ↔ g.Reaches d.var d.site v := by
  refine ⟨h.into_sound v d, ?_⟩
  rintro ⟨hd, w, l, hs, hl, hnot⟩
  have hw : w ∈ g.ids := hg.start_mem_ids hexit hl hv
  exact h.into_of_walk hg hexit hv hl hnot (h.into_of_step hg hexit hs hw (.inl ⟨rfl, hd⟩))

theorem Progress.mem_outOf_iff (hv : v ∈ g.ids) : d ∈ outOf r v ↔ g.Leaves d.var d.site v := by
  obtain ⟨n, hn, rfl⟩ := mem_ids_iff.mp hv
  rw [h.outOf_settled n hn (by simp), ← h.into_settled n hn (by simp),
    h.mem_into_iff hg hexit hv, Leaves, hg.defines_id hn]
  exact or_comm

end Settled

theorem mem_definitionsOf {x : Variable} {site : NodeId} :
    site ∈ r.definitionsOf x v ↔ ⟨site, x⟩ ∈ into r v := by
  simp only [definitionsOf, List.mem_map, List.mem_filter, decide_eq_true_eq]
  constructor
  · rintro ⟨d, ⟨hd, rfl⟩, rfl⟩
    exact hd
  · exact fun h => ⟨⟨site, x⟩, ⟨h, rfl⟩, rfl⟩

theorem ofGraph_ok (hg : g.Sound) (hexit : g.successors exitId = []) :
    ∃ r, ofGraph g = .ok r ∧ Progress g [] r :=
  solve_ok hg hexit _ (progress_start g) (potential_le hg _)

theorem mem_usesOf (hg : g.Sound) (hexit : g.successors exitId = []) (h : Progress g [] r)
    {site : NodeId} : v ∈ r.usesOf g site ↔ ∃ x, g.Uses v x ∧ g.Reaches x site v := by
  simp only [usesOf, List.mem_map, List.mem_filter, List.any_eq_true, decide_eq_true_eq,
    mem_definitionsOf]
  constructor
  · rintro ⟨n, ⟨hn, x, hx, hd⟩, rfl⟩
    exact ⟨x, ⟨n, hn, rfl, hx⟩, h.into_sound _ _ hd⟩
  · rintro ⟨x, ⟨n, hn, rfl, hx⟩, hd⟩
    exact ⟨n, ⟨hn, x, hx, (h.mem_into_iff hg hexit (id_mem_ids hn)).mpr hd⟩, rfl⟩

end Reaching

end Backslice

import Backslice.Proofs.Flow.Components
import Backslice.Proofs.Flow.Reaching

namespace Backslice.Reaching

open Backslice.Graph

variable {g : Graph} {r r' : Reaching} {v : NodeId} {queue : List NodeId}

theorem gather_exit {outgoing : Table NodeId (List Definition)} {ps : List NodeId}
    (hps : ∀ p ∈ ps, p = exitId ∨ p ∈ outgoing.keys) (hexit : exitId ∉ outgoing.keys)
    (hmem : exitId ∈ ps) : gather outgoing ps = .error (.missing exitId) := by
  induction ps with
  | nil => cases hmem
  | cons p ps ih =>
    rw [List.forall_mem_cons] at hps
    rw [gather]
    rcases hps.1 with rfl | hp
    · rw [← outgoing.get?_isSome, Option.not_isSome_iff_eq_none] at hexit
      rw [hexit]
    · obtain ⟨ds, hds⟩ := (outgoing.exists_get?_iff p).mpr hp
      have hne : exitId ≠ p := fun hne => hexit (hne ▸ hp)
      rw [hds]
      simp only [ih hps.2 ((List.mem_cons.mp hmem).resolve_left hne)]
      rfl

theorem exists_enqueue_eq (queue vs : List NodeId) :
    ∃ more, enqueue queue vs = queue ++ more := by
  induction vs generalizing queue with
  | nil => exact ⟨[], by simp [enqueue]⟩
  | cons v vs ih =>
    rw [enqueue]
    split
    · exact ih queue
    · obtain ⟨more, hmore⟩ := ih (queue ++ [v])
      exact ⟨v :: more, by simp [hmore]⟩

theorem mem_keys_put_outgoing {outgoing : Table NodeId (List Definition)} {u : NodeId}
    {ds : List Definition} (hkeys : ∀ v, v ∈ outgoing.keys ↔ v ∈ g.ids) (hu : u ∈ g.ids) :
    v ∈ (outgoing.put u ds).keys ↔ v ∈ g.ids := by
  rw [Table.mem_keys_put, hkeys]
  constructor
  · rintro (hv | rfl)
    · exact hv
    · exact hu
  · exact .inl

theorem solve_exit (hg : g.Sound) {w : NodeId} (hw : g.Step exitId w) (earlier rest : List NodeId)
    (fuel : Nat) (hearlier : ∀ v ∈ earlier, v ∈ g.ids)
    (hkeys : ∀ v, v ∈ r.outgoing.keys ↔ v ∈ g.ids) (hfuel : earlier.length < fuel) :
    solve g fuel (earlier ++ w :: rest) r = .error (.missing exitId) := by
  have hps : ∀ {r : Reaching}, (∀ v, v ∈ r.outgoing.keys ↔ v ∈ g.ids) → ∀ v,
      ∀ p ∈ g.predecessors v, p = exitId ∨ p ∈ r.outgoing.keys := by
    intro r hkeys v p hp
    rw [hkeys, ← List.mem_cons]
    exact hg.source_known ((hg.mem_predecessors p v).mp hp)
  have hexit : ∀ {r : Reaching}, (∀ v, v ∈ r.outgoing.keys ↔ v ∈ g.ids) →
      exitId ∉ r.outgoing.keys := fun hkeys hmem => hg.exit_notMem ((hkeys _).mp hmem)
  -- turn by turn up to `w`; visits record nodes only, so the exit never gets a record
  induction earlier generalizing fuel rest r with
  | nil =>
    obtain ⟨fuel, rfl⟩ := Nat.exists_eq_add_one.mpr hfuel
    rw [List.nil_append, solve,
      gather_exit (hps hkeys w) (hexit hkeys) ((hg.mem_predecessors _ _).mpr hw)]
    rfl
  | cons v earlier ih =>
    rw [List.forall_mem_cons] at hearlier
    rw [List.length_cons] at hfuel
    obtain ⟨fuel, rfl⟩ := Nat.exists_eq_add_one.mpr (Nat.zero_lt_of_lt hfuel)
    obtain ⟨n, hn, rfl⟩ := mem_ids_iff.mp hearlier.1
    rw [List.cons_append, solve]
    by_cases hv : exitId ∈ g.predecessors n.id
    · rw [gather_exit (hps hkeys n.id) (hexit hkeys) hv]
      rfl
    · have hlisted : ∀ p ∈ g.predecessors n.id, p ∈ r.outgoing.keys := fun p hp =>
        (hps hkeys n.id p hp).resolve_left fun hp' => hv (hp' ▸ hp)
      obtain ⟨arriving, hgather, _⟩ := gather_ok hlisted
      obtain ⟨before, hbefore⟩ := (r.outgoing.exists_get?_iff n.id).mpr
        ((hkeys _).mpr hearlier.1)
      simp only [hgather, hg.get_id hn, hbefore, bind, Except.bind]
      split
      · exact ih _ _ hearlier.2 hkeys (by omega)
      · obtain ⟨more, hmore⟩ := exists_enqueue_eq (earlier ++ w :: rest) (g.successors n.id)
        rw [hmore, List.append_assoc, List.cons_append]
        exact ih _ _ hearlier.2 (fun u => mem_keys_put_outgoing hkeys hearlier.1) (by omega)

theorem ofGraph_exit (hg : g.Sound) (hv : v ∈ g.ids) (hs : g.Step exitId v) :
    ofGraph g = .error (.missing exitId) := by
  obtain ⟨earlier, rest, heq⟩ := List.append_of_mem hv
  have hlength : earlier.length < g.nodes.length := by
    rw [← List.length_map (f := fun n : Node => n.id), ← Graph.ids, heq]
    simp
  have hsolve := solve_exit
    (r := ⟨Table.ofKeys g.ids fun _ => [], Table.ofKeys g.ids fun _ => [], 0⟩)
    hg hs earlier rest (fuelFor g) (fun u hu => heq ▸ List.mem_append_left _ hu)
    (fun u => Table.mem_keys_ofKeys ..) (Nat.lt_of_lt_of_le hlength (Nat.le_add_right _ _))
  rwa [← heq] at hsolve

theorem mem_keys_incoming {fuel : Nat} (h : solve g fuel queue r = .ok r')
    (hv : v ∈ r.incoming.keys) : v ∈ r'.incoming.keys := by
  induction fuel generalizing queue r with
  | zero =>
    cases queue with
    | nil =>
      cases h
      exact hv
    | cons => cases h
  | succ fuel ih =>
    cases queue with
    | nil =>
      cases h
      exact hv
    | cons u queue =>
      rw [solve] at h
      obtain ⟨arriving, _, h⟩ := exists_of_bind_eq_ok h
      obtain ⟨n, _, h⟩ := exists_of_bind_eq_ok h
      have hmem : ∀ ds, v ∈ (r.incoming.put u ds).keys := fun ds => by simp [hv]
      dsimp only at h
      split at h
      · obtain ⟨before, _, h⟩ := exists_of_bind_eq_ok h
        split at h
        · exact ih h (hmem _)
        · exact ih h (hmem _)
      · cases h

structure Recorded (g : Graph) (r : Reaching) : Prop where
  incoming : ∀ v ∈ g.ids, ∃ ds, r.incoming.get? v = some ds ∧
    ∀ x site, ⟨site, x⟩ ∈ ds ↔ g.Defines site x ∧ g.Carries x site v
  outgoing : ∀ v ∈ g.ids, ∃ ds, r.outgoing.get? v = some ds ∧
    ∀ x site, ⟨site, x⟩ ∈ ds ↔
      (site = v ∧ g.Defines v x) ∨ (⟨site, x⟩ ∈ into r v ∧ ¬ g.Defines v x)
  usesOf : ∀ site v, v ∈ r.usesOf g site ↔ ∃ x, g.Uses v x ∧ ⟨site, x⟩ ∈ into r v

theorem Progress.recorded (h : Progress g [] r) (hg : g.Sound) (hexit : g.successors exitId = [])
    (hkeys : ∀ v ∈ g.ids, v ∈ r.incoming.keys) : Recorded g r where
  incoming v hv := by
    obtain ⟨ds, hds⟩ := (r.incoming.exists_get?_iff v).mpr (hkeys v hv)
    refine ⟨ds, hds, fun x site => ?_⟩
    have hinto : into r v = ds := by rw [into, hds, Option.getD_some]
    rw [← hinto]
    exact h.mem_into_iff hg hexit hv
  outgoing v hv := by
    obtain ⟨ds, hds⟩ := (r.outgoing.exists_get?_iff v).mpr (h.listed v hv)
    refine ⟨ds, hds, fun x site => ?_⟩
    have hout : outOf r v = ds := by rw [outOf, hds, Option.getD_some]
    rw [← hout, h.mem_outOf_iff hg hexit hv, h.mem_into_iff hg hexit hv]
    rfl
  usesOf site v := by
    rw [mem_usesOf hg hexit h]
    refine exists_congr fun x => and_congr_right fun hx => ?_
    obtain ⟨n, hn, rfl, _⟩ := hx
    exact (h.mem_into_iff (d := ⟨site, x⟩) hg hexit (id_mem_ids hn)).symm

/-- The analysis of definitions is exact where no edge leaves the exit, and fails where one leads
from the exit to a node. -/
theorem ofGraph_recorded (h : g.Built) :
    (g.successors exitId = [] → ∃ r, ofGraph g = .ok r ∧ Recorded g r) ∧
      ∀ v ∈ g.ids, g.Step exitId v → ofGraph g = .error (.missing exitId) := by
  refine ⟨fun hexit => ?_, fun v hv hs => ofGraph_exit h.sound hv hs⟩
  obtain ⟨r, hok, hprogress⟩ := ofGraph_ok h.sound hexit
  refine ⟨r, hok, hprogress.recorded h.sound hexit fun v hv => ?_⟩
  exact mem_keys_incoming hok (by rwa [Table.mem_keys_ofKeys])

def counter : Variable := { name := "i", sourceName := "i" }

def stepping : Graph :=
  let g : Graph := {}
  let g := g.addNode { id := 0, kind := .expression, line := some 1, defs := [counter] }
  let g := g.addNode { id := 1, kind := .whileTest, line := some 2, uses := [counter] }
  let g := g.addNode
    { id := 2, kind := .expression, line := some 3, defs := [counter], uses := [counter] }
  let g := (g.addEdge 0 1 "").1
  let g := (g.addEdge 1 2 "Y").1
  let g := (g.addEdge 2 1 "").1
  (g.addEdge 1 exitId "N").1

theorem built_stepping : stepping.Built := by
  unfold stepping
  repeat' first | exact .empty | apply Built.join | apply Built.addNode | decide

open ExitEdges (spinning built_spinning)

theorem ofGraph_recorded_stepping : (∃ r, ofGraph stepping = .ok r ∧ Recorded stepping r ∧
      into r 1 = [⟨0, counter⟩, ⟨2, counter⟩] ∧ r.usesOf stepping 2 = [1, 2]) ∧
    ofGraph spinning = .error (.missing exitId) := by
  have hrun : ((ofGraph stepping).toOption.any fun r => decide (
      into r 1 = [⟨0, counter⟩, ⟨2, counter⟩] ∧ r.usesOf stepping 2 = [1, 2])) = true := by
    decide +kernel
  obtain ⟨r, hr, hrun⟩ := exists_of_any hrun
  obtain ⟨r', hr', hrecorded⟩ := (ofGraph_recorded built_stepping).1 (by decide)
  cases hr.symm.trans hr'
  exact ⟨⟨r, hr, hrecorded, of_decide_eq_true hrun⟩,
    (ofGraph_recorded built_spinning).2 5 (by decide) (by unfold Step; decide)⟩

end Backslice.Reaching

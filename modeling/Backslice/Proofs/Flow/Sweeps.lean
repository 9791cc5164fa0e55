import Backslice.Proofs.Flow.Ancestors
import Backslice.Proofs.Flow.DepthFirst
import Backslice.Proofs.Walk
import Mathlib.Algebra.Order.BigOperators.Group.List
import Mathlib.Algebra.Order.Group.Nat
import Mathlib.Algebra.Ring.Nat

/-!
The sweeps that find the immediate post-dominators come to rest, and then the ancestors of an id
are exactly what no way from it to the exit can avoid. Each sweep moves ids to ancestors of their
parents only. That holds because the ids are taken in an order in which each one comes behind one
of its targets: below that target an id stays until it is moved itself.
-/

namespace Backslice.PostDominance

open DepthFirst (Linked neighbours)

/-- An order of ids that starts with the exit and in which each other id comes behind one of its
targets. -/
structure Schedule (succ : Adjacency) (order : List NodeId) : Prop where
  nodup : order.Nodup
  exit_mem : exitId ∈ order
  exit_first : order.idxOf exitId = 0
  get?_succ : ∀ v ∈ order, succ.get? v = some (neighbours succ v)
  closed : ∀ v ∈ order, ∀ w ∈ neighbours succ v, w ∈ order
  earlier : ∀ v ∈ order, v ≠ exitId → ∃ w ∈ neighbours succ v, order.idxOf w < order.idxOf v

/-- What holds in the middle of a sweep, when the ids in `done` have had their turn. -/
structure Midway (succ : Adjacency) (order done : List NodeId) (t : Table NodeId NodeId) : Prop
    extends Climbs order t where
  lower : ∀ v ∈ t.keys, ∀ w ∈ order, order.idxOf w ≤ order.idxOf v → w ∈ t.keys
  done_mem : ∀ v ∈ done, v ∈ t.keys
  /-- No post-dominator of an id is passed over by its parent. -/
  passes : ∀ v p, v ≠ exitId → t.get? v = some p → ∀ a, Unavoidable (Linked succ) exitId a v →
    a = v ∨ Unavoidable (Linked succ) exitId a p
  /-- What the known targets of an id share is above its parent: it can only move up. -/
  shared : ∀ v p, v ≠ exitId → t.get? v = some p → ∀ a,
    (∀ w ∈ neighbours succ v, w ∈ t.keys → Above t w a) → Above t p a
  /-- What is above the parent is above the earlier targets, as far as it has not been moved since
  the id had its turn. -/
  trails : ∀ v p, v ≠ exitId → t.get? v = some p → ∀ w ∈ neighbours succ v,
    order.idxOf w < order.idxOf v → ∀ a, Above t p a → (v ∈ done ∨ a ∉ done) → Above t w a

variable {succ : Adjacency} {order done rest : List NodeId} {t t' : Table NodeId NodeId}
  {u v w a new : NodeId}

theorem Schedule.mem_done (hs : Schedule succ order) (horder : order = done ++ u :: rest) :
    v ∈ done ↔ order.idxOf v < order.idxOf u := by
  have hnodup := hs.nodup
  rw [horder] at hnodup ⊢
  have hu : u ∉ done := fun hu =>
    List.disjoint_of_nodup_append hnodup hu (List.mem_cons_self ..)
  rw [List.idxOf_append_of_notMem hu, List.idxOf_cons_self, Nat.add_zero]
  constructor
  · intro hv
    rw [List.idxOf_append_of_mem hv]
    exact List.idxOf_lt_length_of_mem hv
  · intro hlt
    by_contra hv
    rw [List.idxOf_append_of_notMem hv] at hlt
    omega

namespace Midway

theorem unavoidable_or_between (h : Midway succ order done t) {x : NodeId} (hx : Above t w x)
    (ha : Unavoidable (Linked succ) exitId a w) :
    Unavoidable (Linked succ) exitId a x ∨ (Above t w a ∧ Above t a x) := by
  induction hx with
  | refl => exact .inl ha
  | up hne hp hx ih =>
    rcases h.passes _ _ hne hp a ha with rfl | ha
    · exact .inr ⟨.refl a, .up hne hp hx⟩
    · exact (ih ha).imp_right fun ⟨hpa, hax⟩ => ⟨.up hne hp hpa, hax⟩

structure Turn (succ : Adjacency) (order done rest : List NodeId) (t t' : Table NodeId NodeId)
    (u new : NodeId) : Prop where
  schedule : Schedule succ order
  order_eq : order = done ++ u :: rest
  ne_exit : u ≠ exitId
  new_mem : new ∈ t.keys
  meets : ∀ d, Above t new d ↔ ∀ w ∈ neighbours succ u, w ∈ t.keys → Above t w d
  get? : ∀ v, t'.get? v = if u = v then some new else t.get? v

namespace Turn

theorem mem (hu : Turn succ order done rest t t' u new) : u ∈ order := by
  rw [hu.order_eq]
  simp

theorem notMem_done (hu : Turn succ order done rest t t' u new) : u ∉ done := by
  rw [hu.schedule.mem_done hu.order_eq]
  exact Nat.lt_irrefl _

theorem mem_keys (hu : Turn succ order done rest t t' u new) :
    v ∈ t'.keys ↔ v ∈ t.keys ∨ v = u := by
  rw [← Table.get?_isSome, ← Table.get?_isSome, hu.get?]
  split
  · rename_i h
    simp [h]
  · rename_i h
    simp [Ne.symm h]

theorem get?_of_ne (hu : Turn succ order done rest t t' u new) (hv : v ≠ u) :
    t'.get? v = t.get? v := by
  rw [hu.get?, if_neg (Ne.symm hv)]

theorem new_eq (hu : Turn succ order done rest t t' u new) {p : NodeId}
    (hp : t'.get? u = some p) : p = new := by
  rw [hu.get?, if_pos rfl] at hp
  exact (Option.some.inj hp).symm

theorem known_of_earlier (hu : Turn succ order done rest t t' u new)
    (h : Midway succ order done t) (hlt : order.idxOf w < order.idxOf u) : w ∈ t.keys :=
  h.done_mem w ((hu.schedule.mem_done hu.order_eq).mpr hlt)

theorem new_lt (hu : Turn succ order done rest t t' u new) (h : Midway succ order done t) :
    order.idxOf new < order.idxOf u := by
  obtain ⟨w, hw, hlt⟩ := hu.schedule.earlier u hu.mem hu.ne_exit
  have hk := hu.known_of_earlier h hlt
  exact Nat.lt_of_le_of_lt (h.idxOf_le ((hu.meets new).mp (.refl new) w hw hk)) hlt

theorem not_above (hu : Turn succ order done rest t t' u new) (h : Midway succ order done t)
    (hlt : order.idxOf w < order.idxOf u) : Above t' w a ↔ Above t w a :=
  (above_update h.toClimbs hu.get? hu.ne_exit (hu.new_lt h)).1 fun hw =>
    Nat.not_lt_of_le (h.idxOf_le hw) hlt

theorem above_new (hu : Turn succ order done rest t t' u new) (h : Midway succ order done t)
    {old : NodeId} (hold : t.get? u = some old) : Above t old new :=
  h.shared u old hu.ne_exit hold new ((hu.meets new).mp (.refl new))

theorem above_of_above (hu : Turn succ order done rest t t' u new)
    (h : Midway succ order done t) (hw : w ∈ t.keys) (ha : Above t' w a) : Above t w a := by
  have hupd := above_update (w := w) (a := a) h.toClimbs hu.get? hu.ne_exit (hu.new_lt h)
  by_cases hwu : Above t w u
  · rcases (hupd.2 hwu).mp ha with ⟨hwa, _⟩ | hna
    · exact hwa
    · obtain ⟨old, hold⟩ := (t.exists_get?_iff u).mpr (h.above_mem hw hwu)
      exact hwu.trans (.up hu.ne_exit hold ((hu.above_new h hold).trans hna))
  · exact (hupd.1 hwu).mp ha

theorem climbs (hu : Turn succ order done rest t t' u new) (h : Midway succ order done t) :
    Climbs order t' where
  root := by rw [hu.get?_of_ne (Ne.symm hu.ne_exit), h.root]
  listed v hv := by
    rcases hu.mem_keys.mp hv with hv | rfl
    · exact h.listed v hv
    · exact hu.mem
  parent_mem v p hne hp := by
    refine hu.mem_keys.mpr (.inl ?_)
    by_cases hv : v = u
    · subst hv
      exact hu.new_eq hp ▸ hu.new_mem
    · exact h.parent_mem v p hne (hu.get?_of_ne hv ▸ hp)
  parent_lt v p hne hp := by
    by_cases hv : v = u
    · subst hv
      exact hu.new_eq hp ▸ hu.new_lt h
    · exact h.parent_lt v p hne (hu.get?_of_ne hv ▸ hp)

theorem passes (hu : Turn succ order done rest t t' u new) (h : Midway succ order done t)
    (ha : Unavoidable (Linked succ) exitId a u) (hne : a ≠ u) :
    Unavoidable (Linked succ) exitId a new := by
  by_contra hnew
  have hbetween : ∀ w ∈ neighbours succ u, w ∈ t.keys → Above t w a ∧ Above t a new := by
    intro w hw hk
    have hwnew := (hu.meets new).mp (.refl new) w hw hk
    exact (h.unavoidable_or_between hwnew (ha.step hw hne)).resolve_left hnew
  obtain ⟨w, hw, hlt⟩ := hu.schedule.earlier u hu.mem hu.ne_exit
  have hk := hu.known_of_earlier h hlt
  have hnewa : Above t new a := (hu.meets a).mpr fun w hw hk => (hbetween w hw hk).1
  have heq := h.antisymm hnewa (hbetween w hw hk).2
  exact hnew (heq ▸ Unavoidable.refl _ _ a)

theorem shared (hu : Turn succ order done rest t t' u new) (h : Midway succ order done t)
    {v p : NodeId} (hne : v ≠ exitId) (hp : t.get? v = some p)
    (hall : ∀ w ∈ neighbours succ v, w ∈ t'.keys → Above t' w a) : Above t' p a := by
  have hupd := fun w => above_update (w := w) (a := a) h.toClimbs hu.get? hu.ne_exit (hu.new_lt h)
  have hvk := Table.mem_keys_of_get? hp
  have hpa : Above t p a := h.shared v p hne hp a fun w hw hk =>
    hu.above_of_above h hk (hall w hw (hu.mem_keys.mpr (.inl hk)))
  by_cases hpu : Above t p u
  · rw [(hupd p).2 hpu]
    rcases hpa.total hpu with hau | hua
    · exact .inl ⟨hpa, hau⟩
    · -- the earlier target of `v` is still below `u`, so what it has above it is known
      obtain ⟨w, hw, hlt⟩ := hu.schedule.earlier v (h.listed v hvk) hne
      have hwk := h.lower v hvk w (hu.schedule.closed v (h.listed v hvk) w hw) (Nat.le_of_lt hlt)
      have hwu := h.trails v p hne hp w hw hlt u hpu (.inr hu.notMem_done)
      rcases ((hupd w).2 hwu).mp (hall w hw (hu.mem_keys.mpr (.inl hwk))) with ⟨_, hau⟩ | hna
      · exact .inl ⟨hpa, hau⟩
      · exact .inr hna
  · exact ((hupd p).1 hpu).mpr hpa

theorem trails (hu : Turn succ order done rest t t' u new) (h : Midway succ order done t)
    {v p : NodeId} (hne : v ≠ exitId) (hvu : v ≠ u) (hp : t.get? v = some p)
    (hw : w ∈ neighbours succ v) (hlt : order.idxOf w < order.idxOf v) (hpa : Above t' p a)
    (hdone : v ∈ done ++ [u] ∨ a ∉ done ++ [u]) : Above t' w a := by
  have hupd := fun w => above_update (w := w) (a := a) h.toClimbs hu.get? hu.ne_exit (hu.new_lt h)
  have hvk := Table.mem_keys_of_get? hp
  have hpk := h.parent_mem v p hne hp
  by_cases hv : v ∈ done
  · have hvlt := (hu.schedule.mem_done hu.order_eq).mp hv
    have hplt := h.parent_lt v p hne hp
    rw [hu.not_above h (by omega)] at hpa ⊢
    exact h.trails v p hne hp w hw hlt a hpa (.inl hv)
  · have hnot : a ∉ done ∧ a ≠ u := by
      have hv' : v ∉ done ++ [u] := by simp [hv, hvu]
      simpa using hdone.resolve_left hv'
    have hpa' : Above t p a := hu.above_of_above h hpk hpa
    have hwa := h.trails v p hne hp w hw hlt a hpa' (.inr hnot.1)
    by_cases hwu : Above t w u
    · refine ((hupd w).2 hwu).mpr (.inl ⟨hwa, ?_⟩)
      refine (hwa.total hwu).resolve_right fun hua => hnot.1 ?_
      exact (hu.schedule.mem_done hu.order_eq).mpr (h.idxOf_lt hua hnot.2)
    · exact ((hupd w).1 hwu).mpr hwa

end Turn

theorem next (h : Midway succ order done t) (hu : Turn succ order done rest t t' u new) :
    Midway succ order (done ++ [u]) t' where
  toClimbs := hu.climbs h
  lower v hv w hw hle := by
    refine hu.mem_keys.mpr ?_
    rcases hu.mem_keys.mp hv with hv | rfl
    · exact .inl (h.lower v hv w hw hle)
    · rcases Nat.lt_or_eq_of_le hle with hlt | heq
      · exact .inl (hu.known_of_earlier h hlt)
      · exact .inr ((List.idxOf_inj hw).mp heq)
  done_mem v hv := by
    refine hu.mem_keys.mpr ?_
    rcases List.mem_append.mp hv with hv | hv
    · exact .inl (h.done_mem v hv)
    · exact .inr (List.mem_singleton.mp hv)
  passes v p hne hp a ha := by
    by_cases hv : v = u
    · subst hv
      rw [or_iff_not_imp_left, hu.new_eq hp]
      exact hu.passes h ha
    · exact h.passes v p hne (hu.get?_of_ne hv ▸ hp) a ha
  shared v p hne hp a hall := by
    by_cases hv : v = u
    · subst hv
      rw [hu.new_eq hp, hu.not_above h (hu.new_lt h), hu.meets]
      exact fun w hw hk => hu.above_of_above h hk (hall w hw (hu.mem_keys.mpr (.inl hk)))
    · exact hu.shared h hne (hu.get?_of_ne hv ▸ hp) hall
  trails v p hne hp w hw hlt a hpa hdone := by
    by_cases hv : v = u
    · subst hv
      rw [hu.new_eq hp, hu.not_above h (hu.new_lt h), hu.meets] at hpa
      rw [hu.not_above h hlt]
      exact hpa w hw (hu.known_of_earlier h hlt)
    · exact hu.trails h hne hv (hu.get?_of_ne hv ▸ hp) hw hlt hpa hdone

theorem pass_exit (h : Midway succ order done t) : Midway succ order (done ++ [exitId]) t := by
  refine { h with done_mem := ?_, trails := ?_ }
  · intro v hv
    rcases List.mem_append.mp hv with hv | hv
    · exact h.done_mem v hv
    · rw [List.mem_singleton.mp hv]
      exact Table.mem_keys_of_get? h.root
  · intro v p hne hp w hw hlt a hpa hdone
    refine h.trails v p hne hp w hw hlt a hpa ?_
    rcases hdone with hv | ha
    · rcases List.mem_append.mp hv with hv | hv
      · exact .inl hv
      · exact absurd (List.mem_singleton.mp hv) hne
    · exact .inr fun hd => ha (List.mem_append_left _ hd)

end Midway

def weight (order : List NodeId) (t : Table NodeId NodeId) : Nat :=
  (order.map fun v => ((t.get? v).map order.idxOf).getD order.length).sum

theorem weight_le (order : List NodeId) (t : Table NodeId NodeId) :
    weight order t ≤ order.length * order.length := by
  have hle := List.sum_le_card_nsmul
    (order.map fun v => ((t.get? v).map order.idxOf).getD order.length) order.length ?_
  · rwa [List.length_map, Nat.nsmul_eq_mul] at hle
  · intro n hn
    obtain ⟨v, _, rfl⟩ := List.mem_map.mp hn
    cases t.get? v with
    | none => exact Nat.le_refl _
    | some p => exact List.idxOf_le_length

theorem Midway.Turn.weight_lt (hu : Midway.Turn succ order done rest t t' u new)
    (h : Midway succ order done t) (hne : t.get? u ≠ some new) :
    weight order t' < weight order t := by
  have hmoved : order.idxOf new < ((t.get? u).map order.idxOf).getD order.length := by
    cases hold : t.get? u with
    | none => exact List.idxOf_lt_length_of_mem (h.listed new hu.new_mem)
    | some old =>
      refine h.idxOf_lt (hu.above_new h hold) ?_
      rintro rfl
      exact hne hold
  refine List.sum_lt_sum _ _ (fun v _ => ?_) ⟨u, hu.mem, ?_⟩
  · by_cases hv : v = u
    · subst hv
      rw [hu.get?, if_pos rfl]
      exact Nat.le_of_lt hmoved
    · rw [hu.get?_of_ne hv]
  · rw [hu.get?, if_pos rfl]
    exact hmoved

def Settled (succ : Adjacency) (t : Table NodeId NodeId) (v : NodeId) : Prop :=
  ∃ p, t.get? v = some p ∧
    ∀ a, Above t p a ↔ ∀ w ∈ neighbours succ v, w ∈ t.keys → Above t w a

/-- A sweep over the rest of the order. If it changes nothing, every id is settled; if it changes
something, the ids have come closer to the root. -/
theorem sweep_ok (hs : Schedule succ order) (vs : List NodeId) (horder : order = done ++ vs)
    (h : Midway succ order done t) (changed : Bool) :
    ∃ t' changed', sweep succ (indexOf order) vs t changed = .ok (t', changed') ∧
      Midway succ order order t' ∧ weight order t' ≤ weight order t ∧
      (changed' = true → changed = true ∨ weight order t' < weight order t) ∧
      (changed' = false → changed = false ∧ t' = t ∧
        ∀ v ∈ vs, v ≠ exitId → Settled succ t v) := by
  induction vs generalizing done t changed with
  | nil =>
    rw [List.append_nil] at horder
    subst horder
    exact ⟨t, changed, rfl, h, Nat.le_refl _, .inl, fun hc => ⟨hc, rfl, by simp⟩⟩
  | cons u vs ih =>
    have horder' : order = (done ++ [u]) ++ vs := by rw [horder]; simp
    by_cases hu : u = exitId
    · obtain ⟨t', c, hok, hm, hle, htrue, hfalse⟩ := ih horder' (hu ▸ h.pass_exit) changed
      refine ⟨t', c, ?_, hm, hle, htrue, fun hc => ?_⟩
      · rw [sweep, if_pos hu]
        exact hok
      · obtain ⟨hch, ht, hall⟩ := hfalse hc
        exact ⟨hch, ht, List.forall_mem_cons.mpr ⟨fun hne => absurd hu hne, hall⟩⟩
    · have humem : u ∈ order := by rw [horder]; simp
      obtain ⟨w, hw, hlt⟩ := hs.earlier u humem hu
      have hwk := h.done_mem w ((hs.mem_done horder).mpr hlt)
      obtain ⟨new, hnew, hok, hmeet⟩ :=
        improved_ok h.toClimbs hs.exit_first (hs.get?_succ u humem) ⟨w, hw, hwk⟩
      by_cases hsame : t.get? u = some new
      · have hturn : Midway.Turn succ order done vs t t u new := by
          refine ⟨hs, horder, hu, hnew, hmeet, fun v => ?_⟩
          split
          · rename_i hv
            rw [← hv, hsame]
          · rfl
        obtain ⟨t', c, hok', hm, hle, htrue, hfalse⟩ := ih horder' (h.next hturn) changed
        refine ⟨t', c, ?_, hm, hle, htrue, fun hc => ?_⟩
        · rw [sweep, if_neg hu, hok]
          simp only [bind, Except.bind, hsame, if_true]
          exact hok'
        · obtain ⟨hch, ht, hall⟩ := hfalse hc
          exact ⟨hch, ht, List.forall_mem_cons.mpr ⟨fun _ => ⟨new, hsame, hmeet⟩, hall⟩⟩
      · have hturn : Midway.Turn succ order done vs t (t.put u new) u new :=
          ⟨hs, horder, hu, hnew, hmeet, fun v => Table.get?_put t v u new⟩
        have hwlt := hturn.weight_lt h hsame
        obtain ⟨t', c, hok', hm, hle, htrue, hfalse⟩ := ih horder' (h.next hturn) true
        refine ⟨t', c, ?_, hm, by omega, fun _ => .inr (by omega), fun hc => ?_⟩
        · rw [sweep, if_neg hu, hok]
          simp only [bind, Except.bind, hsame, if_false]
          exact hok'
        · exact absurd (hfalse hc).1 (by simp)

theorem Midway.restart (h : Midway succ order order t) : Midway succ order [] t :=
  { h with
    done_mem := by simp
    trails := fun v p hne hp w hw hlt a hpa _ =>
      h.trails v p hne hp w hw hlt a hpa (.inl (h.listed v (Table.mem_keys_of_get? hp))) }

theorem sweeps_ok (hs : Schedule succ order) (fuel : Nat) (h : Midway succ order [] t)
    (hfuel : weight order t < fuel) :
    ∃ t', sweeps succ (indexOf order) order fuel t = .ok t' ∧ Midway succ order order t' ∧
      ∀ v ∈ order, v ≠ exitId → Settled succ t' v := by
  induction fuel generalizing t with
  | zero => omega
  | succ fuel ih =>
    obtain ⟨t', c, hok, hm, hle, htrue, hfalse⟩ :=
      sweep_ok hs order (List.nil_append _).symm h false
    rw [sweeps, hok]
    cases c with
    | true =>
      have hlt := (htrue rfl).resolve_left (by simp)
      obtain ⟨t'', hok', hm', hall⟩ := ih hm.restart (by omega)
      exact ⟨t'', hok', hm', hall⟩
    | false =>
      obtain ⟨_, rfl, hall⟩ := hfalse rfl
      exact ⟨t', rfl, hm, hall⟩

/-- At rest the ancestors of an id are what no way from it to the exit avoids. -/
theorem Midway.above_iff_unavoidable (h : Midway succ order order t) (hs : Schedule succ order)
    (hall : ∀ v ∈ order, v ≠ exitId → Settled succ t v) (hv : v ∈ order) :
    Above t v a ↔ Unavoidable (Linked succ) exitId a v := by
  constructor
  · intro ha l hl
    induction l generalizing v with
    | nil =>
      cases hl
      exact .inr (above_exit_iff.mp ha)
    | cons u l ih =>
      cases hl with
      | @cons _ w _ _ hvw hl =>
        by_cases hne : u = exitId
        · subst hne
          exact .inr (above_exit_iff.mp ha)
        · obtain ⟨p, hp, hmeet⟩ := hall u hv hne
          rcases (above_iff hne hp).mp ha with rfl | hpa
          · exact .inl (List.mem_cons_self ..)
          · have hw := hs.closed u hv w hvw
            have hwa := (hmeet a).mp hpa w hvw (h.done_mem w hw)
            exact (ih hw hwa hl).imp_left (List.mem_cons_of_mem _)
  · intro ha
    rcases h.unavoidable_or_between (h.above_exit (h.done_mem v hv)) ha with hexit | ⟨hva, _⟩
    · rw [hexit.eq_goal]
      exact h.above_exit (h.done_mem v hv)
    · exact hva

theorem midway_start (hs : Schedule succ order) :
    Midway succ order [] ⟨[(exitId, exitId)]⟩ := by
  have hget : ∀ v p, v ≠ exitId → Table.get? ⟨[(exitId, exitId)]⟩ v ≠ some p := by
    intro v p hne
    simp [Table.get?, Table.find, Ne.symm hne]
  constructor
  · constructor
    · rfl
    · intro v hv
      rw [show v = exitId from List.mem_singleton.mp hv]
      exact hs.exit_mem
    · exact fun v p hne hp => absurd hp (hget v p hne)
    · exact fun v p hne hp => absurd hp (hget v p hne)
  · intro v hv w hw hle
    rw [show v = exitId from List.mem_singleton.mp hv, hs.exit_first] at hle
    have heq : order.idxOf w = order.idxOf exitId := by
      rw [hs.exit_first]
      omega
    rw [(List.idxOf_inj hw).mp heq]
    exact List.mem_singleton_self _
  · simp
  · exact fun v p hne hp => absurd hp (hget v p hne)
  · exact fun v p hne hp => absurd hp (hget v p hne)
  · exact fun v p hne hp => absurd hp (hget v p hne)

end Backslice.PostDominance

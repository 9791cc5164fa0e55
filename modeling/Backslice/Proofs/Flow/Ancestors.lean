import Backslice.Flow.PostDominance
import Backslice.Proofs.Table
import Mathlib.Data.List.Basic

namespace Backslice.PostDominance

inductive Above (t : Table NodeId NodeId) : NodeId → NodeId → Prop
  | refl (v : NodeId) : Above t v v
  | up {v p a : NodeId} : v ≠ exitId → t.get? v = some p → Above t p a → Above t v a

/-- The parents of all ids in a table are in the table, and come earlier in the order. -/
structure Climbs (order : List NodeId) (t : Table NodeId NodeId) : Prop where
  root : t.get? exitId = some exitId
  listed : ∀ v ∈ t.keys, v ∈ order
  parent_mem : ∀ v p, v ≠ exitId → t.get? v = some p → p ∈ t.keys
  parent_lt : ∀ v p, v ≠ exitId → t.get? v = some p → order.idxOf p < order.idxOf v

variable {t : Table NodeId NodeId} {order : List NodeId} {v w a b p : NodeId}

theorem require_eq_ok {α : Type} {t : Table NodeId α} {x : α} (h : t.get? v = some x) :
    require t v = .ok x := by
  rw [require, h]

theorem Above.trans (h : Above t v a) (h' : Above t a b) : Above t v b := by
  induction h with
  | refl => exact h'
  | up hne hp _ ih => exact .up hne hp (ih h')

theorem above_iff (hne : v ≠ exitId) (hp : t.get? v = some p) :
    Above t v a ↔ a = v ∨ Above t p a := by
  constructor
  · intro h
    cases h with
    | refl => exact .inl rfl
    | up _ hp' h =>
      rw [hp] at hp'
      cases hp'
      exact .inr h
  · rintro (rfl | h)
    · exact .refl a
    · exact .up hne hp h

theorem above_exit_iff : Above t exitId a ↔ a = exitId := by
  constructor
  · intro h
    cases h with
    | refl => rfl
    | up hne => exact absurd rfl hne
  · rintro rfl
    exact .refl _

theorem Above.total (ha : Above t v a) (hb : Above t v b) : Above t a b ∨ Above t b a := by
  induction ha with
  | refl => exact .inl hb
  | up hne hp hpa ih =>
    rcases (above_iff hne hp).mp hb with rfl | hb
    · exact .inr (.up hne hp hpa)
    · exact ih hb

namespace Climbs

theorem above_mem (h : Climbs order t) (hv : v ∈ t.keys) (ha : Above t v a) : a ∈ t.keys := by
  induction ha with
  | refl => exact hv
  | up hne hp _ ih => exact ih (h.parent_mem _ _ hne hp)

theorem idxOf_le (h : Climbs order t) (ha : Above t v a) : order.idxOf a ≤ order.idxOf v := by
  induction ha with
  | refl => exact Nat.le_refl _
  | up hne hp _ ih => exact Nat.le_trans ih (Nat.le_of_lt (h.parent_lt _ _ hne hp))

theorem idxOf_lt (h : Climbs order t) (ha : Above t v a) (hne : a ≠ v) :
    order.idxOf a < order.idxOf v := by
  cases ha with
  | refl => exact absurd rfl hne
  | up hv hp ha => exact Nat.lt_of_le_of_lt (h.idxOf_le ha) (h.parent_lt _ _ hv hp)

theorem antisymm (h : Climbs order t) (ha : Above t v a) (hv : Above t a v) : a = v := by
  by_contra hne
  exact Nat.not_lt_of_le (h.idxOf_le hv) (h.idxOf_lt ha hne)

theorem exists_parent (h : Climbs order t) (hv : v ∈ t.keys) (hne : v ≠ exitId) :
    ∃ p ∈ t.keys, t.get? v = some p ∧ order.idxOf p < order.idxOf v := by
  obtain ⟨p, hp⟩ := (t.exists_get?_iff v).mpr hv
  exact ⟨p, h.parent_mem v p hne hp, hp, h.parent_lt v p hne hp⟩

theorem above_exit (h : Climbs order t) (hv : v ∈ t.keys) : Above t v exitId := by
  induction hn : order.idxOf v using Nat.strongRecOn generalizing v with
  | _ n ih =>
    by_cases hne : v = exitId
    · exact hne ▸ .refl v
    · obtain ⟨p, hmem, hp, hlt⟩ := h.exists_parent hv hne
      exact .up hne hp (ih _ (hn ▸ hlt) hmem rfl)

end Climbs

theorem find_zipIdx (k : Nat) (l : List NodeId) (hv : v ∈ l) :
    Table.find v (l.zipIdx k) = some (k + l.idxOf v) := by
  induction l generalizing k with
  | nil => cases hv
  | cons a l ih =>
    rw [List.zipIdx_cons, Table.find]
    by_cases ha : a = v
    · simp [ha]
    · rw [if_neg ha, ih (k + 1) ((List.mem_cons.mp hv).resolve_left (Ne.symm ha)),
        List.idxOf_cons_ne l ha]
      congr 1
      omega

theorem require_indexOf (hv : v ∈ order) : require (indexOf order) v = .ok (order.idxOf v) := by
  apply require_eq_ok
  have h := find_zipIdx 0 order hv
  rwa [Nat.zero_add] at h

/-- Ids further down than the other one step up, until both are the same: then they have exactly
the common ancestors above them. -/
theorem intersect_ok (h : Climbs order t) (hroot : order.idxOf exitId = 0) (fuel : Nat)
    (ha : a ∈ t.keys) (hb : b ∈ t.keys) (hfuel : order.idxOf a + order.idxOf b < fuel) :
    ∃ c ∈ t.keys, intersect (indexOf order) t fuel a b = .ok c ∧
      ∀ d, Above t c d ↔ Above t a d ∧ Above t b d := by
  induction fuel generalizing a b with
  | zero => omega
  | succ fuel ih =>
    rw [intersect]
    by_cases hab : a = b
    · subst hab
      exact ⟨a, ha, by rw [if_pos rfl], fun d => (and_self_iff).symm⟩
    rw [if_neg hab, require_indexOf (h.listed a ha), require_indexOf (h.listed b hb)]
    simp only [bind, Except.bind]
    rcases Nat.lt_trichotomy (order.idxOf a) (order.idxOf b) with hlt | heq | hlt
    · have hne : b ≠ exitId := by
        rintro rfl
        omega
      obtain ⟨p, hp, hget, hplt⟩ := h.exists_parent hb hne
      obtain ⟨c, hc, hok, hmeet⟩ := ih ha hp (by omega)
      refine ⟨c, hc, ?_, fun d => ?_⟩
      · rw [if_neg (by omega), if_pos hlt, require_eq_ok hget]
        exact hok
      · rw [hmeet, above_iff hne hget]
        constructor
        · exact fun ⟨had, hpd⟩ => ⟨had, .inr hpd⟩
        · rintro ⟨had, rfl | hpd⟩
          · exact absurd (h.idxOf_le had) (by omega)
          · exact ⟨had, hpd⟩
    · exact absurd ((List.idxOf_inj (h.listed a ha)).mp heq) hab
    · have hne : a ≠ exitId := by
        rintro rfl
        omega
      obtain ⟨p, hp, hget, hplt⟩ := h.exists_parent ha hne
      obtain ⟨c, hc, hok, hmeet⟩ := ih hp hb (by omega)
      refine ⟨c, hc, ?_, fun d => ?_⟩
      · rw [if_pos hlt, require_eq_ok hget]
        exact hok
      · rw [hmeet, above_iff hne hget]
        constructor
        · exact fun ⟨hpd, hbd⟩ => ⟨.inr hpd, hbd⟩
        · rintro ⟨rfl | hpd, hbd⟩
          · exact absurd (h.idxOf_le hbd) (by omega)
          · exact ⟨hpd, hbd⟩

theorem meetAll_ok (h : Climbs order t) (hroot : order.idxOf exitId = 0) (ws : List NodeId)
    (hv : v ∈ t.keys) (hws : ∀ w ∈ ws, w ∈ t.keys) :
    ∃ c ∈ t.keys, meetAll (indexOf order) t v ws = .ok c ∧
      ∀ d, Above t c d ↔ ∀ w ∈ v :: ws, Above t w d := by
  induction ws generalizing v with
  | nil => exact ⟨v, hv, rfl, by simp⟩
  | cons w ws ih =>
    have hw := hws w (List.mem_cons_self ..)
    have hlen : (indexOf order).entries.length = order.length := by simp [indexOf]
    have hlt : ∀ u ∈ t.keys, order.idxOf u < order.length :=
      fun u hu => List.idxOf_lt_length_of_mem (h.listed u hu)
    have := hlt v hv
    have := hlt w hw
    obtain ⟨c, hc, hok, hmeet⟩ := intersect_ok h hroot
      (2 * (indexOf order).entries.length + 1) hw hv (by omega)
    obtain ⟨c', hc', hok', hmeet'⟩ := ih hc fun u hu => hws u (List.mem_cons_of_mem _ hu)
    refine ⟨c', hc', ?_, fun d => ?_⟩
    · rw [meetAll, hok]
      exact hok'
    · rw [hmeet', List.forall_mem_cons, hmeet, List.forall_mem_cons, List.forall_mem_cons]
      tauto

theorem contains_iff : t.contains v = true ↔ v ∈ t.keys := t.get?_isSome v

theorem improved_ok {succ : Adjacency} {targets : List NodeId} (h : Climbs order t)
    (hroot : order.idxOf exitId = 0) (hget : succ.get? v = some targets)
    (hsome : ∃ w ∈ targets, w ∈ t.keys) :
    ∃ c ∈ t.keys, improved succ (indexOf order) t v = .ok c ∧
      ∀ d, Above t c d ↔ ∀ w ∈ targets, w ∈ t.keys → Above t w d := by
  have hmem : ∀ w, w ∈ targets.filter t.contains ↔ w ∈ targets ∧ w ∈ t.keys := by
    intro w
    rw [List.mem_filter, contains_iff]
  obtain ⟨w₀, hw₀, hk₀⟩ := hsome
  cases hf : targets.filter t.contains with
  | nil =>
    have := (hmem w₀).mpr ⟨hw₀, hk₀⟩
    rw [hf] at this
    cases this
  | cons w ws =>
    rw [hf] at hmem
    have hkeys : ∀ u ∈ w :: ws, u ∈ t.keys := fun u hu => ((hmem u).mp hu).2
    obtain ⟨c, hc, hok, hmeet⟩ := meetAll_ok h hroot ws (hkeys w (List.mem_cons_self ..))
      fun u hu => hkeys u (List.mem_cons_of_mem _ hu)
    refine ⟨c, hc, ?_, fun d => ?_⟩
    · rw [improved, require_eq_ok hget]
      simp only [bind, Except.bind, hf]
      exact hok
    · rw [hmeet]
      exact ⟨fun hall u hu hk => hall u ((hmem u).mpr ⟨hu, hk⟩),
        fun hall u hu => hall u ((hmem u).mp hu).1 ((hmem u).mp hu).2⟩

theorem above_update {t' : Table NodeId NodeId} {u new : NodeId} (h : Climbs order t)
    (hget : ∀ v, t'.get? v = if u = v then some new else t.get? v) (hu : u ≠ exitId)
    (hnew : order.idxOf new < order.idxOf u) :
    (¬ Above t w u → (Above t' w a ↔ Above t w a)) ∧
      (Above t w u → (Above t' w a ↔ (Above t w a ∧ Above t a u) ∨ Above t new a)) := by
  have hkeep : ∀ {v}, v ≠ u → t'.get? v = t.get? v := by
    intro v hv
    rw [hget, if_neg (Ne.symm hv)]
  have hmoved : t'.get? u = some new := by rw [hget, if_pos rfl]
  have haside : ∀ {w}, ¬ Above t w u → (Above t' w a ↔ Above t w a) := by
    intro w hw
    constructor
    · intro ha
      induction ha with
      | refl => exact .refl _
      | @up v p a hne hp _ ih =>
        have hv : v ≠ u := fun hv => hw (hv ▸ .refl v)
        rw [hkeep hv] at hp
        exact .up hne hp (ih fun hpu => hw (.up hne hp hpu))
    · intro ha
      induction ha with
      | refl => exact .refl _
      | @up v p a hne hp _ ih =>
        have hv : v ≠ u := fun hv => hw (hv ▸ .refl v)
        exact .up hne ((hkeep hv).trans hp) (ih fun hpu => hw (.up hne hp hpu))
  refine ⟨haside, fun hw => ?_⟩
  have hnewu : ¬ Above t new u := fun hn => by
    have := h.idxOf_le hn
    omega
  induction hw with
  | refl u =>
    rw [above_iff hu hmoved, haside hnewu]
    refine or_congr_left ⟨?_, fun ⟨hua, hau⟩ => h.antisymm hua hau⟩
    rintro rfl
    exact ⟨.refl a, .refl a⟩
  | @up w p u hne hp hpu ih =>
    have hwu : w ≠ u := by
      rintro rfl
      have := h.idxOf_le hpu
      have := h.parent_lt w p hne hp
      omega
    have hstep : Above t' p a ↔ (Above t p a ∧ Above t a u) ∨ Above t new a :=
      ih hget hu hnew hkeep hmoved haside hnewu
    rw [above_iff hne ((hkeep hwu).trans hp), above_iff hne hp, hstep]
    constructor
    · rintro (rfl | ⟨hpa, hau⟩ | hna)
      · exact .inl ⟨.inl rfl, .up hne hp hpu⟩
      · exact .inl ⟨.inr hpa, hau⟩
      · exact .inr hna
    · rintro (⟨rfl | hpa, hau⟩ | hna)
      · exact .inl rfl
      · exact .inr (.inl ⟨hpa, hau⟩)
      · exact .inr (.inr hna)

end Backslice.PostDominance

import Backslice.Flow.DepthFirst
import Backslice.Proofs.Table
import Mathlib.Logic.Relation

namespace Backslice.DepthFirst

open Relation (ReflTransGen)

def Follows (next : NodeId → List NodeId) (l : List NodeId) (v : NodeId) : Prop :=
  ∃ l₁ l₂ u, l = l₁ ++ v :: l₂ ∧ u ∈ l₁ ∧ v ∈ next u

structure Visits (next : NodeId → List NodeId) (roots : List NodeId) (w : Walk)
    (fresh : List NodeId) (w' : Walk) : Prop where
  left : w'.left = fresh ++ w.left
  mem_seen : ∀ v, v ∈ w'.seen ↔ v ∈ w.seen ∨ v ∈ fresh
  nodup : fresh.Nodup
  unseen : ∀ v ∈ fresh, v ∉ w.seen
  roots_seen : ∀ v ∈ roots, v ∈ w'.seen
  next_seen : ∀ v ∈ fresh, ∀ u ∈ next v, u ∈ w'.seen
  led : ∀ v ∈ fresh, v ∈ roots ∨ Follows next fresh v

variable {next : NodeId → List NodeId} {graph : Adjacency} {v : NodeId}

theorem Follows.append {l : List NodeId} (h : Follows next l v) (l' l'' : List NodeId) :
    Follows next (l' ++ l ++ l'') v := by
  obtain ⟨l₁, l₂, u, rfl, hu, hv⟩ := h
  exact ⟨l' ++ l₁, l₂ ++ l'', u, by simp, List.mem_append_right _ hu, hv⟩

theorem Follows.exists_idxOf_lt {l : List NodeId} (h : Follows next l v) (hn : l.Nodup) :
    ∃ u ∈ l, v ∈ next u ∧ l.idxOf u < l.idxOf v := by
  obtain ⟨l₁, l₂, u, rfl, hu, hv⟩ := h
  have hnot : v ∉ l₁ := fun hm =>
    List.disjoint_of_nodup_append hn hm (List.mem_cons_self ..)
  refine ⟨u, List.mem_append_left _ hu, hv, ?_⟩
  rw [List.idxOf_append_of_mem hu, List.idxOf_append_of_notMem hnot, List.idxOf_cons_self]
  exact List.idxOf_lt_length_of_mem hu

theorem Visits.nil (next : NodeId → List NodeId) (w : Walk) : Visits next [] w [] w := by
  constructor <;> simp

theorem Visits.skip {roots fresh : List NodeId} {w w' : Walk} (h : Visits next roots w fresh w')
    (hv : v ∈ w.seen) : Visits next (v :: roots) w fresh w' where
  left := h.left
  mem_seen := h.mem_seen
  nodup := h.nodup
  unseen := h.unseen
  roots_seen u hu := by
    rcases List.mem_cons.mp hu with rfl | hu
    · exact (h.mem_seen u).mpr (.inl hv)
    · exact h.roots_seen u hu
  next_seen := h.next_seen
  led u hu := (h.led u hu).imp_left (List.mem_cons_of_mem _)

theorem Visits.enter {roots below later : List NodeId} {w inner w' : Walk}
    (hb : Visits next (next v) { w with seen := v :: w.seen } below inner) (hv : v ∉ w.seen)
    (hl : Visits next roots { inner with left := v :: inner.left } later w') :
    Visits next (v :: roots) w (later ++ v :: below) w' := by
  have hseen : ∀ u, u ∈ inner.seen ↔ u = v ∨ u ∈ w.seen ∨ u ∈ below := by
    intro u
    rw [hb.mem_seen u, List.mem_cons, or_assoc]
  constructor
  · rw [hl.left]
    simp [hb.left]
  · intro u
    rw [hl.mem_seen u]
    simp only [hseen, List.mem_append, List.mem_cons]
    tauto
  · refine List.Nodup.append hl.nodup (List.nodup_cons.mpr ⟨?_, hb.nodup⟩) ?_
    · exact fun hmem => hb.unseen v hmem (List.mem_cons_self ..)
    · intro u hu hmem
      refine hl.unseen u hu ((hseen u).mpr ?_)
      exact (List.mem_cons.mp hmem).imp_right .inr
  · intro u hu
    rcases List.mem_append.mp hu with hu | hu
    · exact fun hw => hl.unseen u hu ((hseen u).mpr (.inr (.inl hw)))
    · rcases List.mem_cons.mp hu with rfl | hu
      · exact hv
      · exact fun hw => hb.unseen u hu (List.mem_cons_of_mem _ hw)
  · intro u hu
    rcases List.mem_cons.mp hu with rfl | hu
    · exact (hl.mem_seen u).mpr (.inl ((hseen u).mpr (.inl rfl)))
    · exact hl.roots_seen u hu
  · intro u hu x hx
    rcases List.mem_append.mp hu with hu | hu
    · exact hl.next_seen u hu x hx
    · refine (hl.mem_seen x).mpr (.inl ?_)
      rcases List.mem_cons.mp hu with rfl | hu
      · exact hb.roots_seen x hx
      · exact hb.next_seen u hu x hx
  · intro u hu
    rcases List.mem_append.mp hu with hu | hu
    · refine (hl.led u hu).imp (List.mem_cons_of_mem _) fun h => ?_
      simpa using h.append [] (v :: below)
    · rcases List.mem_cons.mp hu with rfl | hu
      · exact .inl (List.mem_cons_self ..)
      · right
        rcases hb.led u hu with hnext | h
        · obtain ⟨l₁, l₂, rfl⟩ := List.append_of_mem hu
          exact ⟨later ++ v :: l₁, l₂, v, by simp, by simp, hnext⟩
        · simpa using h.append (later ++ [v]) []

def pending (graph : Adjacency) (seen : List NodeId) : Nat :=
  ((graph.entries.filter fun e => e.1 ∉ seen).flatMap fun e => e.1 :: e.2).length

theorem pending_le (graph : Adjacency) {seen seen' : List NodeId} (h : seen ⊆ seen') :
    pending graph seen' ≤ pending graph seen := by
  unfold pending
  induction graph.entries with
  | nil => simp
  | cons e es ih =>
    by_cases h' : e.1 ∈ seen'
    · by_cases h'' : e.1 ∈ seen
      · simpa [h', h''] using ih
      · simp only [List.filter_cons, h', h'', not_true, not_false_eq_true, decide_false,
          decide_true, Bool.false_eq_true, if_false, if_true, List.flatMap_cons,
          List.length_append, List.length_cons]
        omega
    · have h'' : e.1 ∉ seen := fun hm => h' (h hm)
      simpa [h', h''] using ih

theorem neighbours_add_pending_le (graph : Adjacency) {seen : List NodeId} (hv : v ∉ seen) :
    (neighbours graph v).length + pending graph (v :: seen) ≤ pending graph seen := by
  obtain ⟨es⟩ := graph
  induction es with
  | nil => simp [neighbours, pending, Table.get?, Table.find]
  | cons e es ih =>
    have hle := pending_le ⟨es⟩ (List.subset_cons_self v seen)
    simp only [neighbours, pending, Table.get?, Table.find] at ih hle ⊢
    by_cases hk : e.1 = v
    · subst hk
      simp only [if_true, Option.getD_some, List.filter_cons, List.mem_cons, true_or, not_true,
        decide_false, Bool.false_eq_true, if_false, hv, not_false_eq_true, decide_true,
        List.flatMap_cons, List.length_append, List.length_cons] at hle ⊢
      omega
    · by_cases hs : e.1 ∈ seen
      · simpa [hk, hs] using ih
      · simp only [hk, if_false, List.filter_cons, List.mem_cons, hs, or_self, not_false_eq_true,
          decide_true, if_true, List.flatMap_cons, List.length_append, List.length_cons] at ih ⊢
        omega

inductive Descends (next : NodeId → List NodeId) : List NodeId → Walk → Walk → Prop
  | nil (w : Walk) : Descends next [] w w
  | skip {roots : List NodeId} {w w' : Walk} {v : NodeId} :
      v ∈ w.seen → Descends next roots w w' → Descends next (v :: roots) w w'
  | enter {roots : List NodeId} {w inner w' : Walk} {v : NodeId} :
      v ∉ w.seen → Descends next (next v) { w with seen := v :: w.seen } inner →
      Descends next roots { inner with left := v :: inner.left } w' →
      Descends next (v :: roots) w w'

theorem Descends.exists_visits {roots : List NodeId} {w w' : Walk}
    (h : Descends next roots w w') : ∃ fresh, Visits next roots w fresh w' := by
  induction h with
  | nil w => exact ⟨[], .nil next w⟩
  | skip hv _ ih =>
    obtain ⟨fresh, hvisits⟩ := ih
    exact ⟨fresh, hvisits.skip hv⟩
  | enter hv _ _ ihb ihl =>
    obtain ⟨below, hb⟩ := ihb
    obtain ⟨later, hl⟩ := ihl
    exact ⟨_, hb.enter hv hl⟩

theorem descends_visit (graph : Adjacency) (fuel : Nat) (roots : List NodeId) (w : Walk)
    (hfuel : roots.length + pending graph w.seen ≤ fuel) :
    Descends (neighbours graph) roots w (visit (neighbours graph) fuel roots w) := by
  -- to enter an id takes its neighbours from what is pending, so the bound holds for both walks
  induction fuel generalizing roots w with
  | zero =>
    cases roots with
    | nil => exact .nil w
    | cons => simp at hfuel
  | succ fuel ih =>
    cases roots with
    | nil => exact .nil w
    | cons v roots =>
      rw [List.length_cons] at hfuel
      rw [visit]
      split
      · exact .skip ‹_› (ih roots w (by omega))
      · rename_i hv
        have hroom := neighbours_add_pending_le graph hv
        have hbelow := ih (neighbours graph v) { w with seen := v :: w.seen } (by simp only; omega)
        obtain ⟨below, hb⟩ := hbelow.exists_visits
        have hle : pending graph (visit (neighbours graph) fuel (neighbours graph v)
            { w with seen := v :: w.seen }).seen ≤ pending graph w.seen :=
          pending_le graph fun u hu => (hb.mem_seen u).mpr (.inl (List.mem_cons_of_mem _ hu))
        exact .enter hv hbelow (ih roots _ (by simp only; omega))

theorem descends_walkFrom (graph : Adjacency) (roots : List NodeId) :
    Descends (neighbours graph) roots {} (walkFrom graph roots) :=
  descends_visit graph (fuelFor graph roots) roots {} (by simp [pending, fuelFor]; omega)

theorem exists_walkFrom_root (graph : Adjacency) (root : NodeId) : ∃ inner,
    Descends (neighbours graph) (neighbours graph root) { seen := [root] } inner ∧
      walkFrom graph [root] = { inner with left := root :: inner.left } := by
  have h := descends_walkFrom graph [root]
  generalize walkFrom graph [root] = w at h ⊢
  cases h with
  | skip hroot => cases hroot
  | @enter _ _ inner _ _ _ hbelow hnil =>
    cases hnil
    exact ⟨inner, hbelow, rfl⟩

theorem visits_walkFrom (graph : Adjacency) (roots : List NodeId) :
    Visits (neighbours graph) roots {} (walkFrom graph roots).left (walkFrom graph roots) := by
  obtain ⟨fresh, h⟩ := (descends_walkFrom graph roots).exists_visits
  have hleft : (walkFrom graph roots).left = fresh := by
    rw [h.left, List.append_nil]
  rwa [hleft]

def Linked (graph : Adjacency) (v w : NodeId) : Prop := w ∈ neighbours graph v

theorem mem_walkFrom_left {roots : List NodeId} :
    v ∈ (walkFrom graph roots).left ↔ ∃ u ∈ roots, ReflTransGen (Linked graph) u v := by
  have h := visits_walkFrom graph roots
  have hseen : ∀ u, u ∈ (walkFrom graph roots).seen ↔ u ∈ (walkFrom graph roots).left := by
    intro u
    simpa using h.mem_seen u
  constructor
  · intro hv
    induction hn : (walkFrom graph roots).left.idxOf v using Nat.strongRecOn generalizing v with
    | _ n ih =>
      rcases h.led v hv with hroot | hfollows
      · exact ⟨v, hroot, .refl⟩
      · obtain ⟨u, hu, hlink, hlt⟩ := hfollows.exists_idxOf_lt h.nodup
        obtain ⟨r, hr, hpath⟩ := ih _ (hn ▸ hlt) hu rfl
        exact ⟨r, hr, hpath.tail hlink⟩
  · rintro ⟨u, hu, hpath⟩
    induction hpath with
    | refl => exact (hseen u).mp (h.roots_seen u hu)
    | tail _ hlink ih => exact (hseen _).mp (h.next_seen _ ih _ hlink)

theorem mem_reachable {u : NodeId} :
    u ∈ reachable graph v ↔ ReflTransGen (Linked graph) v u := by
  have h := (visits_walkFrom graph [v]).mem_seen u
  rw [reachable, h, mem_walkFrom_left]
  simp

end Backslice.DepthFirst

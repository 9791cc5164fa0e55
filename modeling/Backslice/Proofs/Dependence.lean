import Backslice.Dependence
import Mathlib.Tactic.Basic

namespace Backslice.DependenceGraph

variable {υ : Type} [DecidableEq υ] {g : DependenceGraph υ} {f : Facts υ} {u v w : υ}
  {e : Dependence υ} {k : DependenceKind}

theorem mem_units_addUnit : w ∈ (g.addUnit u).units ↔ w ∈ g.units ∨ w = u := by
  unfold addUnit
  split
  · rename_i hu
    constructor
    · exact .inl
    · rintro (hw | rfl)
      · exact hw
      · exact hu
  · simp

@[simp] theorem edges_addUnit : (g.addUnit u).edges = g.edges := by
  unfold addUnit
  split <;> rfl

theorem nodup_addUnit (h : g.units.Nodup) : (g.addUnit u).units.Nodup := by
  unfold addUnit
  split
  · exact h
  · rename_i hu
    rw [List.nodup_append]
    refine ⟨h, by simp, fun a ha b hb => ?_⟩
    rw [List.mem_singleton.mp hb]
    exact fun he => hu (he ▸ ha)

theorem mem_edges_addEdge :
    e ∈ (g.addEdge u v k).1.edges ↔ e ∈ g.edges ∨ e = ⟨u, v, k⟩ := by
  unfold addEdge
  split
  · rename_i h
    constructor
    · exact .inl
    · rintro (he | rfl)
      · exact he
      · exact h
  · simp

structure Regular (g : DependenceGraph υ) : Prop where
  units_nodup : g.units.Nodup
  edges_nodup : g.edges.Nodup
  source_mem : ∀ e ∈ g.edges, e.source ∈ g.units
  target_mem : ∀ e ∈ g.edges, e.target ∈ g.units

theorem Regular.addUnit (h : g.Regular) (u : υ) : (g.addUnit u).Regular where
  units_nodup := nodup_addUnit h.units_nodup
  edges_nodup := by rw [edges_addUnit]; exact h.edges_nodup
  source_mem e he := by
    rw [edges_addUnit] at he
    exact mem_units_addUnit.mpr (.inl (h.source_mem e he))
  target_mem e he := by
    rw [edges_addUnit] at he
    exact mem_units_addUnit.mpr (.inl (h.target_mem e he))

theorem Regular.mem_units_addEdge (h : g.Regular) :
    w ∈ (g.addEdge u v k).1.units ↔ w ∈ g.units ∨ w = u ∨ w = v := by
  unfold DependenceGraph.addEdge
  split
  · rename_i he
    constructor
    · exact .inl
    · rintro (hw | rfl | rfl)
      · exact hw
      · exact h.source_mem _ he
      · exact h.target_mem _ he
  · rw [← or_assoc, ← mem_units_addUnit, ← mem_units_addUnit]

theorem Regular.addEdge (h : g.Regular) (u v : υ) (k : DependenceKind) :
    (g.addEdge u v k).1.Regular where
  units_nodup := by
    unfold DependenceGraph.addEdge
    split
    · exact h.units_nodup
    · exact nodup_addUnit (nodup_addUnit h.units_nodup)
  edges_nodup := by
    unfold DependenceGraph.addEdge
    split
    · exact h.edges_nodup
    · rename_i hnew
      simp only [edges_addUnit]
      rw [List.nodup_append]
      refine ⟨h.edges_nodup, by simp, fun a ha b hb => ?_⟩
      rw [List.mem_singleton.mp hb]
      exact fun he => hnew (he ▸ ha)
  source_mem e he := by
    rw [h.mem_units_addEdge]
    rcases mem_edges_addEdge.mp he with he | rfl
    · exact .inl (h.source_mem e he)
    · exact .inr (.inl rfl)
  target_mem e he := by
    rw [h.mem_units_addEdge]
    rcases mem_edges_addEdge.mp he with he | rfl
    · exact .inl (h.target_mem e he)
    · exact .inr (.inr rfl)

def given (f : Facts υ) (u : υ) : List (Dependence υ) :=
  (f.frontier u).map (⟨·, u, .control⟩) ++ (f.usesOf u).map (⟨u, ·, .data⟩)

structure Adds (f : Facts υ) (g g' : DependenceGraph υ) (es : List (Dependence υ)) : Prop where
  regular : g'.Regular
  units_le : ∀ w ∈ g.units, w ∈ g'.units
  units_listed : ∀ w ∈ g'.units, w ∈ g.units ∨ w ∈ f.units
  mem_edges : ∀ e, e ∈ g'.edges ↔ e ∈ g.edges ∨ e ∈ es

omit [DecidableEq υ] in
theorem Adds.trans {g₁ g₂ g₃ : DependenceGraph υ} {es fs : List (Dependence υ)}
    (h₁ : Adds f g₁ g₂ es) (h₂ : Adds f g₂ g₃ fs) : Adds f g₁ g₃ (es ++ fs) where
  regular := h₂.regular
  units_le w hw := h₂.units_le w (h₁.units_le w hw)
  units_listed w hw := by
    rcases h₂.units_listed w hw with hw | hw
    · exact h₁.units_listed w hw
    · exact .inr hw
  mem_edges e := by rw [h₂.mem_edges, h₁.mem_edges, List.mem_append, or_assoc]

theorem Adds.edge (h : g.Regular) (hu : u ∈ f.units) (hv : v ∈ f.units) :
    Adds f g (g.addEdge u v k).1 [⟨u, v, k⟩] where
  regular := h.addEdge u v k
  units_le w hw := h.mem_units_addEdge.mpr (.inl hw)
  units_listed w hw := by
    rcases h.mem_units_addEdge.mp hw with hw | rfl | rfl
    · exact .inl hw
    · exact .inr hu
    · exact .inr hv
  mem_edges e := by rw [mem_edges_addEdge, List.mem_singleton]

theorem Adds.unit (h : g.Regular) (hu : u ∈ f.units) : Adds f g (g.addUnit u) [] where
  regular := h.addUnit u
  units_le w hw := mem_units_addUnit.mpr (.inl hw)
  units_listed w hw := by
    rcases mem_units_addUnit.mp hw with hw | rfl
    · exact .inl hw
    · exact .inr hu
  mem_edges e := by simp

omit [DecidableEq υ] in
theorem Adds.refl (f : Facts υ) (h : g.Regular) : Adds f g g [] where
  regular := h
  units_le _ hw := hw
  units_listed _ hw := .inl hw
  mem_edges e := by simp

theorem addControl_ok (h : g.Regular) (hu : u ∈ f.units) {rs : List υ}
    (hrs : ∀ r ∈ rs, r ∈ f.units) :
    ∃ g', addControl f u rs g = .ok g' ∧ Adds f g g' (rs.map (⟨·, u, .control⟩)) := by
  induction rs generalizing g with
  | nil => exact ⟨g, rfl, .refl f h⟩
  | cons r rs ih =>
    have hr := hrs r (List.mem_cons_self ..)
    have hadd : Adds f g (g.addEdge r u .control).1 [⟨r, u, .control⟩] := .edge h hr hu
    obtain ⟨g', hok, hrest⟩ := ih hadd.regular fun w hw => hrs w (List.mem_cons_of_mem _ hw)
    exact ⟨g', by rw [addControl, if_pos hr, hok], hadd.trans hrest⟩

theorem addData_ok (h : g.Regular) (hu : u ∈ f.units) {vs : List υ}
    (hvs : ∀ v ∈ vs, v ∈ f.units) :
    ∃ g', addData f u vs g = .ok g' ∧ Adds f g g' (vs.map (⟨u, ·, .data⟩)) := by
  induction vs generalizing g with
  | nil => exact ⟨g, rfl, .refl f h⟩
  | cons v vs ih =>
    have hv := hvs v (List.mem_cons_self ..)
    have hadd : Adds f g (g.addEdge u v .data).1 [⟨u, v, .data⟩] := .edge h hu hv
    obtain ⟨g', hok, hrest⟩ := ih hadd.regular fun w hw => hvs w (List.mem_cons_of_mem _ hw)
    exact ⟨g', by rw [addData, if_pos hv, hok], hadd.trans hrest⟩

/-- The facts name only units. -/
structure Closed (f : Facts υ) : Prop where
  frontier_mem : ∀ u ∈ f.units, ∀ r ∈ f.frontier u, r ∈ f.units
  usesOf_mem : ∀ u ∈ f.units, ∀ v ∈ f.usesOf u, v ∈ f.units

theorem addUnits_ok (hf : Closed f) (h : g.Regular) {us : List υ} (hus : ∀ u ∈ us, u ∈ f.units) :
    ∃ g', addUnits f us g = .ok g' ∧ Adds f g g' (us.flatMap (given f)) ∧
      ∀ u ∈ us, u ∈ g'.units := by
  induction us generalizing g with
  | nil => exact ⟨g, rfl, .refl f h, by simp⟩
  | cons u us ih =>
    have hu := hus u (List.mem_cons_self ..)
    have h₀ : Adds f g (g.addUnit u) [] := .unit h hu
    obtain ⟨g₁, hok₁, h₁⟩ := addControl_ok h₀.regular hu (hf.frontier_mem u hu)
    obtain ⟨g₂, hok₂, h₂⟩ := addData_ok h₁.regular hu (hf.usesOf_mem u hu)
    obtain ⟨g₃, hok₃, h₃, hmem⟩ := ih h₂.regular fun w hw => hus w (List.mem_cons_of_mem _ hw)
    refine ⟨g₃, ?_, (h₀.trans (h₁.trans h₂)).trans h₃, fun w hw => ?_⟩
    · simp only [addUnits, hok₁, hok₂, bind, Except.bind, hok₃]
    · rcases List.mem_cons.mp hw with rfl | hw
      · refine h₃.units_le w (h₂.units_le w (h₁.units_le w ?_))
        exact mem_units_addUnit.mpr (.inr rfl)
      · exact hmem w hw

omit [DecidableEq υ] in
theorem regular_empty : ({} : DependenceGraph υ).Regular where
  units_nodup := List.nodup_nil
  edges_nodup := List.nodup_nil
  source_mem := by simp
  target_mem := by simp

inductive Built : DependenceGraph υ → Prop
  | empty : Built {}
  | addUnit {g : DependenceGraph υ} (u : υ) : Built g → Built (g.addUnit u)
  | addEdge {g : DependenceGraph υ} (u v : υ) (k : DependenceKind) :
      Built g → Built (g.addEdge u v k).1

theorem Built.regular (h : g.Built) : g.Regular := by
  induction h with
  | empty => exact regular_empty
  | addUnit u _ ih => exact ih.addUnit u
  | addEdge u v k _ ih => exact ih.addEdge u v k

/-- The graph of the facts: their units, and the dependences they give. -/
structure Mirrors (f : Facts υ) (g : DependenceGraph υ) : Prop extends g.Regular where
  mem_units : ∀ u, u ∈ g.units ↔ u ∈ f.units
  control_iff : ∀ p u, ⟨p, u, .control⟩ ∈ g.edges ↔ u ∈ f.units ∧ p ∈ f.frontier u
  data_iff : ∀ p u, ⟨p, u, .data⟩ ∈ g.edges ↔ p ∈ f.units ∧ u ∈ f.usesOf p

theorem ofFacts_ok (hf : Closed f) : ∃ g, ofFacts f = .ok g ∧ Mirrors f g := by
  obtain ⟨g, hok, hadds, hmem⟩ := addUnits_ok hf regular_empty fun u hu => hu
  refine ⟨g, hok, hadds.regular, fun u => ⟨fun hu => ?_, hmem u⟩, fun p u => ?_, fun p u => ?_⟩
  · exact (hadds.units_listed u hu).resolve_left (by simp)
  · simp only [hadds.mem_edges, given, List.not_mem_nil, false_or, List.mem_flatMap,
      List.mem_append, List.mem_map, Dependence.mk.injEq, reduceCtorEq, and_false, exists_false,
      or_false, and_true]
    constructor
    · rintro ⟨_, hu, _, hp, rfl, rfl⟩
      exact ⟨hu, hp⟩
    · exact fun ⟨hu, hp⟩ => ⟨u, hu, p, hp, rfl, rfl⟩
  · simp only [hadds.mem_edges, given, List.not_mem_nil, false_or, List.mem_flatMap,
      List.mem_append, List.mem_map, Dependence.mk.injEq, reduceCtorEq, and_false, exists_false,
      false_or, and_true]
    constructor
    · rintro ⟨_, hp, _, hu, rfl, rfl⟩
      exact ⟨hp, hu⟩
    · exact fun ⟨hp, hu⟩ => ⟨p, hp, u, hu, rfl, rfl⟩

theorem mem_sources : w ∈ g.sources u ↔ ∃ k, ⟨w, u, k⟩ ∈ g.edges := by
  simp only [sources, List.mem_map, List.mem_filter, decide_eq_true_eq]
  constructor
  · rintro ⟨⟨_, _, k⟩, ⟨he, rfl⟩, rfl⟩
    exact ⟨k, he⟩
  · rintro ⟨k, he⟩
    exact ⟨_, ⟨he, rfl⟩, rfl⟩

theorem Mirrors.mem_sources_iff (h : Mirrors f g) : w ∈ g.sources u ↔
    (u ∈ f.units ∧ w ∈ f.frontier u) ∨ (w ∈ f.units ∧ u ∈ f.usesOf w) := by
  rw [mem_sources, ← h.control_iff, ← h.data_iff]
  constructor
  · rintro ⟨k, he⟩
    cases k with
    | control => exact .inl he
    | data => exact .inr he
  · rintro (he | he)
    · exact ⟨_, he⟩
    · exact ⟨_, he⟩

end Backslice.DependenceGraph

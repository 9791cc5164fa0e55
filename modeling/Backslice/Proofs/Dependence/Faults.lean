import Backslice.FactTable
import Backslice.Proofs.Dependence
import Backslice.Proofs.Table

namespace Backslice.DependenceGraph

variable {υ : Type} [DecidableEq υ] {g g' : DependenceGraph υ} {f f' : Facts υ} {u : υ}
  {us ws : List υ} {e : MalformedFacts υ}

def unlisted? (f : Facts υ) (ws : List υ) : Option υ := ws.find? (· ∉ f.units)

def faultAt? (f : Facts υ) (u : υ) : Option (MalformedFacts υ) :=
  ((unlisted? f (f.frontier u)).map (.frontierUnlisted · u)).or
    ((unlisted? f (f.usesOf u)).map (.useUnlisted · u))

def fault? (f : Facts υ) : Option (MalformedFacts υ) := f.units.findSome? (faultAt? f)

theorem unlisted?_eq_none : unlisted? f ws = none ↔ ∀ w ∈ ws, w ∈ f.units := by
  simp [unlisted?, List.find?_eq_none]

theorem unlisted?_cons (f : Facts υ) (w : υ) (ws : List υ) :
    unlisted? f (w :: ws) = if w ∈ f.units then unlisted? f ws else some w := by
  by_cases hw : w ∈ f.units <;> simp [unlisted?, hw]

theorem fault?_eq_none : fault? f = none ↔ Closed f := by
  simp only [fault?, List.findSome?_eq_none_iff, faultAt?, Option.or_eq_none_iff,
    Option.map_eq_none_iff, unlisted?_eq_none]
  constructor
  · exact fun h => ⟨fun u hu => (h u hu).1, fun u hu => (h u hu).2⟩
  · exact fun h u hu => ⟨h.frontier_mem u hu, h.usesOf_mem u hu⟩

theorem addControl_error {r : υ} (hr : unlisted? f ws = some r) :
    addControl f u ws g = .error (.frontierUnlisted r u) := by
  induction ws generalizing g with
  | nil => cases hr
  | cons w ws ih =>
    rw [unlisted?_cons] at hr
    rw [addControl]
    split
    · rename_i hw
      exact ih (by rwa [if_pos hw] at hr)
    · rename_i hw
      rw [if_neg hw] at hr
      rw [Option.some.inj hr]

theorem addData_error {v : υ} (hv : unlisted? f ws = some v) :
    addData f u ws g = .error (.useUnlisted v u) := by
  induction ws generalizing g with
  | nil => cases hv
  | cons w ws ih =>
    rw [unlisted?_cons] at hv
    rw [addData]
    split
    · rename_i hw
      exact ih (by rwa [if_pos hw] at hv)
    · rename_i hw
      rw [if_neg hw] at hv
      rw [Option.some.inj hv]

theorem addUnits_cons_error (h : g.Regular) (hu : u ∈ f.units) (he : faultAt? f u = some e) :
    addUnits f (u :: us) g = .error e := by
  rw [faultAt?, Option.or_eq_some_iff] at he
  rcases he with he | ⟨hfrontier, he⟩
  · obtain ⟨r, hr, rfl⟩ := Option.map_eq_some_iff.mp he
    rw [addUnits, addControl_error hr, error_bind]
  · rw [Option.map_eq_none_iff, unlisted?_eq_none] at hfrontier
    obtain ⟨v, hv, rfl⟩ := Option.map_eq_some_iff.mp he
    obtain ⟨g₁, hok, _⟩ := addControl_ok (h.addUnit u) hu hfrontier
    rw [addUnits, hok, ok_bind, addData_error hv, error_bind]

theorem addUnits_cons (us : List υ) (h : g.Regular) (hu : u ∈ f.units)
    (hnone : faultAt? f u = none) :
    ∃ g', g'.Regular ∧ addUnits f (u :: us) g = addUnits f us g' := by
  rw [faultAt?, Option.or_eq_none_iff, Option.map_eq_none_iff, Option.map_eq_none_iff,
    unlisted?_eq_none, unlisted?_eq_none] at hnone
  obtain ⟨g₁, hok₁, h₁⟩ := addControl_ok (h.addUnit u) hu hnone.1
  obtain ⟨g₂, hok₂, h₂⟩ := addData_ok h₁.regular hu hnone.2
  exact ⟨g₂, h₂.regular, by rw [addUnits, hok₁, ok_bind, hok₂, ok_bind]⟩

theorem addUnits_error (h : g.Regular) (hus : ∀ u ∈ us, u ∈ f.units)
    (he : us.findSome? (faultAt? f) = some e) : addUnits f us g = .error e := by
  induction us generalizing g with
  | nil => cases he
  | cons u us ih =>
    have hu := hus u (List.mem_cons_self ..)
    rw [List.findSome?_cons] at he
    cases hfault : faultAt? f u with
    | some e' =>
      rw [hfault] at he
      rw [addUnits_cons_error h hu hfault, Option.some.inj he]
    | none =>
      rw [hfault] at he
      obtain ⟨g', h', hrest⟩ := addUnits_cons us h hu hfault
      rw [hrest]
      exact ih h' (fun w hw => hus w (List.mem_cons_of_mem _ hw)) he

theorem ofFacts_eq_error : ofFacts f = .error e ↔ fault? f = some e := by
  cases hfault : fault? f with
  | none =>
    obtain ⟨g, hg, _⟩ := ofFacts_ok (fault?_eq_none.mp hfault)
    simp [hg]
  | some e' =>
    have herror : ofFacts f = .error e' := addUnits_error regular_empty (fun _ hu => hu) hfault
    simp [herror]

theorem closed_of_eq_ok (h : ofFacts f = .ok g) : Closed f := by
  rw [← fault?_eq_none, Option.eq_none_iff_forall_ne_some]
  intro e he
  cases h.symm.trans (ofFacts_eq_error.mpr he)

theorem mirrors_of_eq_ok (h : ofFacts f = .ok g) : Mirrors f g := by
  obtain ⟨g', hg', hmirrors⟩ := ofFacts_ok (closed_of_eq_ok h)
  cases h.symm.trans hg'
  exact hmirrors

theorem exists_error_iff : (∃ e, ofFacts f = .error e) ↔ ¬ Closed f := by
  simp only [ofFacts_eq_error, ← fault?_eq_none, ← ne_eq, Option.ne_none_iff_exists']

omit [DecidableEq υ] in
theorem closed_iff : Closed f ↔
    ∀ u ∈ f.units, ∀ w, w ∈ f.frontier u ∨ w ∈ f.usesOf u → w ∈ f.units := by
  constructor
  · rintro h u hu w (hw | hw)
    · exact h.frontier_mem u hu w hw
    · exact h.usesOf_mem u hu w hw
  · exact fun h => ⟨fun u hu w hw => h u hu w (.inl hw), fun u hu w hw => h u hu w (.inr hw)⟩

/-- Facts that list the same units, branches and users, in whatever order. -/
structure Reordered (f f' : Facts υ) : Prop where
  mem_units : ∀ u, u ∈ f'.units ↔ u ∈ f.units
  mem_frontier : ∀ u ∈ f.units, ∀ r, r ∈ f'.frontier u ↔ r ∈ f.frontier u
  mem_usesOf : ∀ u ∈ f.units, ∀ v, v ∈ f'.usesOf u ↔ v ∈ f.usesOf u

omit [DecidableEq υ] in
theorem Reordered.closed (h : Reordered f f') (hf : Closed f) : Closed f' where
  frontier_mem u hu r hr := by
    rw [h.mem_units] at hu ⊢
    exact hf.frontier_mem u hu r ((h.mem_frontier u hu r).mp hr)
  usesOf_mem u hu v hv := by
    rw [h.mem_units] at hu ⊢
    exact hf.usesOf_mem u hu v ((h.mem_usesOf u hu v).mp hv)

omit [DecidableEq υ] in
theorem Mirrors.perm (hg : Mirrors f g) (h : Reordered f f') (hg' : Mirrors f' g') :
    g'.units.Perm g.units ∧ g'.edges.Perm g.edges := by
  constructor
  · refine (List.perm_ext_iff_of_nodup hg'.units_nodup hg.units_nodup).mpr fun u => ?_
    rw [hg'.mem_units, h.mem_units, hg.mem_units]
  · refine (List.perm_ext_iff_of_nodup hg'.edges_nodup hg.edges_nodup).mpr ?_
    rintro ⟨p, u, kind⟩
    cases kind with
    | control =>
      rw [hg'.control_iff, hg.control_iff, h.mem_units]
      exact and_congr_right fun hu => h.mem_frontier u hu p
    | data =>
      rw [hg'.data_iff, hg.data_iff, h.mem_units]
      exact and_congr_right fun hp => h.mem_usesOf p hp u

/-- A dependence graph fails to be made if and only if a branch or a user of some unit is no unit, and
the first such is reported. Otherwise the graph has the units and just the dependences that the facts
give, each once, and facts that list them in another order give the same ones. -/
theorem ofFacts_exact (f : Facts υ) :
    ((∃ e, ofFacts f = .error e) ↔
      ∃ u ∈ f.units, ∃ w, (w ∈ f.frontier u ∨ w ∈ f.usesOf u) ∧ w ∉ f.units) ∧
    (∀ e, ofFacts f = .error e ↔ fault? f = some e) ∧
    ∀ g, ofFacts f = .ok g → Mirrors f g ∧
      ∀ f', Reordered f f' → ∃ g', ofFacts f' = .ok g' ∧ g'.units.Perm g.units ∧
        g'.edges.Perm g.edges := by
  refine ⟨?_, fun e => ofFacts_eq_error, fun g hg => ⟨mirrors_of_eq_ok hg, fun f' h => ?_⟩⟩
  · rw [exists_error_iff, closed_iff]
    push Not
    rfl
  · obtain ⟨g', hg', hmirrors⟩ := ofFacts_ok (h.closed (closed_of_eq_ok hg))
    exact ⟨g', hg', (mirrors_of_eq_ok hg).perm h hmirrors⟩

def looping (users : List String) : FactTable where
  lines := .ofList [("test", some 3), ("body", some 4)]
  frontier := .ofList [("test", ["test"]), ("body", ["test"])]
  defUses := .ofList [("test", ["body"]), ("body", users)]

theorem ofFacts_exact_looping : ∃ g g',
    ofFacts (looping ["test", "body"]).facts = .ok g ∧ Mirrors (looping ["test", "body"]).facts g ∧
      ofFacts (looping ["body", "test"]).facts = .ok g' ∧ g'.units.Perm g.units ∧
      g'.edges.Perm g.edges ∧ g.edges = [⟨"test", "test", .control⟩, ⟨"test", "body", .data⟩,
        ⟨"test", "body", .control⟩, ⟨"body", "test", .data⟩, ⟨"body", "body", .data⟩] := by
  have hrun : ((ofFacts (looping ["test", "body"]).facts).toOption.any fun g => decide (
      g.edges = [⟨"test", "test", .control⟩, ⟨"test", "body", .data⟩, ⟨"test", "body", .control⟩,
        ⟨"body", "test", .data⟩, ⟨"body", "body", .data⟩])) = true := by decide +kernel
  obtain ⟨g, hg, hrun⟩ := exists_of_any hrun
  have hreordered : Reordered (looping ["test", "body"]).facts (looping ["body", "test"]).facts := by
    refine ⟨fun u => .rfl, fun u _ r => .rfl, fun u hu v => ?_⟩
    have hu : u ∈ ["test", "body"] := hu
    rcases List.mem_pair.mp hu with rfl | rfl
    · exact .rfl
    · exact (List.Perm.swap ..).mem_iff
  obtain ⟨hmirrors, hsame⟩ := (ofFacts_exact _).2.2 g hg
  obtain ⟨g', hg', hunits, hedges⟩ := hsame _ hreordered
  exact ⟨g, g', hg, hmirrors, hg', hunits, hedges, of_decide_eq_true hrun⟩

end Backslice.DependenceGraph

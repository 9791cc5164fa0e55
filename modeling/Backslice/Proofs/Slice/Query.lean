import Backslice.Proofs.NameScheme
import Backslice.Proofs.Slice.Closure
import Backslice.Proofs.Table
import Backslice.Slice.Query

namespace Backslice.Slice

open DependenceGraph NameScheme

variable {υ : Type} [DecidableEq υ] {f : Facts υ} {g : DependenceGraph υ}
  {version suffix name : RawText} {seeds : List υ} {vs : List Variable} {u p s : υ}

def Resolved (declared : List Variable) (scheme : NameScheme) (name : RawText) (y : Variable) :
    Prop :=
  y ∈ declared ∧ scheme.resolves y.name (.text name) = .ok true

def UsesName (f : Facts υ) (scheme : NameScheme) (name : RawText) (u : υ) : Prop :=
  ∃ raw ∈ f.usedNames u, scheme.matchesName raw (.text name) = .ok true

omit [DecidableEq υ] in
theorem resolve_ok (f : Facts υ) (version suffix name : RawText) :
    ∃ vs, f.resolve (ofTexts version suffix) (.text name) = .ok vs ∧
      ∀ y, y ∈ vs ↔ Resolved f.declared (ofTexts version suffix) name y := by
  choose test htest using fun y : Variable => exists_matchesName_ok version suffix y.name name
  have hok : ∀ y, (ofTexts version suffix).resolves y.name (.text name) = .ok (test y) := by
    intro y
    rw [resolves_eq_matchesName, htest]
  refine ⟨_, keepIf_ok fun y _ => hok y, fun y => ?_⟩
  rw [List.mem_filter, List.mem_eraseDups, Resolved, hok, Except.ok.injEq]

omit [DecidableEq υ] in
theorem usersOf_ok (f : Facts υ) (version suffix name : RawText) (units : List υ) :
    ∃ seeds, f.usersOf (ofTexts version suffix) (.text name) units = .ok seeds ∧
      ∀ u, u ∈ seeds ↔ u ∈ units ∧ UsesName f (ofTexts version suffix) name u := by
  choose test htest using fun raw => exists_matchesName_ok version suffix raw name
  refine ⟨_, keepIf_ok fun u _ => anyOf_ok fun raw _ => htest raw, fun u => ?_⟩
  simp only [List.mem_filter, List.any_eq_true, UsesName, htest, Except.ok.injEq]

omit [DecidableEq υ] in
theorem mem_unitsOn {l : Int} : u ∈ f.unitsOn (some l) ↔ u ∈ f.units ∧ f.line u = some l := by
  simp [Facts.unitsOn]

theorem hasEdge_control (h : Mirrors f g) (hs : s ∈ f.units) :
    g.hasEdge p s (some .control) = true ↔ p ∈ f.frontier s := by
  simp [hasEdge, h.control_iff, hs]

def Kept (f : Facts υ) (g : DependenceGraph υ) (vs : List Variable) (s p : υ) : Prop :=
  p ∈ g.sources s ∧ (p ∈ f.frontier s ∨ ∃ x ∈ vs, p ∈ f.reachingDefs x s)

theorem gatherKept_ok (vs : List Variable) (h : Mirrors f g) (hseeds : ∀ s ∈ seeds, s ∈ f.units) :
    ∃ ns, gatherKept g f (.ok vs) seeds = .ok ns ∧ ∀ p, p ∈ ns ↔ ∃ s ∈ seeds, Kept f g vs s p := by
  induction seeds with
  | nil => exact ⟨[], rfl, by simp⟩
  | cons s seeds ih =>
    have hs : s ∈ f.units := hseeds s (List.mem_cons_self ..)
    obtain ⟨rest, hrest, hmem⟩ := ih fun t ht => hseeds t (List.mem_cons_of_mem _ ht)
    have hpred : g.predecessors s = .ok (g.sources s).eraseDups := by
      rw [predecessors, if_pos ((h.mem_units s).mpr hs)]
    have hkeep : keepIf (keeps g f (.ok vs) s) (g.sources s).eraseDups =
        .ok ((g.sources s).eraseDups.filter fun p => g.hasEdge p s (some .control) ||
          vs.any fun x => p ∈ f.reachingDefs x s) := by
      refine keepIf_ok fun p _ => ?_
      unfold keeps
      split
      · rename_i hc
        rw [hc, Bool.true_or]
      · rename_i hc
        rw [Bool.not_eq_true] at hc
        rw [hc, Bool.false_or]
        rfl
    refine ⟨((g.sources s).eraseDups.filter fun p => g.hasEdge p s (some .control) ||
      vs.any fun x => p ∈ f.reachingDefs x s) ++ rest, ?_, fun p => ?_⟩
    · simp only [gatherKept, hpred, Except.mapError, bind, Except.bind, hkeep, hrest]
      rfl
    · simp only [List.mem_append, List.mem_filter, List.mem_eraseDups, Bool.or_eq_true,
        hasEdge_control h hs, List.any_eq_true, decide_eq_true_eq, hmem, List.exists_mem_cons_iff]
      rfl

theorem narrow_ok (h : Mirrors f g)
    (hname : ∃ y, Resolved f.declared (ofTexts version suffix) name y)
    (hseeds : ∀ s ∈ seeds, s ∈ f.units) :
    ∃ ns, narrow g f (ofTexts version suffix) (.text name) seeds = .ok ns ∧
      ∀ p, p ∈ ns ↔ ∃ s ∈ seeds, p ∈ g.sources s ∧ (p ∈ f.frontier s ∨
        ∃ y, Resolved f.declared (ofTexts version suffix) name y ∧ p ∈ f.reachingDefs y s) := by
  obtain ⟨vs, hvs, hresolved⟩ := resolve_ok f version suffix name
  have hvars : variablesOf f (ofTexts version suffix) (.text name) = .ok vs := by
    obtain ⟨y, hy⟩ := hname
    rw [variablesOf, hvs]
    cases vs with
    | nil => exact absurd ((hresolved y).mpr hy) (List.not_mem_nil)
    | cons => rfl
  obtain ⟨ns, hns, hkept⟩ := gatherKept_ok vs h hseeds
  refine ⟨ns.eraseDups, ?_, fun p => ?_⟩
  · rw [narrow, hvars, hns]
    rfl
  · simp only [List.mem_eraseDups, hkept, Kept, ← hresolved]

/-- The results of the steps of a query for a name that some variable answers to. -/
structure Stages (f : Facts υ) (scheme : NameScheme) (line : Option Int) (name : RawText)
    (g : DependenceGraph υ) (seeds narrowed closed : List υ) : Prop where
  built : ofFacts f = .ok g
  mirrors : Mirrors f g
  users : f.usersOf scheme (.text name) (f.unitsOn line) = .ok seeds
  mem_seeds : ∀ u, u ∈ seeds ↔ u ∈ f.unitsOn line ∧ UsesName f scheme name u
  narrows : narrow g f scheme (.text name) seeds = .ok narrowed
  mem_narrowed : ∀ p, p ∈ narrowed ↔ ∃ s ∈ seeds, p ∈ g.sources s ∧
    (p ∈ f.frontier s ∨ ∃ y, Resolved f.declared scheme name y ∧ p ∈ f.reachingDefs y s)
  closes : closure g narrowed none = .ok closed
  nodup : closed.Nodup
  mem_closed : ∀ w, w ∈ closed ↔ Behind g narrowed w
  closes_within : ∀ b : Nat, closure g narrowed (some b) =
    if closed.length ≤ b then .ok closed else .error (.truncated b b)

omit [DecidableEq υ] in
theorem unitsOn_subset {line : Option Int} (hu : u ∈ f.unitsOn line) : u ∈ f.units := by
  cases line with
  | none => cases hu
  | some l => exact (mem_unitsOn.mp hu).1

theorem stages_ok (hf : Closed f) (line : Option Int)
    (hname : ∃ y, Resolved f.declared (ofTexts version suffix) name y) :
    ∃ g seeds narrowed closed,
      Stages f (ofTexts version suffix) line name g seeds narrowed closed := by
  obtain ⟨g, hg, hmirrors⟩ := ofFacts_ok hf
  obtain ⟨seeds, hseeds, hmem⟩ := usersOf_ok f version suffix name (f.unitsOn line)
  have hsub : ∀ s ∈ seeds, s ∈ f.units := fun s hs => unitsOn_subset ((hmem s).mp hs).1
  obtain ⟨ns, hns, hkept⟩ := narrow_ok hmirrors hname hsub
  have hnarrowed : ∀ p ∈ ns, p ∈ g.units := by
    intro p hp
    obtain ⟨s, _, hp, _⟩ := (hkept p).mp hp
    obtain ⟨k, he⟩ := mem_sources.mp hp
    exact hmirrors.source_mem _ he
  obtain ⟨N, hN, hnodup, hbehind, hbudget⟩ := closure_ok hmirrors.toRegular hnarrowed
  exact ⟨g, seeds, ns, N, hg, hmirrors, hseeds, hmem, hns, hkept, hN, hnodup, hbehind, hbudget⟩

variable {scheme : NameScheme} {line : Option Int} {narrowed closed : List υ}

def labelsOf (f : Facts υ) (line : Option Int) (closed : List υ) : List Label :=
  (line.toList.map Label.line ++ closed.map fun u => Label.ofLine (f.line u)).eraseDups

theorem Stages.closed_mem (h : Stages f scheme line name g seeds narrowed closed)
    (hu : u ∈ closed) : u ∈ f.units := by
  rw [← h.mirrors.mem_units]
  obtain ⟨p, hp, hpu⟩ := (h.mem_closed u).mp hu
  have hunits : ∀ {v w : υ}, v ∈ g.sources w → v ∈ g.units := by
    intro v w hv
    obtain ⟨k, he⟩ := mem_sources.mp hv
    exact h.mirrors.source_mem _ he
  induction hpu with
  | refl =>
    obtain ⟨s, _, hsource, _⟩ := (h.mem_narrowed p).mp hp
    exact hunits hsource
  | tail _ hstep _ => exact hunits hstep

theorem Stages.project_ok (h : Stages f scheme line name g seeds narrowed closed) :
    project f line closed = .ok (labelsOf f line closed) := by
  have hnone : closed.find? (· ∉ f.units) = none := by
    rw [List.find?_eq_none]
    intro u hu
    simpa using h.closed_mem hu
  rw [project, hnone, labelsOf]

theorem outcome_unknown (budget : Option Int)
    (hnone : ∀ y, ¬ Resolved f.declared (ofTexts version suffix) name y) :
    (query f (ofTexts version suffix) budget ⟨line, .text name⟩).outcome =
      .error (.unknownVariable (.text name)) := by
  obtain ⟨vs, hvs, hresolved⟩ := resolve_ok f version suffix name
  obtain rfl : vs = [] :=
    List.eq_nil_iff_forall_not_mem.mpr fun y hy => hnone y ((hresolved y).mp hy)
  simp only [query, Traced.outcome_bind, Traced.outcome_report, Traced.outcome_lift, hvs,
    Except.mapError, ok_bind, List.isEmpty_nil, if_true, Traced.outcome_throw, error_bind]

theorem outcome_dependences (hg : ofFacts f = .ok g) : (dependences f).outcome = .ok g := by
  simp only [dependences, Traced.outcome_bind, Traced.outcome_report, Traced.outcome_lift, hg,
    Except.mapError, ok_bind, Traced.outcome_pure]

omit [DecidableEq υ] in
theorem outcome_reportIf (c : Bool) (e : Event) (k : Traced (SliceError υ) (List Label)) :
    (if c = true then (do Traced.report e; k) else k).outcome = k.outcome := by
  cases c <;> simp [ok_bind]

theorem Stages.outcome (h : Stages f (ofTexts version suffix) line name g seeds narrowed closed)
    (hname : ∃ y, Resolved f.declared (ofTexts version suffix) name y) (budget : Option Int) :
    (query f (ofTexts version suffix) budget ⟨line, .text name⟩).outcome =
      if narrowed = [] then .ok [] else closure g narrowed budget >>= project f line := by
  obtain ⟨vs, hvs, hresolved⟩ := resolve_ok f version suffix name
  obtain ⟨y, hy⟩ := hname
  have hvars : ¬ vs.isEmpty = true := by
    rw [List.isEmpty_iff]
    exact List.ne_nil_of_mem ((hresolved y).mpr hy)
  simp only [query, Traced.outcome_bind, Traced.outcome_report, Traced.outcome_lift, hvs,
    Except.mapError, ok_bind, if_neg hvars, outcome_dependences h.built, h.users]
  by_cases hseeds : seeds = []
  · -- without a seed nothing is narrowed
    subst hseeds
    have hnarrowed : narrowed = [] := List.eq_nil_iff_forall_not_mem.mpr fun p hp => by
      simpa using (h.mem_narrowed p).mp hp
    simp only [List.isEmpty_nil, if_true, hnarrowed, Traced.outcome_bind, Traced.outcome_report,
      ok_bind, Traced.outcome_pure]
  · rw [if_neg (by rwa [List.isEmpty_iff])]
    have hid : ∀ {α : Type} (x : Except (SliceError υ) α), x.mapError id = x := by
      intro α x
      cases x <;> rfl
    rw [outcome_reportIf]
    simp only [Traced.outcome_bind, Traced.outcome_report, Traced.outcome_lift, h.narrows, hid,
      ok_bind]
    by_cases hnarrowed : narrowed = []
    · simp only [hnarrowed, List.isEmpty_nil, if_true, Traced.outcome_bind, Traced.outcome_report,
        ok_bind, Traced.outcome_pure]
    · rw [if_neg (by rwa [List.isEmpty_iff]), if_neg hnarrowed]
      simp only [Traced.outcome_bind, Traced.outcome_report, Traced.outcome_lift, hid, ok_bind,
        Traced.outcome_pure]
      cases closure g narrowed budget with
      | error e => rfl
      | ok units =>
        simp only [ok_bind]
        cases project f line units <;> rfl

theorem outcome_no_line (hf : Closed f)
    (hname : ∃ y, Resolved f.declared (ofTexts version suffix) name y) (budget : Option Int) :
    (query f (ofTexts version suffix) budget ⟨none, .text name⟩).outcome = .ok [] := by
  obtain ⟨g, seeds, narrowed, closed, h⟩ := stages_ok hf none hname
  have hnarrowed : narrowed = [] := List.eq_nil_iff_forall_not_mem.mpr fun p hp => by
    obtain ⟨s, hs, _⟩ := (h.mem_narrowed p).mp hp
    cases ((h.mem_seeds s).mp hs).1
  rw [h.outcome hname, if_pos hnarrowed]

theorem Stages.outcome_of_fits
    (h : Stages f (ofTexts version suffix) line name g seeds narrowed closed)
    (hname : ∃ y, Resolved f.declared (ofTexts version suffix) name y) (hne : narrowed ≠ [])
    {budget : Option Nat} (hfits : ∀ b ∈ budget, closed.length ≤ b) :
    (query f (ofTexts version suffix) (budget.map Int.ofNat) ⟨line, .text name⟩).outcome =
      .ok (labelsOf f line closed) := by
  have hclose : closure g narrowed (budget.map Int.ofNat) = .ok closed := by
    cases budget with
    | none => exact h.closes
    | some b => exact (h.closes_within b).trans (if_pos (hfits b rfl))
  rw [h.outcome hname, if_neg hne, hclose, ok_bind, h.project_ok]

theorem Stages.outcome_of_exceeds
    (h : Stages f (ofTexts version suffix) line name g seeds narrowed closed)
    (hname : ∃ y, Resolved f.declared (ofTexts version suffix) name y) (hne : narrowed ≠ [])
    {b : Nat} (hexceeds : b < closed.length) :
    (query f (ofTexts version suffix) (some b) ⟨line, .text name⟩).outcome =
      .error (.truncated b b) := by
  rw [h.outcome hname, if_neg hne, h.closes_within, if_neg (Nat.not_le.mpr hexceeds), error_bind]

theorem query_labels (hf : Closed f) {budget : Option Int} {labels : List Label} {l : Label}
    (h : (query f (ofTexts version suffix) budget ⟨line, .text name⟩).outcome = .ok labels)
    (hl : l ∈ labels) :
    (∃ n, line = some n ∧ l = .line n) ∨ ∃ u, l = .ofLine (f.line u) := by
  by_cases hname : ∃ y, Resolved f.declared (ofTexts version suffix) name y
  · obtain ⟨g, seeds, narrowed, closed, hstages⟩ := stages_ok hf line hname
    rw [hstages.outcome hname] at h
    split at h
    · cases h
      cases hl
    · obtain ⟨units, _, h⟩ := exists_of_bind_eq_ok h
      unfold project at h
      split at h
      · cases h
      · cases h
        rw [List.mem_eraseDups, List.mem_append, List.mem_map, List.mem_map] at hl
        rcases hl with ⟨n, hn, rfl⟩ | ⟨u, _, rfl⟩
        · exact .inl ⟨n, by simpa using hn, rfl⟩
        · exact .inr ⟨u, rfl⟩
  · rw [outcome_unknown budget (by simpa using hname)] at h
    cases h

end Backslice.Slice

import Backslice.Proofs.Flow.Sites

namespace Backslice.Flow

open Draft
open Site (At Stray)

def sitesWith (body : List Site) : List Site := { kind := .entry, line := none } :: body

structure Shape (g : Graph) (sites : List Site) : Prop where
  ids_eq : g.ids = (List.range g.nodes.length).map Int.ofNat
  outline_eq : (g.nodes.map fun n => (n.kind, n.line)) = sites.map Site.outline
  entry : ∃ n ∈ g.nodes, n.id = 0 ∧ n.kind = .entry
  line_eq_none : ∀ n ∈ g.nodes, n.line = none ↔ n.id = 0
  predecessors_entry : g.predecessors 0 = []
  successors_exit : g.successors exitId = []
  successors_eq_nil : ∀ v s, At sites 0 v s → (g.successors v = [] ↔ Stray sites s)
  successors_le_one : ∀ n ∈ g.nodes, n.kind.isTest = false → (g.successors n.id).length ≤ 1

theorem build_gains (parameters : List Variable) (body : Stmt) :
    Gains {} (build parameters body) (sitesWith body.sites) := by
  have hempty : ({} : Draft).Packed := fun v hv => absurd hv List.not_mem_nil
  have hentry := hempty.add (entryPoint parameters) []
  have hbody := hentry.trans (emit_gains body {} hentry.packed [⟨0, ""⟩])
  exact (hbody.tie _ exitId).foldl_land _

section Build

variable (parameters : List Variable) {body : Stmt} {v w : Int} {s : Site} {name : String}

theorem mem_labels_build : (name, v) ∈ (build parameters body).labels ↔
    ∃ s, At body.sites 1 v s ∧ s.bears = some name := by
  have hentry : ({ kind := .entry, line := none } : Site).bears = none := rfl
  rw [(build_gains parameters body).labels_iff]
  simp [sitesWith, base, or_and_right, exists_or]

theorem bears_of_lookup (hw : (build parameters body).labels.lookup name = some w) :
    ∃ s, At body.sites 1 w s ∧ s.bears = some name := by
  obtain ⟨l₁, l₂, hlabels, _⟩ := List.lookup_eq_some_iff.mp hw
  rw [← mem_labels_build parameters, hlabels, List.mem_append]
  exact .inr List.mem_cons_self

theorem exists_lookup_of_bears (hs : s ∈ sitesWith body.sites) (hbears : s.bears = some name) :
    ∃ w, (build parameters body).labels.lookup name = some w := by
  rcases List.mem_cons.mp hs with rfl | hs
  · cases hbears
  obtain ⟨v, hv⟩ := Site.exists_at_of_mem hs 1
  rw [← Option.isSome_iff_exists, List.lookup_isSome_iff]
  exact ⟨(name, v), (mem_labels_build parameters).mpr ⟨s, hv, hbears⟩, beq_self_eq_true name⟩

theorem not_step_entry : ¬ (build parameters body).graph.Step v 0 := by
  rw [(build_ok parameters body).2.2]
  rintro (⟨_, ⟨_, hw⟩ | ⟨_, hw⟩⟩ | hleads | ⟨hw, _⟩ | ⟨name, _, hlabel⟩)
  · cases hw
  · cases hw
  · exact absurd (hleads.within.2 0 rfl).1 (by decide)
  · cases hw
  · obtain ⟨s, hs, _⟩ := bears_of_lookup parameters hlabel
    exact absurd hs.within.1 (by decide)

theorem step_entry_iff : (build parameters body).graph.Step 0 w ↔
    w = if body.size = 0 then exitId else 1 := by
  have hnone : ∀ t, ¬ body.Leads 1 0 t := fun t ht => absurd ht.within.1.1 (by decide)
  rw [(build_ok parameters body).2.2]
  split <;> simp_all

def landing? (labels : List (String × NodeId)) : Target → Option NodeId
  | .node w => some w
  | .leave .done | .leave .returned => some exitId
  | .leave (.jumped name) => labels.lookup name
  | .leave .broke | .leave .continued => none

theorem step_body_iff (hs : At body.sites 1 v s) : (build parameters body).graph.Step v w ↔
    ∃ t, body.Leads 1 v t ∧ landing? (build parameters body).labels t = some w := by
  have hv : v ≠ 0 := by
    rintro rfl
    exact absurd hs.within.1 (by decide)
  rw [(build_ok parameters body).2.2]
  constructor
  · rintro (⟨hzero, _⟩ | ht | ⟨rfl, ht | ht⟩ | ⟨name, ht, hw⟩)
    · exact absurd hzero hv
    · exact ⟨_, ht, rfl⟩
    · exact ⟨_, ht, rfl⟩
    · exact ⟨_, ht, rfl⟩
    · exact ⟨_, ht, hw⟩
  · rintro ⟨t, ht, hw⟩
    cases t with
    | node u => exact .inr (.inl (Option.some.inj hw ▸ ht))
    | leave f =>
      cases f with
      | done => exact .inr (.inr (.inl ⟨(Option.some.inj hw).symm, .inl ht⟩))
      | returned => exact .inr (.inr (.inl ⟨(Option.some.inj hw).symm, .inr ht⟩))
      | jumped name => exact .inr (.inr (.inr ⟨name, ht, hw⟩))
      | broke | continued => cases hw

theorem leads_iff_jumps (h : body.Proper) (hs : At body.sites 1 v s) {f : Finish}
    (hdone : f ≠ .done) (hreturned : f ≠ .returned) :
    body.Leads 1 v (.leave f) ↔ s.Jumps f := by
  rw [Stmt.leads_leave_iff h hdone hreturned]
  constructor
  · rintro ⟨s', hs', hj⟩
    rwa [hs.unique hs']
  · exact fun hj => ⟨s, hs, hj⟩

theorem leads_unique (h : body.Proper) (hs : At body.sites 1 v s) (hkind : s.kind.isTest = false)
    {t t' : Target} (ht : body.Leads 1 v t) (ht' : body.Leads 1 v t') : t = t' :=
  ht.unique h (fun _ hs' => by rwa [hs'.unique hs]) ht'

theorem exists_step_of_not_stray (h : body.Proper) (hs : At body.sites 1 v s)
    (hstray : ¬ Stray (sitesWith body.sites) s) :
    ∃ w, (build parameters body).graph.Step v w := by
  obtain ⟨t, ht⟩ := Stmt.exists_leads h hs.within.1 (by simpa using hs.within.2)
  suffices hw : ∃ w, landing? (build parameters body).labels t = some w by
    obtain ⟨w, hw⟩ := hw
    exact ⟨w, (step_body_iff parameters hs).mpr ⟨t, ht, hw⟩⟩
  rw [Site.stray_iff] at hstray
  push Not at hstray
  cases t with
  | node w => exact ⟨w, rfl⟩
  | leave f =>
    by_cases hdone : f = .done
    · exact ⟨exitId, by rw [hdone]; rfl⟩
    by_cases hreturned : f = .returned
    · exact ⟨exitId, by rw [hreturned]; rfl⟩
    obtain ⟨name, rfl, s', hs', hbears⟩ := hstray f ((leads_iff_jumps h hs hdone hreturned).mp ht)
    exact exists_lookup_of_bears parameters hs' hbears

theorem not_step_of_stray (h : body.Proper) (hs : At body.sites 1 v s)
    (hstray : Stray (sitesWith body.sites) s) : ¬ (build parameters body).graph.Step v w := by
  obtain ⟨f, hj, hnone⟩ := Site.stray_iff.mp hstray
  have hdone : f ≠ .done := by
    rintro rfl
    cases hj
  have hreturned : f ≠ .returned := by
    rintro rfl
    cases hj
  have hleads := (leads_iff_jumps h hs hdone hreturned).mpr hj
  rw [step_body_iff parameters hs]
  rintro ⟨t, ht, hw⟩
  obtain rfl := leads_unique h hs (Stmt.isTest_of_jumps h hs.mem hj) ht hleads
  cases f with
  | done | returned => cases hj
  | broke | continued => cases hw
  | jumped name =>
    obtain ⟨s', hs', hbears⟩ := bears_of_lookup parameters hw
    exact hnone name rfl s' (List.mem_cons_of_mem _ hs'.mem) hbears

theorem step_unique (h : body.Proper) (hs : At body.sites 1 v s) (hkind : s.kind.isTest = false)
    {w' : Int} (hw : (build parameters body).graph.Step v w)
    (hw' : (build parameters body).graph.Step v w') : w = w' := by
  rw [step_body_iff parameters hs] at hw hw'
  obtain ⟨t, ht, hw⟩ := hw
  obtain ⟨t', ht', hw'⟩ := hw'
  obtain rfl := leads_unique h hs hkind ht ht'
  exact Option.some.inj (hw.symm.trans hw')

end Build

theorem exists_site_of_mem {g : Graph} {sites : List Site} {n : Node}
    (hids : g.ids = (List.range g.nodes.length).map Int.ofNat)
    (houtline : (g.nodes.map fun n => (n.kind, n.line)) = sites.map Site.outline)
    (hn : n ∈ g.nodes) : ∃ s, At sites 0 n.id s ∧ n.kind = s.kind ∧ n.line = s.line := by
  obtain ⟨k, hk⟩ := List.mem_iff_getElem?.mp hn
  obtain ⟨hlt, hget⟩ := List.getElem?_eq_some_iff.mp hk
  have hid : n.id = k := by simpa [Graph.ids, hlt, hget] using congrArg (·[k]?) hids
  have hsite : (sites.map Site.outline)[k]? = some (n.kind, n.line) := by
    rw [← houtline, List.getElem?_map, hk, Option.map_some]
  rw [List.getElem?_map, Option.map_eq_some_iff] at hsite
  obtain ⟨s, hs, heq⟩ := hsite
  obtain ⟨hkind, hline⟩ := Prod.mk.inj heq
  exact ⟨s, ⟨k, by rw [hid, Int.zero_add], hs⟩, hkind.symm, hline.symm⟩

theorem at_sitesWith {body : List Site} {v : Int} {s : Site} : At (sitesWith body) 0 v s ↔
    (v = 0 ∧ s = { kind := .entry, line := none }) ∨ At body 1 v s := Site.at_cons

theorem not_stray_entry (sites : List Site) :
    ¬ Stray sites { kind := .entry, line := none } := by
  simp [Stray]

theorem build_shape (parameters : List Variable) {body : Stmt} (h : body.Proper)
    (hline : ∀ s ∈ body.sites, s.line ≠ none) :
    Shape (build parameters body).graph (sitesWith body.sites) := by
  obtain ⟨hfit, hbase, -⟩ := build_ok parameters body
  have houtline : (build parameters body).outline = (sitesWith body.sites).map Site.outline :=
    (build_gains parameters body).outline_eq
  have hsite {n : Node} := exists_site_of_mem (n := n) hfit.ids_eq houtline
  constructor
  case ids_eq => exact hfit.ids_eq
  case outline_eq => exact houtline
  case entry =>
    have hknown : (build parameters body).Knows 0 := ⟨Int.le_refl 0, by omega⟩
    obtain ⟨n, hn, hid⟩ := Graph.mem_ids_iff.mp (hfit.mem_ids.mpr hknown)
    obtain ⟨s, hs, hkind, _⟩ := hsite hn
    refine ⟨n, hn, hid, ?_⟩
    rcases at_sitesWith.mp hs with ⟨_, rfl⟩ | hs
    · exact hkind
    · rw [hid] at hs
      exact absurd hs.within.1 (by decide)
  case line_eq_none =>
    intro n hn
    obtain ⟨s, hs, _, hs'⟩ := hsite hn
    rw [hs']
    rcases at_sitesWith.mp hs with ⟨hid, rfl⟩ | hs
    · exact ⟨fun _ => hid, fun _ => rfl⟩
    · refine ⟨fun hnone => absurd hnone (hline s hs.mem), fun hid => ?_⟩
      rw [hid] at hs
      exact absurd hs.within.1 (by decide)
  case predecessors_entry =>
    refine List.eq_nil_iff_forall_not_mem.mpr fun v hv => ?_
    exact not_step_entry parameters ((hfit.built.sound.mem_predecessors v 0).mp hv)
  case successors_exit => exact hfit.successors_exit
  case successors_eq_nil =>
    intro v s hs
    rw [List.eq_nil_iff_forall_not_mem]
    rcases at_sitesWith.mp hs with ⟨rfl, rfl⟩ | hs
    · refine iff_of_false (fun hnone => ?_) (not_stray_entry _)
      exact hnone _ ((step_entry_iff parameters).mpr rfl)
    · constructor
      · intro hnone
        by_contra hstray
        obtain ⟨w, hw⟩ := exists_step_of_not_stray parameters h hs hstray
        exact hnone w hw
      · exact fun hstray w => not_step_of_stray parameters h hs hstray
  case successors_le_one =>
    intro n hn hkind
    obtain ⟨s, hs, hs', _⟩ := hsite hn
    have hunique : ∀ w w', (build parameters body).graph.Step n.id w →
        (build parameters body).graph.Step n.id w' → w = w' := by
      intro w w' hw hw'
      rcases at_sitesWith.mp hs with ⟨hid, rfl⟩ | hs
      · rw [hid] at hw hw'
        rw [(step_entry_iff parameters).mp hw, (step_entry_iff parameters).mp hw']
      · exact step_unique parameters h hs (hs' ▸ hkind) hw hw'
    exact hfit.built.length_successors_le_one hunique

end Backslice.Flow

import Backslice.Proofs.Flow.Wiring

namespace Backslice.Flow

open Backslice.Graph

def From (ends : List LooseEnd) (v : Int) : Prop := ∃ e ∈ ends, e.source = v

@[simp] theorem from_nil (v : Int) : ¬ From [] v := by simp [From]

@[simp] theorem from_cons (e : LooseEnd) (ends : List LooseEnd) (v : Int) :
    From (e :: ends) v ↔ v = e.source ∨ From ends v := by
  simp [From, eq_comm]

@[simp] theorem from_append (ends ends' : List LooseEnd) (v : Int) :
    From (ends ++ ends') v ↔ From ends v ∨ From ends' v := by
  simp [From, or_and_right, exists_or]

@[simp] theorem from_looseEnds (ids : List NodeId) (v : Int) :
    From (looseEnds ids) v ↔ v ∈ ids := by
  simp [From, looseEnds]

namespace Draft

def base (d : Draft) : Int := d.graph.nodes.length

@[simp] theorem nextId_eq (d : Draft) : d.nextId = d.base := rfl

def Knows (d : Draft) (v : Int) : Prop := 0 ≤ v ∧ v < d.base

structure Fit (d : Draft) : Prop where
  built : d.graph.Built
  ids_eq : d.graph.ids = (List.range d.graph.nodes.length).map Int.ofNat
  exit_stuck : ∀ w, ¬ d.graph.Step exitId w
  labels_known : ∀ e ∈ d.labels, d.Knows e.2
  gotos_known : ∀ e ∈ d.gotos, d.Knows e.1

variable {d d' d'' : Draft} {v w source target : Int} {label : String} {ends : List LooseEnd}
  {p : Point}

theorem Fit.mem_ids (h : d.Fit) : v ∈ d.graph.ids ↔ d.Knows v := by
  rw [h.ids_eq, List.mem_map, Knows, base]
  constructor
  · rintro ⟨k, hk, rfl⟩
    rw [List.mem_range] at hk
    exact ⟨Int.natCast_nonneg k, Int.ofNat_lt.mpr hk⟩
  · rintro ⟨hv, hlt⟩
    refine ⟨v.toNat, ?_, Int.toNat_of_nonneg hv⟩
    rw [List.mem_range]
    omega

theorem Fit.successors_exit (h : d.Fit) : d.graph.successors exitId = [] :=
  List.eq_nil_iff_forall_not_mem.mpr h.exit_stuck

theorem Knows.mono (h : d.Knows v) (hle : d.base ≤ d'.base) : d'.Knows v :=
  ⟨h.1, Int.lt_of_lt_of_le h.2 hle⟩

structure Extends (d d' : Draft) (k : Nat) (E : Int → Int → Prop) (J : Int → String → Prop) :
    Prop where
  fit : d'.Fit
  base_eq : d'.base = d.base + k
  step_iff : ∀ v w, d'.graph.Step v w ↔ d.graph.Step v w ∨ E v w
  gotos_iff : ∀ v name, (v, name) ∈ d'.gotos ↔ (v, name) ∈ d.gotos ∨ J v name

theorem Extends.trans {k k' : Nat} {E E' : Int → Int → Prop} {J J' : Int → String → Prop}
    (h : Extends d d' k E J) (h' : Extends d' d'' k' E' J') :
    Extends d d'' (k + k') (fun v w => E v w ∨ E' v w) (fun v name => J v name ∨ J' v name) where
  fit := h'.fit
  base_eq := by rw [h'.base_eq, h.base_eq]; omega
  step_iff v w := by rw [h'.step_iff, h.step_iff, or_assoc]
  gotos_iff v name := by rw [h'.gotos_iff, h.gotos_iff, or_assoc]

theorem Extends.base_le {k : Nat} {E : Int → Int → Prop} {J : Int → String → Prop}
    (h : Extends d d' k E J) : d.base ≤ d'.base := by
  rw [h.base_eq]
  omega

theorem Extends.congr {k k' : Nat} {E E' : Int → Int → Prop} {J J' : Int → String → Prop}
    (h : Extends d d' k E J) (hk : k = k') (hE : ∀ v w, E v w ↔ E' v w)
    (hJ : ∀ v name, J v name ↔ J' v name) : Extends d d' k' E' J' where
  fit := h.fit
  base_eq := hk ▸ h.base_eq
  step_iff v w := by rw [h.step_iff, hE]
  gotos_iff v name := by rw [h.gotos_iff, hJ]

theorem Extends.warn {k : Nat} {E : Int → Int → Prop} {J : Int → String → Prop}
    {warning : FlowWarning} (h : Extends d d' k E J) : Extends d (d'.warn warning) k E J :=
  ⟨⟨h.fit.built, h.fit.ids_eq, h.fit.exit_stuck, h.fit.labels_known, h.fit.gotos_known⟩,
    h.base_eq, h.step_iff, h.gotos_iff⟩

theorem Fit.extends_refl (h : d.Fit) : Extends d d 0 (fun _ _ => False) (fun _ _ => False) where
  fit := h
  base_eq := by omega
  step_iff := by simp
  gotos_iff := by simp

theorem Fit.edge (h : d.Fit) (hs : d.Knows source) (ht : target = exitId ∨ d.Knows target)
    (label : String) : Extends d (d.edge source target label) 0
      (fun v w => v = source ∧ w = target) (fun _ _ => False) := by
  have hs' : source ∈ exitId :: d.graph.ids := List.mem_cons_of_mem _ (h.mem_ids.mpr hs)
  have ht' : target ∈ exitId :: d.graph.ids := by
    rcases ht with rfl | ht
    · exact List.mem_cons_self ..
    · exact List.mem_cons_of_mem _ (h.mem_ids.mpr ht)
  obtain ⟨g', isNew, he⟩ := h.built.sound.addEdge_ok hs' ht' label
  have hgraph : (d.edge source target label).graph = g' := by rw [Draft.edge, he]
  have hnodes : g'.nodes = d.graph.nodes := by
    have := nodes_addEdge d.graph source target label
    rwa [he] at this
  have hbase : (d.edge source target label).base = d.base := by rw [base, hgraph, hnodes, base]
  have hstep : ∀ v w, (d.edge source target label).graph.Step v w ↔
      d.graph.Step v w ∨ (v = source ∧ w = target) := by
    intro v w
    rw [hgraph]
    exact step_addEdge he
  refine ⟨⟨?_, ?_, ?_, ?_, ?_⟩, by rw [hbase]; omega, hstep, by simp [Draft.edge]⟩
  · rw [hgraph]
    exact h.built.addEdge he
  · rw [hgraph, Graph.ids, hnodes]
    exact h.ids_eq
  · intro w hw
    rcases (hstep exitId w).mp hw with hw | ⟨hexit, _⟩
    · exact h.exit_stuck w hw
    · rw [← hexit] at hs
      exact absurd hs.1 (by decide)
  · exact fun e he => (h.labels_known e he).mono (Int.le_of_eq hbase.symm)
  · exact fun e he => (h.gotos_known e he).mono (Int.le_of_eq hbase.symm)

theorem Fit.tie (h : d.Fit) (hends : ∀ v, From ends v → d.Knows v)
    (ht : target = exitId ∨ d.Knows target) : Extends d (d.tie ends target) 0
      (fun v w => From ends v ∧ w = target) (fun _ _ => False) := by
  induction ends generalizing d with
  | nil => exact h.extends_refl.congr rfl (by simp) (by simp)
  | cons e ends ih =>
    have h₁ := h.edge (hends e.source (by simp)) ht e.label
    have h₂ := ih h₁.fit (fun v hv => (hends v (by simp [hv])).mono h₁.base_le)
      (ht.imp_right (·.mono h₁.base_le))
    refine (h₁.trans h₂).congr rfl (fun v w => ?_) (by simp)
    rw [from_cons]
    tauto

theorem Fit.add (h : d.Fit) (hends : ∀ v, From ends v → d.Knows v) (p : Point) :
    Extends d (d.add p ends) 1 (fun v w => From ends v ∧ w = d.base) (fun _ _ => False) := by
  have hfresh : d.nextId ∉ d.graph.ids := by
    rw [h.mem_ids, nextId_eq, Knows]
    omega
  have hexit : d.nextId ≠ exitId := by
    have hne : d.base ≠ -1 := by
      rw [base]
      omega
    exact hne
  have hnodes : (d.graph.addNode { p with id := d.nextId }).nodes =
      d.graph.nodes ++ [{ p with id := d.nextId }] := by
    rw [addNode, if_neg (by rwa [node?_isSome])]
  let added : Draft := { d with graph := d.graph.addNode { p with id := d.nextId } }
  have hbase : added.base = d.base + 1 := by
    show ((d.graph.addNode { p with id := d.nextId }).nodes.length : Int) = _
    rw [hnodes, List.length_append, List.length_singleton, base]
    omega
  have hgrows : d.base ≤ added.base := by omega
  have hstep : ∀ v w, added.graph.Step v w ↔ d.graph.Step v w :=
    fun v w => h.built.sound.step_addNode hexit
  have hfit : added.Fit := by
    constructor
    · exact h.built.addNode hexit
    · show (d.graph.addNode { p with id := d.nextId }).ids = _
      rw [ids_addNode hfresh, h.ids_eq]
      show _ = (List.range (d.graph.addNode { p with id := d.nextId }).nodes.length).map _
      rw [hnodes, List.length_append, List.length_singleton, List.range_succ, List.map_append]
      rfl
    · exact fun w hw => h.exit_stuck w ((hstep exitId w).mp hw)
    · exact fun e he => (h.labels_known e he).mono hgrows
    · exact fun e he => (h.gotos_known e he).mono hgrows
  have hadded : Extends d added 1 (fun _ _ => False) (fun _ _ => False) :=
    ⟨hfit, by rw [hbase]; omega, by simp [hstep], fun v name => by simp [added]⟩
  have hknown : added.Knows d.base := ⟨by rw [base]; omega, by omega⟩
  have htie := hfit.tie (fun v hv => (hends v hv).mono hgrows) (.inr hknown)
  exact (hadded.trans htie).congr rfl (by simp) (by simp)

end Draft

open Draft

def Wires (s : Stmt) (around : Surroundings) (base : Int) (ends : List LooseEnd) (v w : Int) :
    Prop :=
  (s.size ≠ 0 ∧ w = base ∧ From ends v) ∨ s.Leads base v (.node w) ∨
    (around.switchTest = some v ∧ w ∈ s.caseIds base) ∨
    (around.loop = some (.node w) ∧ s.Leads base v (.leave .continued)) ∨
    (w = exitId ∧ s.Leads base v (.leave .returned))

structure Emits (s : Stmt) (around : Surroundings) (d : Draft) (ends : List LooseEnd)
    (o : Outcome) : Prop where
  draft : Extends d o.draft s.size (Wires s around d.base ends)
    fun v name => s.Leads d.base v (.leave (.jumped name))
  ends_iff : ∀ v, From o.ends v ↔ (s.size = 0 ∧ From ends v) ∨ s.Leads d.base v (.leave .done)
  breaks_iff : ∀ v, v ∈ o.breaks ↔ around.breakable = true ∧ s.Leads d.base v (.leave .broke)
  continues_iff : ∀ v, v ∈ o.continues ↔
    around.loop = some .later ∧ s.Leads d.base v (.leave .continued)

structure Surroundings.Fit (around : Surroundings) (d : Draft) : Prop where
  switchTest : ∀ v, around.switchTest = some v → d.Knows v
  loop : ∀ v, around.loop = some (.node v) → d.Knows v

theorem base_nonneg (d : Draft) : 0 ≤ d.base := Int.natCast_nonneg _

section Emits

variable {s first second body : Stmt} {around : Surroundings} {d : Draft} {ends : List LooseEnd}
  {o a b : Outcome} {v : Int} {t : Target} {test p : Point}

theorem Emits.knows (h : Emits s around d ends o) (hv : s.Leads d.base v t) :
    o.draft.Knows v := by
  have hrange := hv.within.1
  have hbase := h.draft.base_eq
  have := base_nonneg d
  exact ⟨by omega, by omega⟩

theorem Emits.base_le (h : Emits s around d ends o) : d.base ≤ o.draft.base := h.draft.base_le

theorem Emits.ends_known (h : Emits s around d ends o) (hends : ∀ v, From ends v → d.Knows v) :
    ∀ v, From o.ends v → o.draft.Knows v := by
  intro v hv
  rcases (h.ends_iff v).mp hv with ⟨_, hv⟩ | hv
  · exact (hends v hv).mono h.base_le
  · exact h.knows hv

theorem Surroundings.Fit.mono {d' : Draft} (h : around.Fit d) (hle : d.base ≤ d'.base) :
    around.Fit d' where
  switchTest v hv := (h.switchTest v hv).mono hle
  loop v hv := (h.loop v hv).mono hle

theorem knows_single (h : d.Knows v) {label : String} : ∀ w, From [⟨v, label⟩] w → d.Knows w := by
  intro w hw
  simp only [from_cons, from_nil, or_false] at hw
  exact hw ▸ h

theorem Emits.seq (h₁ : Emits first around d ends a)
    (h₂ : Emits second around a.draft a.ends b) :
    Emits (.seq first second) around d ends
      { draft := b.draft, ends := b.ends, breaks := a.breaks ++ b.breaks,
        continues := a.continues ++ b.continues } := by
  have hbase : a.draft.base = d.base + first.size := h₁.draft.base_eq
  constructor
  · refine (h₁.draft.trans h₂.draft).congr rfl (fun v w => ?_) (fun v name => ?_)
    · simp only [Wires, h₁.ends_iff, hbase, Stmt.size, Stmt.Leads, Stmt.caseIds,
        Target.exists_before_node, Target.exists_before_leave, Stmt.head_eq_node_iff,
        Stmt.head_eq_leave_iff, List.mem_append]
      grind
    · simp [Stmt.Leads, hbase]
  · intro v
    simp only [h₂.ends_iff, h₁.ends_iff, hbase, Stmt.size, Stmt.Leads, Target.exists_before_leave,
      Stmt.head_eq_leave_iff]
    by_cases hsize : second.size = 0
    · simp [hsize]
      tauto
    · simp [hsize]
  · intro v
    simp [h₁.breaks_iff, h₂.breaks_iff, hbase, Stmt.Leads, and_or_left]
  · intro v
    simp [h₁.continues_iff, h₂.continues_iff, hbase, Stmt.Leads, and_or_left]

theorem Emits.branch {yes no : Stmt} (h : d.Fit) (hends : ∀ v, From ends v → d.Knows v)
    (h₁ : Emits yes { around with switchTest := none } (d.add test ends) [⟨d.base, "Y"⟩] a)
    (h₂ : Emits no { around with switchTest := none } a.draft [⟨d.base, "N"⟩] b) :
    Emits (.branch test yes no) around d ends
      { draft := b.draft, ends := a.ends ++ b.ends, breaks := a.breaks ++ b.breaks,
        continues := a.continues ++ b.continues } := by
  have hadd := h.add hends test
  have hbase : (d.add test ends).base = d.base + 1 := hadd.base_eq
  have hbase' : a.draft.base = d.base + 1 + yes.size := by rw [h₁.draft.base_eq, hbase]
  constructor
  · refine ((hadd.trans h₁.draft).trans h₂.draft).congr rfl (fun v w => ?_) (fun v name => ?_)
    · simp only [Wires, from_cons, from_nil, or_false, hbase, hbase', Stmt.size, Stmt.Leads,
        Stmt.caseIds, Stmt.node_eq_head_iff, Stmt.leave_eq_head_iff]
      grind
    · simp [Stmt.Leads, hbase, hbase']
  · intro v
    simp only [from_append, h₁.ends_iff, h₂.ends_iff, from_cons, from_nil, or_false, hbase, hbase',
      Stmt.size, Stmt.Leads, Stmt.leave_eq_head_iff]
    grind
  · intro v
    simp [h₁.breaks_iff, h₂.breaks_iff, hbase, hbase', Stmt.Leads, and_or_left]
  · intro v
    simp [h₁.continues_iff, h₂.continues_iff, hbase, hbase', Stmt.Leads, and_or_left]

theorem Emits.loop (h : d.Fit) (hends : ∀ v, From ends v → d.Knows v)
    (hbody : Emits body { breakable := true, loop := some (.node d.base) } (d.add test ends)
      [⟨d.base, "Y"⟩] a) :
    Emits (.loop test body) around d ends
      { draft := a.draft.tie a.ends d.base, ends := ⟨d.base, "N"⟩ :: looseEnds a.breaks } := by
  have hadd := h.add hends test
  have hbase : (d.add test ends).base = d.base + 1 := hadd.base_eq
  have hknown : (d.add test ends).Knows d.base := ⟨base_nonneg d, by omega⟩
  have hknown' : a.draft.Knows d.base := hknown.mono hbody.base_le
  have htie := hbody.draft.fit.tie (hbody.ends_known (knows_single hknown)) (.inr hknown')
  constructor
  · refine ((hadd.trans hbody.draft).trans htie).congr (by simp [Stmt.size]) (fun v w => ?_)
      (fun v name => ?_)
    · simp only [Wires, hbody.ends_iff, from_cons, from_nil, or_false, hbase, Stmt.size, Stmt.Leads,
        Stmt.caseIds, Stmt.leadsRound_node, Stmt.leadsRound_leave]
      grind
    · simp [Stmt.Leads, Stmt.leadsRound_leave, hbase]
  · intro v
    simp [hbody.breaks_iff, Stmt.Leads, Stmt.leadsRound_leave, hbase, Stmt.size]
  · intro v
    simp [Stmt.Leads, Stmt.leadsRound_leave]
  · intro v
    simp [Stmt.Leads, Stmt.leadsRound_leave]

theorem Emits.doLoop (hends : ∀ v, From ends v → d.Knows v)
    (hbody : Emits body { breakable := true, loop := some .later } d ends a) :
    Emits (.doLoop body test) around d ends
      { draft := (a.draft.add test (a.ends ++ looseEnds a.continues)).edge a.draft.base d.base "Y",
        ends := ⟨a.draft.base, "N"⟩ :: looseEnds a.breaks } := by
  have hbase : a.draft.base = d.base + body.size := hbody.draft.base_eq
  have hback : ∀ v, From (a.ends ++ looseEnds a.continues) v → a.draft.Knows v := by
    intro v hv
    rw [from_append, from_looseEnds, hbody.continues_iff] at hv
    rcases hv with hv | ⟨_, hv⟩
    · exact hbody.ends_known hends v hv
    · exact hbody.knows hv
  have hadd := hbody.draft.fit.add hback test
  have hbase' := hadd.base_eq
  have := base_nonneg d
  have hsource : (a.draft.add test (a.ends ++ looseEnds a.continues)).Knows a.draft.base :=
    ⟨by omega, by omega⟩
  have htarget : (a.draft.add test (a.ends ++ looseEnds a.continues)).Knows d.base :=
    ⟨by omega, by omega⟩
  have hedge := hadd.fit.edge hsource (.inr htarget) "Y"
  constructor
  · refine ((hbody.draft.trans hadd).trans hedge).congr (by simp [Stmt.size]) (fun v w => ?_)
      (fun v name => ?_)
    · simp only [Wires, from_append, from_looseEnds, hbody.ends_iff, hbody.continues_iff, hbase,
        Stmt.size, Stmt.Leads, Stmt.caseIds, Stmt.leadsRound_node, Stmt.leadsRound_leave]
      grind
    · simp [Stmt.Leads, Stmt.leadsRound_leave]
  · intro v
    simp [hbody.breaks_iff, Stmt.Leads, Stmt.leadsRound_leave, hbase, Stmt.size]
  · intro v
    simp [Stmt.Leads, Stmt.leadsRound_leave]
  · intro v
    simp [Stmt.Leads, Stmt.leadsRound_leave]

theorem Emits.forLoop {update : Option Point} (h : d.Fit)
    (hends : ∀ v, From ends v → d.Knows v)
    (hbody : Emits body { breakable := true, loop := some .later } (d.add test ends)
      [⟨d.base, "Y"⟩] a) :
    Emits (.forLoop test body update) around d ends
      { draft := match update with
          | some p => (a.draft.add p (a.ends ++ looseEnds a.continues)).edge a.draft.base d.base ""
          | none => a.draft.tie (a.ends ++ looseEnds a.continues) d.base,
        ends := (if test.isBranch then [⟨d.base, "N"⟩] else []) ++ looseEnds a.breaks } := by
  have hadd := h.add hends test
  have hbase : (d.add test ends).base = d.base + 1 := hadd.base_eq
  have hbase' : a.draft.base = d.base + 1 + body.size := by rw [hbody.draft.base_eq, hbase]
  have := base_nonneg d
  have hknown : (d.add test ends).Knows d.base := ⟨by omega, by omega⟩
  have hback : ∀ v, From (a.ends ++ looseEnds a.continues) v → a.draft.Knows v := by
    intro v hv
    rw [from_append, from_looseEnds, hbody.continues_iff] at hv
    rcases hv with hv | ⟨_, hv⟩
    · exact hbody.ends_known (knows_single hknown) v hv
    · exact hbody.knows hv
  constructor
  · cases update with
    | none =>
      have htarget : a.draft.Knows d.base := ⟨by omega, by omega⟩
      have htie := hbody.draft.fit.tie hback (.inr htarget)
      refine ((hadd.trans hbody.draft).trans htie).congr (by simp [Stmt.size]) (fun v w => ?_)
        (fun v name => ?_)
      · simp only [Wires, from_append, from_cons, from_nil, or_false, from_looseEnds,
          hbody.ends_iff, hbody.continues_iff, hbase, Stmt.size, Stmt.Leads, Stmt.caseIds,
          Stmt.leadsRound_node, Stmt.leadsRound_leave, Stmt.backOf]
        grind
      · simp [Stmt.Leads, Stmt.leadsRound_leave, hbase]
    | some p =>
      have hadd' := hbody.draft.fit.add hback p
      have hbase'' := hadd'.base_eq
      have hsource : (a.draft.add p (a.ends ++ looseEnds a.continues)).Knows a.draft.base :=
        ⟨by omega, by omega⟩
      have htarget : (a.draft.add p (a.ends ++ looseEnds a.continues)).Knows d.base :=
        ⟨by omega, by omega⟩
      have hedge := hadd'.fit.edge hsource (.inr htarget) ""
      refine (((hadd.trans hbody.draft).trans hadd').trans hedge).congr (by simp [Stmt.size])
        (fun v w => ?_) (fun v name => ?_)
      · simp only [Wires, from_append, from_cons, from_nil, or_false, from_looseEnds,
          hbody.ends_iff, hbody.continues_iff, hbase, hbase', Stmt.size, Stmt.Leads, Stmt.caseIds,
          Stmt.leadsRound_node, Stmt.leadsRound_leave, Stmt.backOf]
        grind
      · simp [Stmt.Leads, Stmt.leadsRound_leave, hbase]
  · intro v
    cases hb : test.isBranch <;>
      simp [hbody.breaks_iff, Stmt.Leads, Stmt.leadsRound_leave, hbase, Stmt.size, hb]
  · intro v
    simp [Stmt.Leads, Stmt.leadsRound_leave]
  · intro v
    simp [Stmt.Leads, Stmt.leadsRound_leave]

theorem Emits.switch {hasDefault : Bool} (h : d.Fit) (hends : ∀ v, From ends v → d.Knows v)
    (hbody : Emits body { around with breakable := true, switchTest := some d.base }
      (d.add test ends) [] a) :
    Emits (.switch test hasDefault body) around d ends
      { draft := a.draft,
        ends := a.ends ++ looseEnds a.breaks ++ if hasDefault then [] else [⟨d.base, "N"⟩],
        continues := a.continues } := by
  have hadd := h.add hends test
  have hbase : (d.add test ends).base = d.base + 1 := hadd.base_eq
  constructor
  · refine (hadd.trans hbody.draft).congr rfl (fun v w => ?_) (fun v name => ?_)
    · simp only [Wires, from_nil, hbase, Stmt.size, Stmt.Leads, Stmt.caseIds,
        Target.exists_inSwitch_node, Target.exists_inSwitch_leave, Target.node.injEq]
      grind
    · simp [Stmt.Leads, hbase]
  · intro v
    cases hasDefault
    · simp [hbody.ends_iff, hbody.breaks_iff, Stmt.Leads, hbase, Stmt.size]
      grind
    · simp [hbody.ends_iff, hbody.breaks_iff, Stmt.Leads, hbase, Stmt.size]
      grind
  · intro v
    simp [Stmt.Leads]
  · intro v
    simp [hbody.continues_iff, Stmt.Leads, hbase]

theorem from_switchTest (around : Surroundings) (text : String) (v : Int) :
    From (around.switchTest.toList.map fun id => (⟨id, text⟩ : LooseEnd)) v ↔
      around.switchTest = some v := by
  cases around.switchTest <;> simp [eq_comm]

theorem Emits.caseLabel (h : d.Fit) (hends : ∀ v, From ends v → d.Knows v)
    (haround : around.Fit d) :
    Emits (.caseLabel p) around d ends
      { draft := d.add p (around.switchTest.toList.map (fun id => ⟨id, p.text⟩) ++ ends),
        ends := [⟨d.base, ""⟩] } := by
  have hall : ∀ v, From (around.switchTest.toList.map (fun id => (⟨id, p.text⟩ : LooseEnd)) ++ ends)
      v → d.Knows v := by
    intro v hv
    rw [from_append, from_switchTest] at hv
    exact hv.elim (haround.switchTest v) (hends v)
  constructor
  · refine (h.add hall p).congr rfl (fun v w => ?_) (by simp [Stmt.Leads])
    simp only [Wires, from_append, from_switchTest, Stmt.size, Stmt.Leads, Stmt.caseIds,
      List.mem_singleton]
    grind
  · simp [Stmt.size, Stmt.Leads]
  · simp [Stmt.Leads]
  · simp [Stmt.Leads]

end Emits

section Jumps

variable {around : Surroundings} {d : Draft} {ends : List LooseEnd} {p : Point} (h : d.Fit)
  (hends : ∀ v, From ends v → d.Knows v)

include h hends

theorem knows_added : (d.add p ends).Knows d.base := by
  have hbase := (h.add hends p).base_eq
  have := base_nonneg d
  exact ⟨by omega, by omega⟩

theorem Emits.breakJump : Emits (.breakJump p) around d ends
    (if around.breakable then { draft := d.add p ends, breaks := [d.base] }
      else { draft := (d.add p ends).warn (.strayBreak (p.line.getD 0)) }) := by
  have hadd := h.add hends p
  cases hbreak : around.breakable with
  | true =>
    constructor
    · refine hadd.congr rfl (fun v w => ?_) (by simp [Stmt.Leads])
      simp [Wires, Stmt.size, Stmt.Leads, Stmt.caseIds, and_comm]
    · simp [Stmt.size, Stmt.Leads]
    · simp [Stmt.Leads, hbreak]
    · simp [Stmt.Leads]
  | false =>
    constructor
    · refine hadd.warn.congr rfl (fun v w => ?_) (by simp [Stmt.Leads])
      simp [Wires, Stmt.size, Stmt.Leads, Stmt.caseIds, and_comm]
    · simp [Stmt.size, Stmt.Leads]
    · simp [Stmt.Leads, hbreak]
    · simp [Stmt.Leads]

theorem Emits.continueJump (haround : around.Fit d) : Emits (.continueJump p) around d ends
    (match around.loop with
      | some (.node id) => { draft := (d.add p ends).edge d.base id "" }
      | some .later => { draft := d.add p ends, continues := [d.base] }
      | none => { draft := (d.add p ends).warn (.strayContinue (p.line.getD 0)) }) := by
  have hadd := h.add hends p
  cases hloop : around.loop with
  | none =>
    constructor
    · refine hadd.warn.congr rfl (fun v w => ?_) (by simp [Stmt.Leads])
      simp [Wires, Stmt.size, Stmt.Leads, Stmt.caseIds, and_comm, hloop]
    · simp [Stmt.size, Stmt.Leads]
    · simp [Stmt.Leads]
    · simp [Stmt.Leads, hloop]
  | some place =>
    cases place with
    | node id =>
      have hedge := hadd.fit.edge (knows_added h hends)
        (.inr ((haround.loop id hloop).mono hadd.base_le)) ""
      constructor
      · refine (hadd.trans hedge).congr rfl (fun v w => ?_) (by simp [Stmt.Leads])
        simp only [Wires, Stmt.size, Stmt.Leads, Stmt.caseIds, hloop]
        grind
      · simp [Stmt.size, Stmt.Leads]
      · simp [Stmt.Leads]
      · simp [Stmt.Leads, hloop]
    | later =>
      constructor
      · refine hadd.congr rfl (fun v w => ?_) (by simp [Stmt.Leads])
        simp [Wires, Stmt.size, Stmt.Leads, Stmt.caseIds, and_comm, hloop]
      · simp [Stmt.size, Stmt.Leads]
      · simp [Stmt.Leads]
      · simp [Stmt.Leads, hloop]

theorem Emits.returnJump : Emits (.returnJump p) around d ends
    { draft := (d.add p ends).edge d.base exitId "" } := by
  have hadd := h.add hends p
  have hedge := hadd.fit.edge (knows_added h hends) (.inl rfl) ""
  constructor
  · refine (hadd.trans hedge).congr rfl (fun v w => ?_) (by simp [Stmt.Leads])
    simp only [Wires, Stmt.size, Stmt.Leads, Stmt.caseIds]
    grind
  · simp [Stmt.size, Stmt.Leads]
  · simp [Stmt.Leads]
  · simp [Stmt.Leads]

theorem Emits.gotoJump {name : String} : Emits (.gotoJump p name) around d ends
    { draft := { d.add p ends with gotos := (d.add p ends).gotos ++ [(d.base, name)] } } := by
  have hadd := h.add hends p
  constructor
  · refine ⟨⟨hadd.fit.built, hadd.fit.ids_eq, hadd.fit.exit_stuck, hadd.fit.labels_known, ?_⟩,
      hadd.base_eq, fun v w => (hadd.step_iff v w).trans (or_congr_right ?_), fun v l => ?_⟩
    · intro e he
      rcases List.mem_append.mp he with he | he
      · exact hadd.fit.gotos_known e he
      · rw [List.mem_singleton.mp he]
        exact knows_added h hends
    · simp [Wires, Stmt.size, Stmt.Leads, Stmt.caseIds, and_comm]
    · simp only [List.mem_append, hadd.gotos_iff, or_false, List.mem_singleton, Stmt.Leads]
      simp
  · simp [Stmt.size, Stmt.Leads]
  · simp [Stmt.Leads]
  · simp [Stmt.Leads]

theorem Emits.label {name : String} : Emits (.label p name) around d ends
    { draft := { d.add p ends with labels := (name, d.base) :: (d.add p ends).labels },
      ends := [⟨d.base, ""⟩] } := by
  have hadd := h.add hends p
  constructor
  · refine ⟨⟨hadd.fit.built, hadd.fit.ids_eq, hadd.fit.exit_stuck, ?_, hadd.fit.gotos_known⟩,
      hadd.base_eq, fun v w => (hadd.step_iff v w).trans (or_congr_right ?_), fun v l => ?_⟩
    · intro e he
      rcases List.mem_cons.mp he with rfl | he
      · exact knows_added h hends
      · exact hadd.fit.labels_known e he
    · simp [Wires, Stmt.size, Stmt.Leads, Stmt.caseIds, and_comm]
    · simpa [Stmt.Leads] using hadd.gotos_iff v l
  · simp [Stmt.size, Stmt.Leads]
  · simp [Stmt.Leads]
  · simp [Stmt.Leads]

end Jumps

theorem emit_ok (s : Stmt) (around : Surroundings) (d : Draft) (ends : List LooseEnd)
    (h : d.Fit) (hends : ∀ v, From ends v → d.Knows v) (haround : around.Fit d) :
    Emits s around d ends (emit s around d ends) := by
  induction s generalizing around d ends with
  | skip =>
    constructor
    · exact h.extends_refl.congr rfl (by simp [Wires, Stmt.size, Stmt.Leads, Stmt.caseIds])
        (by simp [Stmt.Leads])
    · simp [emit, Stmt.size, Stmt.Leads]
    · simp [emit, Stmt.Leads]
    · simp [emit, Stmt.Leads]
  | point p =>
    constructor
    · refine (h.add hends p).congr rfl (fun v w => ?_) (by simp [Stmt.Leads])
      simp [Wires, Stmt.size, Stmt.Leads, Stmt.caseIds, and_comm]
    · simp [emit, Stmt.size, Stmt.Leads]
    · simp [emit, Stmt.Leads]
    · simp [emit, Stmt.Leads]
  | seq first second ih₁ ih₂ =>
    have h₁ := ih₁ around d ends h hends haround
    exact h₁.seq (ih₂ around _ _ h₁.draft.fit (h₁.ends_known hends) (haround.mono h₁.base_le))
  | branch test yes no ih₁ ih₂ =>
    have hadd := h.add hends test
    have hknown := knows_added h hends (p := test)
    have haround' : { around with switchTest := none }.Fit (d.add test ends) :=
      ⟨by simp, fun v hv => (haround.loop v hv).mono hadd.base_le⟩
    have h₁ := ih₁ _ (d.add test ends) [⟨d.base, "Y"⟩] hadd.fit (knows_single hknown) haround'
    have h₂ := ih₂ _ _ [⟨d.base, "N"⟩] h₁.draft.fit (knows_single (hknown.mono h₁.base_le))
      (haround'.mono h₁.base_le)
    exact .branch h hends h₁ h₂
  | loop test body ih =>
    have hknown := knows_added h hends (p := test)
    refine .loop h hends (ih _ _ _ (h.add hends test).fit (knows_single hknown) ⟨by simp, ?_⟩)
    rintro v hv
    cases hv
    exact hknown
  | doLoop body test ih =>
    exact .doLoop hends (ih _ d ends h hends ⟨by simp, by simp⟩)
  | forLoop test body update ih =>
    exact .forLoop h hends (ih _ _ _ (h.add hends test).fit (knows_single (knows_added h hends))
      ⟨by simp, by simp⟩)
  | switch test hasDefault body ih =>
    have hadd := h.add hends test
    refine .switch h hends (ih _ _ _ hadd.fit (by simp) ⟨?_, ?_⟩)
    · rintro v hv
      cases hv
      exact knows_added h hends
    · exact fun v hv => (haround.loop v hv).mono hadd.base_le
  | caseLabel p => exact .caseLabel h hends haround
  | breakJump p => exact .breakJump h hends
  | continueJump p => exact .continueJump h hends haround
  | returnJump p => exact .returnJump h hends
  | gotoJump p name => exact .gotoJump h hends
  | label p name => exact .label h hends

theorem fit_empty : ({} : Draft).Fit where
  built := .empty
  ids_eq := rfl
  exit_stuck w hw := by cases hw
  labels_known := by simp
  gotos_known := by simp

section Land

variable {d : Draft} {v w : Int}

theorem labels_land (d : Draft) (jump : NodeId × String) : (land d jump).labels = d.labels := by
  unfold land
  split <;> rfl

theorem labels_foldl_land (jumps : List (NodeId × String)) (d : Draft) :
    (jumps.foldl land d).labels = d.labels := by
  induction jumps generalizing d with
  | nil => rfl
  | cons jump jumps ih => rw [List.foldl_cons, ih, labels_land]

theorem land_ok {jump : NodeId × String} (h : d.Fit) (hjump : d.Knows jump.1) :
    Extends d (land d jump) 0 (fun v w => v = jump.1 ∧ d.labels.lookup jump.2 = some w)
      (fun _ _ => False) := by
  unfold land
  cases hl : d.labels.lookup jump.2 with
  | none => exact h.extends_refl.warn.congr rfl (by simp) (by simp)
  | some target =>
    obtain ⟨l₁, l₂, hlabels, _⟩ := List.lookup_eq_some_iff.mp hl
    have htarget : d.Knows target := h.labels_known (jump.2, target) (by simp [hlabels])
    exact (h.edge hjump (.inr htarget) "").congr rfl (by simp [eq_comm]) (by simp)

theorem foldl_land_ok {jumps : List (NodeId × String)} (h : d.Fit)
    (hjumps : ∀ j ∈ jumps, d.Knows j.1) : Extends d (jumps.foldl land d) 0
      (fun v w => ∃ name, (v, name) ∈ jumps ∧ d.labels.lookup name = some w)
      (fun _ _ => False) := by
  induction jumps generalizing d with
  | nil => exact h.extends_refl.congr rfl (by simp) (by simp)
  | cons jump jumps ih =>
    have h₁ := land_ok h (hjumps jump (List.mem_cons_self ..))
    have h₂ := ih h₁.fit fun j hj => (hjumps j (List.mem_cons_of_mem _ hj)).mono h₁.base_le
    refine (h₁.trans h₂).congr rfl (fun v w => ?_) (by simp)
    rw [labels_land]
    constructor
    · rintro (⟨rfl, hl⟩ | ⟨name, hmem, hl⟩)
      · exact ⟨jump.2, List.mem_cons_self .., hl⟩
      · exact ⟨name, List.mem_cons_of_mem _ hmem, hl⟩
    · rintro ⟨name, hmem, hl⟩
      rcases List.mem_cons.mp hmem with rfl | hmem
      · exact .inl ⟨rfl, hl⟩
      · exact .inr ⟨name, hmem, hl⟩

end Land

theorem not_step_empty {v w : Int} : ¬ ({} : Graph).Step v w := by
  intro h
  rw [Step, successors] at h
  by_cases hv : exitId = v <;> simp [Table.get?, Table.find, hv] at h

/-- The graph of a function: the entry leads to the body, the wiring of the body holds, and where
the body is left the flow leads to the exit or to a label. -/
theorem build_ok (parameters : List Variable) (body : Stmt) :
    (build parameters body).Fit ∧ (build parameters body).base = 1 + body.size ∧
      ∀ v w, (build parameters body).graph.Step v w ↔
        (v = 0 ∧ ((body.size ≠ 0 ∧ w = 1) ∨ (body.size = 0 ∧ w = exitId))) ∨
        body.Leads 1 v (.node w) ∨
        (w = exitId ∧ (body.Leads 1 v (.leave .done) ∨ body.Leads 1 v (.leave .returned))) ∨
        ∃ name, body.Leads 1 v (.leave (.jumped name)) ∧
          (build parameters body).labels.lookup name = some w := by
  let start := ({} : Draft).add (entryPoint parameters) []
  have hstart : Extends {} start 1 (fun v w => From [] v ∧ w = 0) (fun _ _ => False) :=
    fit_empty.add (by simp) _
  have hbase : start.base = 1 := hstart.base_eq
  have hknown : start.Knows 0 := ⟨by omega, by omega⟩
  let a := emit body {} start [⟨0, ""⟩]
  have hbody : Emits body {} start [⟨0, ""⟩] a :=
    emit_ok body {} start [⟨0, ""⟩] hstart.fit (knows_single hknown) ⟨by simp, by simp⟩
  let closed := a.draft.tie a.ends exitId
  have hclosed : Extends a.draft closed 0 (fun v w => From a.ends v ∧ w = exitId)
      (fun _ _ => False) :=
    hbody.draft.fit.tie (hbody.ends_known (knows_single hknown)) (.inl rfl)
  have hland := foldl_land_ok hclosed.fit hclosed.fit.gotos_known
  have hall := ((hstart.trans hbody.draft).trans hclosed).trans hland
  refine ⟨hland.fit, ?_, fun v w => (hall.step_iff v w).trans ?_⟩
  · rw [show (build parameters body).base = _ from hall.base_eq,
      show ({} : Draft).base = 0 from rfl]
    omega
  · have hlabels : (build parameters body).labels = closed.labels := labels_foldl_land _ _
    have hgotos : ∀ name, (v, name) ∈ closed.gotos ↔ body.Leads 1 v (.leave (.jumped name)) := by
      intro name
      rw [hclosed.gotos_iff, hbody.draft.gotos_iff, hstart.gotos_iff, hbase]
      simp
    simp only [not_step_empty, false_or, Wires, hbase, from_cons, from_nil, or_false,
      hbody.ends_iff, hgotos, hlabels]
    grind

end Backslice.Flow

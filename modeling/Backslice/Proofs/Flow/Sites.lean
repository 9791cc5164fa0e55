import Backslice.Proofs.Flow.Build

namespace Backslice

def PointKind.isTest : PointKind → Bool
  | ifTest | whileTest | doTest | forTest | rangeTest | switchTest => true
  | _ => false

/-- A point of a function and what it stands in. -/
structure Site where
  kind : PointKind
  line : Option Int
  bears : Option String := none
  seeks : Option String := none
  breakable : Bool := false
  looped : Bool := false
  deriving DecidableEq, Repr

namespace Site

def ofPoint (p : Point) : Site := { kind := p.kind, line := p.line }

def inLoop (s : Site) : Site := { s with breakable := true, looped := true }

def inSwitch (s : Site) : Site := { s with breakable := true }

def outline (s : Site) : PointKind × Option Int := (s.kind, s.line)

def Jumps (s : Site) : Finish → Prop
  | .broke => s.kind = .breakJump ∧ s.breakable = false
  | .continued => s.kind = .continueJump ∧ s.looped = false
  | .jumped name => s.seeks = some name
  | _ => False

@[simp] theorem jumps_inLoop (s : Site) (f : Finish) :
    s.inLoop.Jumps f ↔ f ≠ .broke ∧ f ≠ .continued ∧ s.Jumps f := by
  cases f <;> simp [Jumps, inLoop]

@[simp] theorem jumps_inSwitch (s : Site) (f : Finish) :
    s.inSwitch.Jumps f ↔ f ≠ .broke ∧ s.Jumps f := by
  cases f <;> simp [Jumps, inSwitch]

/-- A jump that leads nowhere: a `break` or a `continue` with nothing around it that takes it, or a
jump to a label that is not there. -/
def Stray (sites : List Site) (s : Site) : Prop :=
  (s.kind = .breakJump ∧ s.breakable = false) ∨ (s.kind = .continueJump ∧ s.looped = false) ∨
    ∃ name, s.seeks = some name ∧ ∀ s' ∈ sites, s'.bears ≠ some name

theorem stray_iff {sites : List Site} {s : Site} : Stray sites s ↔
    ∃ f, s.Jumps f ∧ ∀ name, f = .jumped name → ∀ s' ∈ sites, s'.bears ≠ some name := by
  constructor
  · rintro (h | h | ⟨name, h, hnone⟩)
    · exact ⟨.broke, h, nofun⟩
    · exact ⟨.continued, h, nofun⟩
    · exact ⟨.jumped name, h, fun _ heq => Finish.jumped.inj heq ▸ hnone⟩
  · rintro ⟨f, h, hnone⟩
    cases f with
    | done | returned => cases h
    | broke => exact .inl h
    | continued => exact .inr (.inl h)
    | jumped name => exact .inr (.inr ⟨name, h, hnone name rfl⟩)

def At (sites : List Site) (base v : Int) (s : Site) : Prop :=
  ∃ k : Nat, v = base + k ∧ sites[k]? = some s

variable {sites sites' : List Site} {s s' : Site} {base v : Int}

@[simp] theorem not_at_nil : ¬ At [] base v s := by simp [At]

@[simp] theorem at_cons : At (s' :: sites) base v s ↔
    (v = base ∧ s = s') ∨ At sites (base + 1) v s := by
  constructor
  · rintro ⟨k, rfl, hk⟩
    cases k with
    | zero => exact .inl ⟨by simp, (Option.some.inj hk).symm⟩
    | succ k => exact .inr ⟨k, by omega, hk⟩
  · rintro (⟨rfl, rfl⟩ | ⟨k, rfl, hk⟩)
    · exact ⟨0, by simp, rfl⟩
    · exact ⟨k + 1, by omega, hk⟩

@[simp] theorem at_append : At (sites ++ sites') base v s ↔
    At sites base v s ∨ At sites' (base + sites.length) v s := by
  induction sites generalizing base with
  | nil => simp
  | cons s' sites ih =>
    have hbase : base + 1 + sites.length = base + (s' :: sites).length := by
      rw [List.length_cons]
      omega
    rw [List.cons_append, at_cons, at_cons, ih, hbase, or_assoc]

@[simp] theorem at_map {f : Site → Site} : At (sites.map f) base v s ↔
    ∃ s', At sites base v s' ∧ s = f s' := by
  induction sites generalizing base with
  | nil => simp
  | cons s' sites ih =>
    rw [List.map_cons, at_cons, ih]
    simp only [at_cons, or_and_right, exists_or, and_assoc, exists_and_left, exists_eq_left]

theorem At.within (h : At sites base v s) : base ≤ v ∧ v < base + sites.length := by
  obtain ⟨k, rfl, hk⟩ := h
  have := (List.getElem?_eq_some_iff.mp hk).1
  omega

theorem At.mem (h : At sites base v s) : s ∈ sites := by
  obtain ⟨k, _, hk⟩ := h
  exact List.mem_of_getElem? hk

theorem At.unique (h : At sites base v s) (h' : At sites base v s') : s = s' := by
  obtain ⟨k, rfl, hk⟩ := h
  obtain ⟨k', hv, hk'⟩ := h'
  obtain rfl : k = k' := by omega
  exact Option.some.inj (hk.symm.trans hk')

theorem exists_at_of_mem (h : s ∈ sites) (base : Int) : ∃ v, At sites base v s := by
  obtain ⟨k, hk⟩ := List.mem_iff_getElem?.mp h
  exact ⟨base + k, k, rfl, hk⟩

def Escapes (sites : List Site) (base v : Int) (f : Finish) : Prop :=
  ∃ s, At sites base v s ∧ s.Jumps f

variable {f : Finish}

@[simp] theorem not_escapes_nil : ¬ Escapes [] base v f := by simp [Escapes]

@[simp] theorem escapes_cons : Escapes (s :: sites) base v f ↔
    (v = base ∧ s.Jumps f) ∨ Escapes sites (base + 1) v f := by
  simp [Escapes, or_and_right, exists_or, and_assoc]

@[simp] theorem escapes_append : Escapes (sites ++ sites') base v f ↔
    Escapes sites base v f ∨ Escapes sites' (base + sites.length) v f := by
  simp [Escapes, or_and_right, exists_or]

@[simp] theorem escapes_inLoop : Escapes (sites.map inLoop) base v f ↔
    f ≠ .broke ∧ f ≠ .continued ∧ Escapes sites base v f := by
  simp only [Escapes, at_map]
  constructor
  · rintro ⟨_, ⟨s, hs, rfl⟩, hj⟩
    rw [jumps_inLoop] at hj
    exact ⟨hj.1, hj.2.1, s, hs, hj.2.2⟩
  · rintro ⟨hbroke, hcontinued, s, hs, hj⟩
    exact ⟨_, ⟨s, hs, rfl⟩, (jumps_inLoop s f).mpr ⟨hbroke, hcontinued, hj⟩⟩

@[simp] theorem escapes_inSwitch : Escapes (sites.map inSwitch) base v f ↔
    f ≠ .broke ∧ Escapes sites base v f := by
  simp only [Escapes, at_map]
  constructor
  · rintro ⟨_, ⟨s, hs, rfl⟩, hj⟩
    rw [jumps_inSwitch] at hj
    exact ⟨hj.1, s, hs, hj.2⟩
  · rintro ⟨hbroke, s, hs, hj⟩
    exact ⟨_, ⟨s, hs, rfl⟩, (jumps_inSwitch s f).mpr ⟨hbroke, hj⟩⟩

end Site

namespace Stmt

open Site (At)

def sites : Stmt → List Site
  | skip => []
  | seq first second => first.sites ++ second.sites
  | branch test yes no => .ofPoint test :: (yes.sites ++ no.sites)
  | loop test body => .ofPoint test :: body.sites.map .inLoop
  | doLoop body test => body.sites.map .inLoop ++ [.ofPoint test]
  | forLoop test body update =>
    .ofPoint test :: (body.sites.map .inLoop ++ update.toList.map .ofPoint)
  | switch test _ body => .ofPoint test :: body.sites.map .inSwitch
  | gotoJump p name => [{ Site.ofPoint p with seeks := some name }]
  | label p name => [{ Site.ofPoint p with bears := some name }]
  | point p | caseLabel p | breakJump p | continueJump p | returnJump p => [.ofPoint p]

/-- The kinds of the points are those of the statements they stand for, and where a `switch` has a
default label, it has a label. -/
def Proper : Stmt → Prop
  | skip => True
  | seq first second => first.Proper ∧ second.Proper
  | branch test yes no => test.kind.isTest = true ∧ yes.Proper ∧ no.Proper
  | loop test body | doLoop body test => test.kind.isTest = true ∧ body.Proper
  | forLoop test body update => test.kind.isTest = true ∧ body.Proper ∧
      ∀ p ∈ update, p.kind ≠ .breakJump ∧ p.kind ≠ .continueJump
  | switch test hasDefault body => test.kind.isTest = true ∧ body.Proper ∧
      (hasDefault = true → ∀ base, body.caseIds base ≠ [])
  | breakJump p => p.kind = .breakJump
  | continueJump p => p.kind = .continueJump
  | gotoJump p _ => p.kind = .gotoJump
  | point p | caseLabel p | returnJump p | label p _ =>
    p.kind ≠ .breakJump ∧ p.kind ≠ .continueJump

variable {s : Stmt} {base v : Int} {t t' : Target}

@[simp] theorem length_sites (s : Stmt) : s.sites.length = s.size := by
  induction s with
  | seq first second ih₁ ih₂ => simp [sites, size, ih₁, ih₂]
  | branch test yes no ih₁ ih₂ => simp [sites, size, ih₁, ih₂]; omega
  | loop test body ih => simp [sites, size, ih]; omega
  | doLoop body test ih => simp [sites, size, ih]
  | forLoop test body update ih => simp [sites, size, ih]; omega
  | switch test hasDefault body ih => simp [sites, size, ih]; omega
  | _ => rfl

theorem isTest_jumps {p : Point} {f : Finish} (h : p.kind.isTest = true) :
    ¬ (Site.ofPoint p).Jumps f := by
  have hbreak : p.kind ≠ .breakJump := by
    rintro hk
    rw [hk] at h
    cases h
  have hcontinue : p.kind ≠ .continueJump := by
    rintro hk
    rw [hk] at h
    cases h
  cases f <;> simp [Site.Jumps, Site.ofPoint, hbreak, hcontinue]

theorem not_jumps {p : Point} {f : Finish} (h : p.kind ≠ .breakJump ∧ p.kind ≠ .continueJump) :
    ¬ (Site.ofPoint p).Jumps f := by
  cases f <;> simp [Site.Jumps, Site.ofPoint, h.1, h.2]

theorem kind_of_seeks {site : Site} {name : String} (h : s.Proper) (hs : site ∈ s.sites)
    (hname : site.seeks = some name) : site.kind = .gotoJump := by
  induction s generalizing site with
  | skip => cases hs
  | seq first second ih₁ ih₂ =>
    rcases List.mem_append.mp hs with hs | hs
    · exact ih₁ h.1 hs hname
    · exact ih₂ h.2 hs hname
  | branch test yes no ih₁ ih₂ =>
    rcases List.mem_cons.mp hs with rfl | hs
    · cases hname
    rcases List.mem_append.mp hs with hs | hs
    · exact ih₁ h.2.1 hs hname
    · exact ih₂ h.2.2 hs hname
  | loop test body ih =>
    rcases List.mem_cons.mp hs with rfl | hs
    · cases hname
    · obtain ⟨inner, hinner, rfl⟩ := List.mem_map.mp hs
      exact (ih h.2 hinner hname :)
  | doLoop body test ih =>
    rcases List.mem_append.mp hs with hs | hs
    · obtain ⟨inner, hinner, rfl⟩ := List.mem_map.mp hs
      exact (ih h.2 hinner hname :)
    · rw [List.mem_singleton.mp hs] at hname
      cases hname
  | forLoop test body update ih =>
    rcases List.mem_cons.mp hs with rfl | hs
    · cases hname
    rcases List.mem_append.mp hs with hs | hs
    · obtain ⟨inner, hinner, rfl⟩ := List.mem_map.mp hs
      exact (ih h.2.1 hinner hname :)
    · obtain ⟨p, _, rfl⟩ := List.mem_map.mp hs
      cases hname
  | switch test hasDefault body ih =>
    rcases List.mem_cons.mp hs with rfl | hs
    · cases hname
    · obtain ⟨inner, hinner, rfl⟩ := List.mem_map.mp hs
      exact (ih h.2.1 hinner hname :)
  | gotoJump p name' =>
    rw [List.mem_singleton.mp hs]
    exact h
  | _ =>
    rw [List.mem_singleton.mp hs] at hname
    cases hname

theorem isTest_of_jumps {site : Site} {f : Finish} (h : s.Proper) (hs : site ∈ s.sites)
    (hj : site.Jumps f) : site.kind.isTest = false := by
  cases f with
  | done | returned => cases hj
  | broke | continued =>
    rw [hj.1]
    rfl
  | jumped name =>
    rw [kind_of_seeks h hs hj]
    rfl

theorem exists_leads (h : s.Proper) (hlo : base ≤ v) (hhi : v < base + s.size) :
    ∃ t, s.Leads base v t := by
  induction s generalizing base with
  | skip =>
    simp only [size] at hhi
    omega
  | seq first second ih₁ ih₂ =>
    simp only [size] at hhi
    by_cases hv : v < base + first.size
    · obtain ⟨t, ht⟩ := ih₁ h.1 hlo hv
      exact ⟨_, .inl ⟨t, ht, rfl⟩⟩
    · obtain ⟨t, ht⟩ := @ih₂ (base + first.size) h.2 (by omega) (by omega)
      exact ⟨t, .inr ht⟩
  | branch test yes no ih₁ ih₂ =>
    simp only [size] at hhi
    by_cases hv : v = base
    · exact ⟨_, .inl ⟨hv, .inl rfl⟩⟩
    by_cases hyes : v < base + 1 + yes.size
    · obtain ⟨t, ht⟩ := @ih₁ (base + 1) h.2.1 (by omega) hyes
      exact ⟨t, .inr (.inl ht)⟩
    · obtain ⟨t, ht⟩ := @ih₂ (base + 1 + yes.size) h.2.2 (by omega) (by omega)
      exact ⟨t, .inr (.inr ht)⟩
  | loop test body ih =>
    simp only [size] at hhi
    by_cases hv : v = base
    · exact ⟨_, .inl ⟨hv, .inl rfl⟩⟩
    · obtain ⟨t, ht⟩ := @ih (base + 1) h.2 (by omega) (by omega)
      exact ⟨_, .inr (.inr ⟨t, ht, rfl⟩)⟩
  | doLoop body test ih =>
    simp only [size] at hhi
    by_cases hv : v = base + body.size
    · exact ⟨_, .inl ⟨hv, .inl rfl⟩⟩
    · obtain ⟨t, ht⟩ := @ih base h.2 (by omega) (by omega)
      exact ⟨_, .inr (.inr ⟨t, ht, rfl⟩)⟩
  | forLoop test body update ih =>
    simp only [size] at hhi
    by_cases hv : v = base
    · exact ⟨_, .inl ⟨hv, .inl rfl⟩⟩
    by_cases hbody : v < base + 1 + body.size
    · obtain ⟨t, ht⟩ := @ih (base + 1) h.2.1 (by omega) hbody
      exact ⟨_, .inr (.inr ⟨t, ht, rfl⟩)⟩
    · cases update with
      | none =>
        simp at hhi
        omega
      | some p =>
        have hback : body.backOf (some p) base = base + 1 + body.size := by simp [backOf]
        simp at hhi
        exact ⟨_, .inr (.inl ⟨by omega, by omega, rfl⟩)⟩
  | switch test hasDefault body ih =>
    simp only [size] at hhi
    by_cases hv : v = base
    · cases hasDefault with
      | false => exact ⟨_, .inl ⟨hv, .inr ⟨rfl, rfl⟩⟩⟩
      | true =>
        obtain ⟨c, hc⟩ := List.exists_mem_of_ne_nil _ (h.2.2 rfl (base + 1))
        exact ⟨_, .inl ⟨hv, .inl ⟨c, hc, rfl⟩⟩⟩
    · obtain ⟨t, ht⟩ := @ih (base + 1) h.2.1 (by omega) (by omega)
      exact ⟨_, .inr ⟨t, ht, rfl⟩⟩
  | _ =>
    simp only [size] at hhi
    exact ⟨_, by omega, rfl⟩

theorem leads_leave_iff (h : s.Proper) {f : Finish} (hdone : f ≠ .done)
    (hreturned : f ≠ .returned) :
    s.Leads base v (.leave f) ↔ Site.Escapes s.sites base v f := by
  induction s generalizing base with
  | skip => simp [Leads, sites]
  | seq first second ih₁ ih₂ => simp [Leads, sites, ih₁ h.1, ih₂ h.2, hdone]
  | branch test yes no ih₁ ih₂ =>
    simp [Leads, sites, ih₁ h.2.1, ih₂ h.2.2, hdone, isTest_jumps h.1]
  | loop test body ih =>
    simp [Leads, leadsRound_leave, sites, ih h.2, hdone, isTest_jumps h.1]
  | doLoop body test ih =>
    simp [Leads, leadsRound_leave, sites, ih h.2, hdone, isTest_jumps h.1]
  | forLoop test body update ih =>
    cases update with
    | none => simp [Leads, leadsRound_leave, sites, ih h.2.1, hdone, isTest_jumps h.1]
    | some p =>
      simp [Leads, leadsRound_leave, sites, ih h.2.1, hdone, isTest_jumps h.1,
        not_jumps (h.2.2 p rfl)]
  | switch test hasDefault body ih =>
    simp [Leads, sites, ih h.2.1, hdone, isTest_jumps h.1]
  | breakJump p =>
    cases f <;> simp_all [Leads, sites, Proper, Site.Jumps, Site.ofPoint]
  | continueJump p =>
    cases f <;> simp_all [Leads, sites, Proper, Site.Jumps, Site.ofPoint]
  | gotoJump p name =>
    cases f <;> simp_all [Leads, sites, Proper, Site.Jumps, Site.ofPoint, eq_comm (a := name)]
  | label p name =>
    cases f <;> simp_all [Leads, sites, Proper, Site.Jumps, Site.ofPoint]
  | point p => simp [Leads, sites, not_jumps h, hdone]
  | caseLabel p => simp [Leads, sites, not_jumps h, hdone]
  | returnJump p => simp [Leads, sites, not_jumps h, hreturned]

def Straight (s : Stmt) (base v : Int) : Prop :=
  ∀ site, At s.sites base v site → site.kind.isTest = false

theorem Straight.ne {test : Point} {header : Int} (h : s.Straight base v)
    (htest : test.kind.isTest = true) (hat : At s.sites base header (.ofPoint test)) :
    v ≠ header := by
  rintro rfl
  exact absurd htest (by rw [show test.kind.isTest = false from h _ hat]; exact Bool.false_ne_true)

theorem Straight.part {body : Stmt} {start : Int} (h : s.Straight base v) (around : Site → Site)
    (hkind : ∀ site, (around site).kind = site.kind)
    (hpart : ∀ site, At body.sites start v site → At s.sites base v (around site)) :
    body.Straight start v := by
  intro site hsite
  rw [← hkind]
  exact h _ (hpart site hsite)

theorem LeadsRound.unique {body : Int → Target → Prop} {start : Target} {mayLeave : Bool}
    {header back : Int} (h : LeadsRound body start mayLeave header back v t)
    (h' : LeadsRound body start mayLeave header back v t') (hheader : v ≠ header)
    (hback : back ≠ header → ∀ t, ¬ body back t)
    (hbody : ∀ t t', body v t → body v t' → t = t') : t = t' := by
  rcases h with ⟨rfl, _⟩ | ⟨hne, rfl, rfl⟩ | ⟨u, hu, rfl⟩
  · exact absurd rfl hheader
  · rcases h' with ⟨rfl, _⟩ | ⟨_, _, rfl⟩ | ⟨u, hu, rfl⟩
    · exact absurd rfl hheader
    · rfl
    · exact absurd hu (hback hne u)
  · rcases h' with ⟨rfl, _⟩ | ⟨hne, rfl, rfl⟩ | ⟨u', hu', rfl⟩
    · exact absurd rfl hheader
    · exact absurd hu (hback hne u)
    · rw [hbody u u' hu hu']

theorem Leads.unique (h : s.Proper) (hv : s.Straight base v) (ht : s.Leads base v t)
    (ht' : s.Leads base v t') : t = t' := by
  induction s generalizing base t t' with
  | skip => cases ht
  | seq first second ih₁ ih₂ =>
    have hv₁ : first.Straight base v := hv.part id (fun _ => rfl) fun site hs => by simp [sites, hs]
    have hv₂ : second.Straight (base + first.size) v :=
      hv.part id (fun _ => rfl) fun site hs => by simp [sites, hs]
    rcases ht with ⟨u, hu, rfl⟩ | ht <;> rcases ht' with ⟨u', hu', rfl⟩ | ht'
    · rw [ih₁ h.1 hv₁ hu hu']
    · have := hu.within.1
      have := ht'.within.1
      omega
    · have := hu'.within.1
      have := ht.within.1
      omega
    · exact ih₂ h.2 hv₂ ht ht'
  | branch test yes no ih₁ ih₂ =>
    have htest : v ≠ base := hv.ne h.1 (by simp [sites])
    have hv₁ : yes.Straight (base + 1) v :=
      hv.part id (fun _ => rfl) fun site hs => by simp [sites, hs]
    have hv₂ : no.Straight (base + 1 + yes.size) v :=
      hv.part id (fun _ => rfl) fun site hs => by simp [sites, hs]
    rcases ht with ⟨hbase, _⟩ | ht | ht
    · exact absurd hbase htest
    · rcases ht' with ⟨hbase, _⟩ | ht' | ht'
      · exact absurd hbase htest
      · exact ih₁ h.2.1 hv₁ ht ht'
      · have := ht.within.1
        have := ht'.within.1
        omega
    · rcases ht' with ⟨hbase, _⟩ | ht' | ht'
      · exact absurd hbase htest
      · have := ht.within.1
        have := ht'.within.1
        omega
      · exact ih₂ h.2.2 hv₂ ht ht'
  | loop test body ih =>
    have hbody : body.Straight (base + 1) v :=
      hv.part .inLoop (fun _ => rfl) fun site hs => by
        simp only [sites, Site.at_cons, Site.at_map]
        exact .inr ⟨site, hs, rfl⟩
    exact LeadsRound.unique ht ht' (hv.ne h.1 (by simp [sites])) (fun hne => absurd rfl hne)
      fun _ _ hu hu' => ih h.2 hbody hu hu'
  | doLoop body test ih =>
    have hbody : body.Straight base v :=
      hv.part .inLoop (fun _ => rfl) fun site hs => by
        simp only [sites, Site.at_append, Site.at_map]
        exact .inl ⟨site, hs, rfl⟩
    exact LeadsRound.unique ht ht' (hv.ne h.1 (by simp [sites])) (fun hne => absurd rfl hne)
      fun _ _ hu hu' => ih h.2 hbody hu hu'
  | forLoop test body update ih =>
    have hbody : body.Straight (base + 1) v :=
      hv.part .inLoop (fun _ => rfl) fun site hs => by
        simp only [sites, Site.at_cons, Site.at_append, Site.at_map]
        exact .inr (.inl ⟨site, hs, rfl⟩)
    refine LeadsRound.unique ht ht' (hv.ne h.1 (by simp [sites])) (fun hne u hu => ?_)
      fun _ _ hu hu' => ih h.2.1 hbody hu hu'
    -- the update stands behind the body
    have hrange := hu.within.1
    unfold backOf at hne hrange
    split at hrange
    · omega
    · simp_all
  | switch test hasDefault body ih =>
    have htest : v ≠ base := hv.ne h.1 (by simp [sites])
    have hbody : body.Straight (base + 1) v :=
      hv.part .inSwitch (fun _ => rfl) fun site hs => by
        simp only [sites, Site.at_cons, Site.at_map]
        exact .inr ⟨site, hs, rfl⟩
    rcases ht with ⟨hbase, _⟩ | ⟨u, hu, rfl⟩
    · exact absurd hbase htest
    · rcases ht' with ⟨hbase, _⟩ | ⟨u', hu', rfl⟩
      · exact absurd hbase htest
      · rw [ih h.2.1 hbody hu hu']
  | _ =>
    obtain ⟨_, rfl⟩ := ht
    obtain ⟨_, rfl⟩ := ht'
    rfl

end Stmt

namespace Flow

namespace Draft

def outline (d : Draft) : List (PointKind × Option Int) :=
  d.graph.nodes.map fun n => (n.kind, n.line)

def Packed (d : Draft) : Prop := ∀ v ∈ d.graph.ids, v < d.base

structure Gains (d d' : Draft) (sites : List Site) : Prop where
  packed : d'.Packed
  outline_eq : d'.outline = d.outline ++ sites.map Site.outline
  labels_iff : ∀ name v, (name, v) ∈ d'.labels ↔
    (name, v) ∈ d.labels ∨ ∃ s, Site.At sites d.base v s ∧ s.bears = some name

variable {d d' d'' : Draft} {sites sites' : List Site} {ends : List LooseEnd}

theorem length_outline (d : Draft) : (d.outline.length : Int) = d.base := by
  rw [outline, List.length_map, base]

theorem Gains.base_eq (h : Gains d d' sites) : d'.base = d.base + sites.length := by
  rw [← length_outline, h.outline_eq, List.length_append, List.length_map, Int.natCast_add,
    length_outline]

theorem Gains.trans (h : Gains d d' sites) (h' : Gains d' d'' sites') :
    Gains d d'' (sites ++ sites') where
  packed := h'.packed
  outline_eq := by rw [h'.outline_eq, h.outline_eq, List.map_append, List.append_assoc]
  labels_iff name v := by
    rw [h'.labels_iff, h.labels_iff, h.base_eq]
    simp only [Site.at_append, or_and_right, exists_or, or_assoc]

theorem Gains.enclosed {around : Site → Site} (h : Gains d d' sites)
    (houtline : ∀ s, (around s).outline = s.outline) (hbears : ∀ s, (around s).bears = s.bears) :
    Gains d d' (sites.map around) where
  packed := h.packed
  outline_eq := by
    rw [h.outline_eq, List.map_map]
    exact congrArg _ (List.map_congr_left fun s _ => (houtline s).symm)
  labels_iff name v := by
    rw [h.labels_iff]
    simp only [Site.at_map]
    constructor
    · rintro (hold | ⟨s, hs, hb⟩)
      · exact .inl hold
      · exact .inr ⟨_, ⟨s, hs, rfl⟩, (hbears s).trans hb⟩
    · rintro (hold | ⟨_, ⟨s, hs, rfl⟩, hb⟩)
      · exact .inl hold
      · exact .inr ⟨s, hs, (hbears s).symm.trans hb⟩

theorem Gains.inLoop (h : Gains d d' sites) : Gains d d' (sites.map .inLoop) :=
  h.enclosed (fun _ => rfl) fun _ => rfl

theorem Gains.inSwitch (h : Gains d d' sites) : Gains d d' (sites.map .inSwitch) :=
  h.enclosed (fun _ => rfl) fun _ => rfl

theorem Packed.gains_refl (h : d.Packed) : Gains d d [] := ⟨h, by simp, by simp⟩

theorem Gains.edge (h : Gains d d' sites) (source target : Int) (label : String) :
    Gains d (d'.edge source target label) sites := by
  have hnodes : (d'.edge source target label).graph.nodes = d'.graph.nodes :=
    Graph.nodes_addEdge ..
  refine ⟨?_, ?_, h.labels_iff⟩
  · unfold Packed Graph.ids base
    rw [hnodes]
    exact h.packed
  · unfold outline
    rw [hnodes]
    exact h.outline_eq

theorem Gains.tie (h : Gains d d' sites) (ends : List LooseEnd) (target : Int) :
    Gains d (d'.tie ends target) sites := by
  induction ends generalizing d' with
  | nil => exact h
  | cons e ends ih => exact ih (h.edge e.source target e.label)

theorem Gains.warn (h : Gains d d' sites) (w : FlowWarning) : Gains d (d'.warn w) sites :=
  ⟨h.packed, h.outline_eq, h.labels_iff⟩

theorem Packed.add (h : d.Packed) (p : Point) (ends : List LooseEnd) :
    Gains d (d.add p ends) [.ofPoint p] := by
  have hfresh : d.nextId ∉ d.graph.ids := fun hmem => Int.lt_irrefl _ (h _ hmem)
  have hnodes : (d.graph.addNode { p with id := d.nextId }).nodes =
      d.graph.nodes ++ [{ p with id := d.nextId }] := by
    rw [Graph.addNode, if_neg (by rwa [Graph.node?_isSome])]
  let added : Draft := { d with graph := d.graph.addNode { p with id := d.nextId } }
  have hbase : added.base = d.base + 1 := by
    show ((d.graph.addNode { p with id := d.nextId }).nodes.length : Int) = _
    rw [hnodes, List.length_append, List.length_singleton, base]
    omega
  suffices hadded : Gains d added [.ofPoint p] from hadded.tie ends d.nextId
  refine ⟨?_, ?_, by simp [Site.ofPoint, added]⟩
  · intro v hv
    rw [Graph.ids_addNode hfresh, List.mem_append, List.mem_singleton] at hv
    rw [hbase]
    rcases hv with hv | hv
    · exact Int.lt_add_one_of_le (Int.le_of_lt (h v hv))
    · rw [hv]
      exact Int.lt_add_one_of_le (Int.le_refl _)
  · show (d.graph.addNode { p with id := d.nextId }).nodes.map _ = _
    rw [hnodes, List.map_append]
    rfl

theorem Gains.land (h : Gains d d' sites) (jump : NodeId × String) :
    Gains d (land d' jump) sites := by
  unfold Flow.land
  split
  · exact h.edge ..
  · exact h.warn _

theorem Gains.foldl_land (h : Gains d d' sites) (jumps : List (NodeId × String)) :
    Gains d (jumps.foldl Flow.land d') sites := by
  induction jumps generalizing d' with
  | nil => exact h
  | cons jump jumps ih => exact ih (h.land jump)

end Draft

open Draft

theorem emit_gains (s : Stmt) (around : Surroundings) {d : Draft} (h : d.Packed)
    (ends : List LooseEnd) : Gains d (emit s around d ends).draft s.sites := by
  induction s generalizing around d ends with
  | skip => exact h.gains_refl
  | point p => exact h.add p ends
  | seq first second ih₁ ih₂ =>
    have h₁ := ih₁ around h ends
    exact h₁.trans (ih₂ around h₁.packed _)
  | branch test yes no ih₁ ih₂ =>
    have hadd := h.add test ends
    have h₁ := ih₁ { around with switchTest := none } hadd.packed [⟨d.nextId, "Y"⟩]
    exact hadd.trans (h₁.trans (ih₂ _ h₁.packed _))
  | loop test body ih =>
    have hadd := h.add test ends
    exact (hadd.trans (ih _ hadd.packed _).inLoop).tie ..
  | doLoop body test ih =>
    have hbody := ih { breakable := true, loop := some .later } h ends
    exact (hbody.inLoop.trans (hbody.packed.add test _)).edge ..
  | forLoop test body update ih =>
    have hadd := h.add test ends
    have hbody := ih { breakable := true, loop := some .later } hadd.packed [⟨d.nextId, "Y"⟩]
    cases update with
    | none =>
      rw [Stmt.sites, Option.toList_none, List.map_nil, List.append_nil]
      exact (hadd.trans hbody.inLoop).tie ..
    | some p => exact (hadd.trans (hbody.inLoop.trans (hbody.packed.add p _))).edge ..
  | switch test hasDefault body ih =>
    have hadd := h.add test ends
    exact hadd.trans (ih _ hadd.packed _).inSwitch
  | caseLabel p => exact h.add p _
  | breakJump p =>
    unfold emit
    dsimp only
    split
    · exact h.add p ends
    · exact (h.add p ends).warn _
  | continueJump p =>
    unfold emit
    dsimp only
    split
    · exact (h.add p ends).edge ..
    · exact h.add p ends
    · exact (h.add p ends).warn _
  | returnJump p => exact (h.add p ends).edge ..
  | gotoJump p name =>
    have hadd := h.add p ends
    refine ⟨hadd.packed, hadd.outline_eq, fun name' v => ?_⟩
    simpa [emit, Stmt.sites, Site.ofPoint] using hadd.labels_iff name' v
  | label p name =>
    have hadd := h.add p ends
    refine ⟨hadd.packed, hadd.outline_eq, fun name' v => ?_⟩
    simp only [emit, List.mem_cons, hadd.labels_iff name' v]
    simp [Stmt.sites, Site.ofPoint, or_comm, eq_comm, and_comm]

end Flow

end Backslice

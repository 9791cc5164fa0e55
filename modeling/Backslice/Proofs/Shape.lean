import Backslice.Proofs.Analysis
import Backslice.Proofs.Flow.Shape
import Backslice.Proofs.Tree
import Mathlib.Tactic.SplitIfs

namespace Backslice

namespace Tree

variable (src : Source)

def site (kind : PointKind) (t : Tree) : Site := { kind, line := some (src.line t) }

def declaratorSites (ts : List Tree) : List Site :=
  (ts.filter fun d => d.field = "declarator" ∧ d.kind ≠ "function_declarator").map
    (site src .declaration)

def initializerSites (t : Tree) : List Site :=
  match t.child? "initializer" with
  | none => []
  | some init =>
    if init.kind = "declaration" then declaratorSites src init.children
    else [init.site src .forInit]

def labelName? (t : Tree) : Option String := (src.textOf (t.child? "label")).toOption

mutual

/-- The points of a statement. What has no rule of its own is one point. -/
def sites (t : Tree) : List Site :=
  if t.named = false ∨ t.kind = "comment" then []
  else if t.kind = "compound_statement" then sitesOf none t.children
  else if t.kind = "declaration" then declaratorSites src t.children
  else if t.kind = "expression_statement" then
    if t.namedChildren.isEmpty then [] else [t.site src .expression]
  else if t.kind = "if_statement" then
    t.site src .ifTest ::
      ((match _h : t.child? "consequence" with
        | some c => c.sites
        | none => []) ++
      (match _h : t.otherwise? with
        | some a => a.sites
        | none => []))
  else if t.kind = "while_statement" then
    t.site src .whileTest :: (match _h : t.child? "body" with
      | some body => body.sites
      | none => []).map .inLoop
  else if t.kind = "do_statement" then
    (match _h : t.child? "body" with
      | some body => body.sites
      | none => []).map .inLoop ++ [((t.child? "condition").getD t).site src .doTest]
  else if t.kind = "for_statement" then
    t.initializerSites src ++ (t.site src .forTest ::
      ((match _h : t.child? "body" with
        | some body => body.sites
        | none => []).map .inLoop ++ (t.child? "update").toList.map (site src .forUpdate)))
  else if t.kind = "for_range_loop" then
    t.site src .rangeTest :: (match _h : t.child? "body" with
      | some body => body.sites
      | none => []).map .inLoop
  else if t.kind = "switch_statement" then
    t.site src .switchTest :: (match _h : t.child? "body" with
      | some body => armSites body.children
      | none => []).map .inSwitch
  else if t.kind = "break_statement" then [t.site src .breakJump]
  else if t.kind = "continue_statement" then [t.site src .continueJump]
  else if t.kind = "return_statement" then [t.site src .returnJump]
  else if t.kind = "goto_statement" then
    [{ t.site src .gotoJump with seeks := t.labelName? src }]
  else if t.kind = "labeled_statement" then
    { t.site src .label with bears := t.labelName? src } ::
      sitesOf ((t.child? "label").map (·.key)) t.children
  else [t.site src .statement]
termination_by 2 * sizeOf t + 1
decreasing_by
  · have := t.sizeOf_children_lt
    omega
  · have := sizeOf_child?_lt _h
    omega
  · have := sizeOf_otherwise?_lt _h
    omega
  · have := sizeOf_child?_lt _h
    omega
  · have := sizeOf_child?_lt _h
    omega
  · have := sizeOf_child?_lt _h
    omega
  · have := sizeOf_child?_lt _h
    omega
  · have := sizeOf_child?_lt _h
    have := body.sizeOf_children_lt
    omega
  · have := t.sizeOf_children_lt
    omega

def sitesOf (skipped : Option Key) (ts : List Tree) : List Site :=
  match ts with
  | [] => []
  | t :: ts => (if some t.key = skipped then [] else t.sites) ++ sitesOf skipped ts
termination_by 2 * sizeOf ts
decreasing_by
  all_goals simp only [List.cons.sizeOf_spec]; omega

def armSites (ts : List Tree) : List Site :=
  match ts with
  | [] => []
  | t :: ts =>
    (if t.named ∧ t.kind = "case_statement" then
      t.site src .caseLabel :: sitesOf ((t.child? "value").map (·.key)) t.children
    else t.sites) ++ armSites ts
termination_by 2 * sizeOf ts
decreasing_by
  · have := t.sizeOf_children_lt
    simp only [List.cons.sizeOf_spec]
    omega
  all_goals simp only [List.cons.sizeOf_spec]; omega

end

def sitesIn : Option Tree → List Site
  | some t => t.sites src
  | none => []

theorem sites_match_eq (o : Option Tree) :
    (match _h : o with
      | some c => c.sites src
      | none => []) = sitesIn src o := by
  cases o <;> rfl

def armsIn : Option Tree → List Site
  | some body => armSites src body.children
  | none => []

theorem arms_match_eq (o : Option Tree) :
    (match _h : o with
      | some body => armSites src body.children
      | none => []) = armsIn src o := by
  cases o <;> rfl

end Tree

namespace Stmt

open Access (Code)

structure Stands (s : Stmt) (sites : List Site) : Prop where
  sites_eq : s.sites = sites
  proper : s.Proper
  lined : ∀ site ∈ sites, site.line ≠ none

def Marks (p : Point) (site : Site) : Prop := Site.ofPoint p = site ∧ site.line ≠ none

variable {code : Code} {t c place : Tree} {ts : List Tree} {s s₁ s₂ : Stmt} {p test : Point}
  {kind : PointKind} {site : Site} {sites₁ sites₂ : List Site} {text : String}

theorem Marks.kind_eq (h : Marks p site) : p.kind = site.kind := congrArg Site.kind h.1

theorem marks_pointWith (h : pointWith code kind t text = .ok p) :
    Marks p (t.site code.source kind) := by
  obtain ⟨access, _, h⟩ := exists_of_bind_eq_ok h
  cases h
  exact ⟨rfl, Option.some_ne_none _⟩

theorem marks_pointOf (h : pointOf code kind t = .ok p) : Marks p (t.site code.source kind) := by
  obtain ⟨text, _, h⟩ := exists_of_bind_eq_ok h
  exact marks_pointWith h

theorem marks_testOf {condition : Option Tree}
    (h : testOf code kind place text condition = .ok p) :
    Marks p (place.site code.source kind) := by
  obtain ⟨access, _, h⟩ := exists_of_bind_eq_ok h
  cases h
  exact ⟨rfl, Option.some_ne_none _⟩

theorem stands_skip : Stands .skip [] := ⟨rfl, trivial, List.forall_mem_nil _⟩

theorem Stands.seq (h₁ : Stands s₁ sites₁) (h₂ : Stands s₂ sites₂) :
    Stands (.seq s₁ s₂) (sites₁ ++ sites₂) where
  sites_eq := by rw [Stmt.sites, h₁.sites_eq, h₂.sites_eq]
  proper := ⟨h₁.proper, h₂.proper⟩
  lined := List.forall_mem_append.mpr ⟨h₁.lined, h₂.lined⟩

theorem stands_point (h : Marks p (t.site code.source kind)) (hbreak : kind ≠ .breakJump)
    (hcontinue : kind ≠ .continueJump) : Stands (.point p) [t.site code.source kind] where
  sites_eq := congrArg ([·]) h.1
  proper := ⟨h.kind_eq ▸ hbreak, h.kind_eq ▸ hcontinue⟩
  lined := List.forall_mem_singleton.mpr h.2

theorem Stands.branch (htest : Marks test site) (hkind : site.kind.isTest = true)
    (h₁ : Stands s₁ sites₁) (h₂ : Stands s₂ sites₂) :
    Stands (.branch test s₁ s₂) (site :: (sites₁ ++ sites₂)) where
  sites_eq := by rw [Stmt.sites, htest.1, h₁.sites_eq, h₂.sites_eq]
  proper := ⟨htest.kind_eq ▸ hkind, h₁.proper, h₂.proper⟩
  lined := List.forall_mem_cons.mpr ⟨htest.2, (h₁.seq h₂).lined⟩

theorem Stands.loop (htest : Marks test site) (hkind : site.kind.isTest = true)
    (h : Stands s sites₁) : Stands (.loop test s) (site :: sites₁.map .inLoop) where
  sites_eq := by rw [Stmt.sites, htest.1, h.sites_eq]
  proper := ⟨htest.kind_eq ▸ hkind, h.proper⟩
  lined := List.forall_mem_cons.mpr ⟨htest.2, List.forall_mem_map.mpr h.lined⟩

theorem Stands.doLoop (htest : Marks test site) (hkind : site.kind.isTest = true)
    (h : Stands s sites₁) : Stands (.doLoop s test) (sites₁.map .inLoop ++ [site]) where
  sites_eq := by rw [Stmt.sites, htest.1, h.sites_eq]
  proper := ⟨htest.kind_eq ▸ hkind, h.proper⟩
  lined := List.forall_mem_append.mpr
    ⟨List.forall_mem_map.mpr h.lined, List.forall_mem_singleton.mpr htest.2⟩

theorem Stands.forLoop {update : Option Point} {updateSites : List Site}
    (htest : Marks test site) (hkind : site.kind.isTest = true) (h : Stands s sites₁)
    (hupdate : update.toList.map Site.ofPoint = updateSites)
    (hkinds : ∀ u ∈ updateSites, u.kind ≠ .breakJump ∧ u.kind ≠ .continueJump ∧ u.line ≠ none) :
    Stands (.forLoop test s update) (site :: (sites₁.map .inLoop ++ updateSites)) where
  sites_eq := by rw [Stmt.sites, htest.1, h.sites_eq, hupdate]
  proper := by
    refine ⟨htest.kind_eq ▸ hkind, h.proper, fun p hp => ?_⟩
    have hmem : Site.ofPoint p ∈ updateSites := hupdate ▸ List.mem_map_of_mem (by simpa using hp)
    exact ⟨(hkinds _ hmem).1, (hkinds _ hmem).2.1⟩
  lined := List.forall_mem_cons.mpr ⟨htest.2, List.forall_mem_append.mpr
    ⟨List.forall_mem_map.mpr h.lined, fun u hu => (hkinds u hu).2.2⟩⟩

theorem Stands.switch {hasDefault : Bool} (htest : Marks test site)
    (hkind : site.kind.isTest = true) (h : Stands s sites₁)
    (hcase : hasDefault = true → ∀ base, s.caseIds base ≠ []) :
    Stands (.switch test hasDefault s) (site :: sites₁.map .inSwitch) where
  sites_eq := by rw [Stmt.sites, htest.1, h.sites_eq]
  proper := ⟨htest.kind_eq ▸ hkind, h.proper, hcase⟩
  lined := List.forall_mem_cons.mpr ⟨htest.2, List.forall_mem_map.mpr h.lined⟩

theorem stands_declarators {type : String} (h : declarators code type ts = .ok s) :
    Stands s (Tree.declaratorSites code.source ts) := by
  induction ts generalizing s with
  | nil =>
    cases h
    exact stands_skip
  | cons d ts ih =>
    rw [declarators] at h
    unfold Tree.declaratorSites
    by_cases hd : d.field ≠ "declarator" ∨ d.kind = "function_declarator"
    · rw [if_pos hd] at h
      rw [List.filter_cons_of_neg (by simpa [imp_iff_not_or] using hd)]
      exact ih h
    · rw [if_neg hd] at h
      rw [List.filter_cons_of_pos (by simpa [not_or] using hd), List.map_cons]
      obtain ⟨text, _, h⟩ := exists_of_bind_eq_ok h
      obtain ⟨access, _, h⟩ := exists_of_bind_eq_ok h
      obtain ⟨rest, hrest, h⟩ := exists_of_bind_eq_ok h
      cases h
      show Stands _ ([d.site code.source .declaration] ++ _)
      exact Stands.seq (stands_point ⟨rfl, Option.some_ne_none _⟩ (by decide) (by decide)) (ih hrest)

theorem stands_declaration (h : declaration code t = .ok s) :
    Stands s (Tree.declaratorSites code.source t.children) := by
  unfold declaration at h
  split at h <;>
  · obtain ⟨type, _, h⟩ := exists_of_bind_eq_ok h
    exact stands_declarators h

theorem stands_forInit (h : forInit code t = .ok s) :
    Stands s (t.initializerSites code.source) := by
  unfold forInit at h
  unfold Tree.initializerSites
  cases hi : t.child? "initializer" with
  | none =>
    simp only [hi, Except.ok.injEq] at h
    exact h ▸ stands_skip
  | some init =>
    simp only [hi] at h ⊢
    by_cases hd : init.kind = "declaration"
    · rw [if_pos hd] at h ⊢
      exact stands_declaration h
    · rw [if_neg hd] at h ⊢
      obtain ⟨p, hp, rfl⟩ := exists_of_map_eq_ok h
      exact stands_point (marks_pointOf hp) (by decide) (by decide)

def Keeps (code : Code) (t : Tree) : Prop :=
  ∀ s, ofTree code t = .ok s → Stands s (t.sites code.source)

theorem stands_ofTrees (ht : ∀ t ∈ ts, Keeps code t) {skipped : Option Tree.Key}
    (h : ofTrees code skipped ts = .ok s) : Stands s (Tree.sitesOf code.source skipped ts) := by
  induction ts generalizing s with
  | nil =>
    rw [ofTrees] at h
    cases h
    rw [Tree.sitesOf]
    exact stands_skip
  | cons t ts ih =>
    rw [List.forall_mem_cons] at ht
    rw [ofTrees] at h
    rw [Tree.sitesOf]
    split at h <;> rename_i hskip
    · rw [if_pos hskip]
      obtain ⟨first, hfirst, h⟩ := exists_of_bind_eq_ok h
      obtain ⟨rest, hrest, h⟩ := exists_of_bind_eq_ok h
      cases hfirst
      cases h
      exact stands_skip.seq (ih ht.2 hrest)
    · rw [if_neg hskip]
      obtain ⟨first, hfirst, h⟩ := exists_of_bind_eq_ok h
      obtain ⟨rest, hrest, h⟩ := exists_of_bind_eq_ok h
      cases h
      exact (ht.1 first hfirst).seq (ih ht.2 hrest)

theorem stands_ofCase (ht : ∀ c ∈ t.children, Keeps code c) (h : ofCase code t = .ok s) :
    Stands s (t.site code.source .caseLabel ::
      Tree.sitesOf code.source ((t.child? "value").map (·.key)) t.children) ∧
      ∀ base, s.caseIds base ≠ [] := by
  rw [ofCase] at h
  split at h <;>
  · obtain ⟨text, _, h⟩ := exists_of_bind_eq_ok h
    obtain ⟨body, hb, h⟩ := exists_of_bind_eq_ok h
    cases h
    refine ⟨?_, fun base => by simp [caseIds]⟩
    have hlabel : ∀ text, Stands
        (.caseLabel ⟨.caseLabel, some (code.source.line t), text, false, [], []⟩)
        [t.site code.source .caseLabel] := fun _ =>
      ⟨rfl, by simp [Proper], List.forall_mem_singleton.mpr (Option.some_ne_none _)⟩
    exact (hlabel _).seq (stands_ofTrees ht hb)

theorem stands_ofArms (ht : ∀ t ∈ ts, Keeps code t ∧ ∀ c ∈ t.children, Keeps code c)
    (h : ofArms code ts = .ok s) : Stands s (Tree.armSites code.source ts) ∧
      ((∃ t ∈ ts, t.named = true ∧ t.kind = "case_statement") → ∀ base, s.caseIds base ≠ []) := by
  induction ts generalizing s with
  | nil =>
    rw [ofArms] at h
    cases h
    rw [Tree.armSites]
    exact ⟨stands_skip, by simp⟩
  | cons t ts ih =>
    rw [List.forall_mem_cons] at ht
    rw [ofArms] at h
    rw [Tree.armSites]
    split at h <;> rename_i hcase
    · rw [if_pos hcase]
      obtain ⟨first, hfirst, h⟩ := exists_of_bind_eq_ok h
      obtain ⟨rest, hrest, h⟩ := exists_of_bind_eq_ok h
      cases h
      obtain ⟨hlabel, hids⟩ := stands_ofCase ht.1.2 hfirst
      exact ⟨hlabel.seq (ih ht.2 hrest).1, fun _ base => by simp [caseIds, hids]⟩
    · rw [if_neg hcase]
      obtain ⟨first, hfirst, h⟩ := exists_of_bind_eq_ok h
      obtain ⟨rest, hrest, h⟩ := exists_of_bind_eq_ok h
      cases h
      obtain ⟨harms, hids⟩ := ih ht.2 hrest
      refine ⟨(ht.1.1 first hfirst).seq harms, ?_⟩
      rintro ⟨c, hc, hc'⟩ base
      rcases List.mem_cons.mp hc with rfl | hc
      · exact absurd hc' hcase
      · simp [caseIds, hids ⟨c, hc, hc'⟩]

section

variable (ht : ∀ c, sizeOf c < sizeOf t → Keeps code c)

include ht

theorem stands_child {field : String} (hc : t.child? field = some c)
    (h : ofTree code c = .ok s) : Stands s (Tree.sitesIn code.source (t.child? field)) := by
  rw [hc]
  exact ht c (Tree.sizeOf_child?_lt hc) s h

variable (hstmt : ¬ (t.named = false ∨ t.kind = "comment")) (h : ofTree code t = .ok s)

include hstmt h

theorem stands_if (hk : t.kind = "if_statement") : Stands s (t.sites code.source) := by
  rw [ofTree, if_neg hstmt] at h
  rw [Tree.sites, if_neg hstmt]
  simp only [hk, String.reduceEq, reduceIte, Tree.sites_match_eq] at h ⊢
  obtain ⟨text, _, h⟩ := exists_of_bind_eq_ok h
  obtain ⟨test, htest, h⟩ := exists_of_bind_eq_ok h
  split at h
  case h_2 => cases h
  rename_i c hc
  obtain ⟨yes, hyes, h⟩ := exists_of_bind_eq_ok h
  have hyes := stands_child ht hc hyes
  split at h
  · rename_i a ha
    rw [Tree.alternative?_eq_otherwise?] at ha
    obtain ⟨no, hno, h⟩ := exists_of_bind_eq_ok h
    cases h
    rw [ha]
    exact Stands.branch (marks_testOf htest) rfl hyes (ht a (Tree.sizeOf_otherwise?_lt ha) _ hno)
  · rename_i ha
    rw [Tree.alternative?_eq_otherwise?] at ha
    cases h
    rw [ha]
    exact Stands.branch (marks_testOf htest) rfl hyes stands_skip

theorem stands_while (hk : t.kind = "while_statement") : Stands s (t.sites code.source) := by
  rw [ofTree, if_neg hstmt] at h
  rw [Tree.sites, if_neg hstmt]
  simp only [hk, String.reduceEq, reduceIte, Tree.sites_match_eq] at h ⊢
  obtain ⟨text, _, h⟩ := exists_of_bind_eq_ok h
  obtain ⟨test, htest, h⟩ := exists_of_bind_eq_ok h
  split at h
  case h_2 => cases h
  rename_i body hb
  obtain ⟨s', hs', h⟩ := exists_of_bind_eq_ok h
  cases h
  exact Stands.loop (marks_testOf htest) rfl (stands_child ht hb hs')

theorem stands_do (hk : t.kind = "do_statement") : Stands s (t.sites code.source) := by
  rw [ofTree, if_neg hstmt] at h
  rw [Tree.sites, if_neg hstmt]
  simp only [hk, String.reduceEq, reduceIte, Tree.sites_match_eq] at h ⊢
  split at h
  case h_2 => cases h
  rename_i body hb
  obtain ⟨s', hs', h⟩ := exists_of_bind_eq_ok h
  obtain ⟨text, _, h⟩ := exists_of_bind_eq_ok h
  obtain ⟨test, htest, h⟩ := exists_of_bind_eq_ok h
  cases h
  exact Stands.doLoop (marks_testOf htest) rfl (stands_child ht hb hs')

theorem stands_range (hk : t.kind = "for_range_loop") : Stands s (t.sites code.source) := by
  rw [ofTree, if_neg hstmt] at h
  rw [Tree.sites, if_neg hstmt]
  simp only [hk, String.reduceEq, reduceIte, Tree.sites_match_eq] at h ⊢
  split at h
  case h_1 => cases h
  rename_i body hb
  obtain ⟨text, _, h⟩ := exists_of_bind_eq_ok h
  obtain ⟨test, htest, h⟩ := exists_of_bind_eq_ok h
  obtain ⟨s', hs', h⟩ := exists_of_bind_eq_ok h
  cases h
  -- the loop variable is one more definition of the test, which its site does not show
  have hmarks := marks_testOf htest
  exact Stands.loop ⟨hmarks.1, hmarks.2⟩ rfl (stands_child ht hb hs')

theorem stands_for (hk : t.kind = "for_statement") : Stands s (t.sites code.source) := by
  rw [ofTree, if_neg hstmt] at h
  rw [Tree.sites, if_neg hstmt]
  simp only [hk, String.reduceEq, reduceIte, Tree.sites_match_eq] at h ⊢
  obtain ⟨init, hinit, h⟩ := exists_of_bind_eq_ok h
  have hinit := stands_forInit hinit
  split at h <;>
  · obtain ⟨text, _, h⟩ := exists_of_bind_eq_ok h
    obtain ⟨test, htest, h⟩ := exists_of_bind_eq_ok h
    split at h
    case h_2 => cases h
    rename_i body hb
    obtain ⟨s', hs', h⟩ := exists_of_bind_eq_ok h
    have hbody := stands_child ht hb hs'
    split at h
    · rename_i u hu
      obtain ⟨update, hupdate, h⟩ := exists_of_bind_eq_ok h
      obtain ⟨p, hp, rfl⟩ := exists_of_map_eq_ok hupdate
      cases h
      rw [hu]
      obtain ⟨hp, hline⟩ := marks_pointOf hp
      exact hinit.seq (Stands.forLoop (marks_testOf htest) rfl hbody (congrArg ([·]) hp)
        (List.forall_mem_singleton.mpr ⟨by simp [Tree.site], by simp [Tree.site], hline⟩))
    · rename_i hu
      cases h
      rw [hu]
      exact hinit.seq (Stands.forLoop (marks_testOf htest) rfl hbody rfl
        (List.forall_mem_nil _))

theorem stands_switch (hk : t.kind = "switch_statement") : Stands s (t.sites code.source) := by
  rw [ofTree, if_neg hstmt] at h
  rw [Tree.sites, if_neg hstmt]
  simp only [hk, String.reduceEq, reduceIte, Tree.arms_match_eq] at h ⊢
  obtain ⟨text, _, h⟩ := exists_of_bind_eq_ok h
  obtain ⟨test, htest, h⟩ := exists_of_bind_eq_ok h
  split at h
  · rename_i body hb
    obtain ⟨s', hs', h⟩ := exists_of_bind_eq_ok h
    cases h
    have htb : ∀ c, sizeOf c < sizeOf body → Keeps code c := fun c hc =>
      ht c (Nat.lt_trans hc (Tree.sizeOf_child?_lt hb))
    obtain ⟨harms, hids⟩ := stands_ofArms (fun c hc => ⟨htb c (Tree.sizeOf_lt_of_mem hc),
      fun d hd => htb d (Nat.lt_trans (Tree.sizeOf_lt_of_mem hd) (Tree.sizeOf_lt_of_mem hc))⟩) hs'
    rw [hb]
    refine Stands.switch (marks_testOf htest) rfl harms fun hdefault => hids ?_
    rw [List.any_eq_true] at hdefault
    obtain ⟨c, hc, hdefault⟩ := hdefault
    rw [Tree.namedChildren, List.mem_filter] at hc
    rw [Bool.and_eq_true, beq_iff_eq] at hdefault
    exact ⟨c, hc.1, hc.2, hdefault.1⟩
  · rename_i hb
    cases h
    rw [hb]
    exact Stands.switch (marks_testOf htest) rfl stands_skip (by simp)

theorem stands_labeled (hk : t.kind = "labeled_statement") : Stands s (t.sites code.source) := by
  rw [ofTree, if_neg hstmt] at h
  rw [Tree.sites, if_neg hstmt]
  simp only [hk, String.reduceEq, reduceIte] at h ⊢
  split at h
  · cases h
  · rename_i labelNode hl
    obtain ⟨name, hname, h⟩ := exists_of_bind_eq_ok h
    obtain ⟨body, hb, h⟩ := exists_of_bind_eq_ok h
    cases h
    have hlabel : t.labelName? code.source = some name := by
      rw [Tree.labelName?, hl, Source.textOf, hname]
      rfl
    rw [hlabel, hl]
    have hpoint : Stands
        (.label ⟨.label, some (code.source.line t), name ++ ":", false, [], []⟩ name)
        [{ t.site code.source .label with bears := some name }] :=
      ⟨rfl, by simp [Proper], List.forall_mem_singleton.mpr (Option.some_ne_none _)⟩
    exact hpoint.seq (stands_ofTrees (fun c hc => ht c (Tree.sizeOf_lt_of_mem hc)) hb)

end

theorem stands_goto (hstmt : ¬ (t.named = false ∨ t.kind = "comment"))
    (h : ofTree code t = .ok s) (hk : t.kind = "goto_statement") :
    Stands s (t.sites code.source) := by
  rw [ofTree, if_neg hstmt] at h
  rw [Tree.sites, if_neg hstmt]
  simp only [hk, String.reduceEq, reduceIte] at h ⊢
  obtain ⟨p, hp, h⟩ := exists_of_bind_eq_ok h
  obtain ⟨target, htarget, h⟩ := exists_of_bind_eq_ok h
  cases h
  have hmarks := marks_pointOf hp
  have hlabel : t.labelName? code.source = some target := by
    rw [Tree.labelName?, htarget]
    rfl
  rw [hlabel]
  refine ⟨?_, hmarks.kind_eq, List.forall_mem_singleton.mpr hmarks.2⟩
  rw [Stmt.sites, hmarks.1]

theorem keeps (code : Code) (t : Tree) : Keeps code t := by
  -- on the size, as an `else` branch is no child but a grandchild
  induction hn : sizeOf t using Nat.strongRecOn generalizing t with
  | ind n ih =>
  subst hn
  have ht : ∀ c, sizeOf c < sizeOf t → Keeps code c := fun c hc => ih _ hc c rfl
  intro s h
  by_cases hstmt : t.named = false ∨ t.kind = "comment"
  · rw [ofTree, if_pos hstmt] at h
    rw [Tree.sites, if_pos hstmt]
    cases h
    exact stands_skip
  by_cases hif : t.kind = "if_statement"
  · exact stands_if ht hstmt h hif
  by_cases hwhile : t.kind = "while_statement"
  · exact stands_while ht hstmt h hwhile
  by_cases hdo : t.kind = "do_statement"
  · exact stands_do ht hstmt h hdo
  by_cases hfor : t.kind = "for_statement"
  · exact stands_for ht hstmt h hfor
  by_cases hrange : t.kind = "for_range_loop"
  · exact stands_range ht hstmt h hrange
  by_cases hswitch : t.kind = "switch_statement"
  · exact stands_switch ht hstmt h hswitch
  by_cases hgoto : t.kind = "goto_statement"
  · exact stands_goto hstmt h hgoto
  by_cases hlabeled : t.kind = "labeled_statement"
  · exact stands_labeled ht hstmt h hlabeled
  -- what is left runs its children in order, or is one point
  rw [ofTree, if_neg hstmt] at h
  rw [Tree.sites, if_neg hstmt]
  simp only [hif, hwhile, hdo, hfor, hrange, hswitch, hgoto, hlabeled, reduceIte] at h ⊢
  split_ifs at h ⊢ with hcompound hdeclaration hexpression hempty hbreak hcontinue hreturn
  · exact stands_ofTrees (fun c hc => ht c (Tree.sizeOf_lt_of_mem hc)) h
  · exact stands_declaration h
  · cases h
    exact stands_skip
  · obtain ⟨p, hp, rfl⟩ := exists_of_map_eq_ok h
    exact stands_point (marks_pointOf hp) (by decide) (by decide)
  · obtain ⟨p, hp, rfl⟩ := exists_of_map_eq_ok h
    have hmarks := marks_pointWith hp
    exact ⟨congrArg ([·]) hmarks.1, hmarks.kind_eq, List.forall_mem_singleton.mpr hmarks.2⟩
  · obtain ⟨p, hp, rfl⟩ := exists_of_map_eq_ok h
    have hmarks := marks_pointWith hp
    exact ⟨congrArg ([·]) hmarks.1, hmarks.kind_eq, List.forall_mem_singleton.mpr hmarks.2⟩
  · obtain ⟨p, hp, rfl⟩ := exists_of_map_eq_ok h
    have hmarks := marks_pointOf hp
    exact ⟨congrArg ([·]) hmarks.1, by simp [Proper, hmarks.kind_eq, Tree.site],
      List.forall_mem_singleton.mpr hmarks.2⟩
  · obtain ⟨p, hp, rfl⟩ := exists_of_map_eq_ok h
    exact stands_point (marks_pointOf hp) (by decide) (by decide)

theorem stands_ofFunction {function : Tree} (h : ofFunction code function = .ok s) :
    Stands s (Tree.sitesIn code.source (function.child? "body")) := by
  unfold ofFunction at h
  split at h
  · rename_i body hbody
    rw [hbody]
    exact keeps code body s h
  · rename_i hbody
    cases h
    rw [hbody]
    exact stands_skip

end Stmt

namespace Flow

/-- The flow graph of a function has the shape that its tree says. -/
theorem flow_shape {src : Source} {suffix : RawText} {function : Tree} {scoping : Scoping}
    {draft : Draft} (h : Analysis.flowOf src suffix function = .ok (scoping, draft)) :
    Shape draft.graph (sitesWith (Tree.sitesIn src (function.child? "body"))) := by
  obtain ⟨body, hbody, rfl⟩ := Analysis.exists_body_of_flowOf h
  have hstands := Stmt.stands_ofFunction hbody
  have hshape := build_shape scoping.parameters hstands.proper
    (hstands.sites_eq ▸ hstands.lined)
  rwa [hstands.sites_eq] at hshape

def leaps : Source where
  bytes := "f() \x7b again: if (a) goto again; else b; break; goto out; \x7d".toUTF8
  root := ⟨true, "function_definition", "", 0, 58, [⟨true, "compound_statement", "body", 4, 58, [
    ⟨true, "labeled_statement", "", 6, 39, [
      ⟨true, "statement_identifier", "label", 6, 11, []⟩,
      ⟨true, "if_statement", "", 13, 39, [
        ⟨true, "parenthesized_expression", "condition", 16, 19, []⟩,
        ⟨true, "goto_statement", "consequence", 20, 31, [
          ⟨true, "statement_identifier", "label", 25, 30, []⟩]⟩,
        ⟨true, "else_clause", "alternative", 32, 39, [
          ⟨true, "expression_statement", "", 37, 39, [⟨true, "identifier", "", 37, 38, []⟩]⟩]⟩]⟩]⟩,
    ⟨true, "break_statement", "", 40, 46, []⟩,
    ⟨true, "goto_statement", "", 47, 56, [
      ⟨true, "statement_identifier", "label", 52, 55, []⟩]⟩]⟩]⟩
  damaged := false

set_option maxRecDepth 10000 in
theorem flow_shape_leaps :
    ∃ scoping draft, Analysis.flowOf leaps "#" leaps.root = .ok (scoping, draft) ∧
      Shape draft.graph (sitesWith (Tree.sitesIn leaps (leaps.root.child? "body"))) ∧
      draft.graph.nodes.map (·.kind) =
        [.entry, .label, .ifTest, .gotoJump, .expression, .breakJump, .gotoJump] ∧
      draft.graph.ids.map draft.graph.successors = [[1], [2], [3, 4], [1], [5], [], []] := by
  have hok : ((Analysis.flowOf leaps "#" leaps.root).toOption.any fun r => decide (
      r.2.graph.nodes.map (·.kind) =
        [.entry, .label, .ifTest, .gotoJump, .expression, .breakJump, .gotoJump] ∧
      r.2.graph.ids.map r.2.graph.successors = [[1], [2], [3, 4], [1], [5], [], []])) = true := by
    decide +kernel
  obtain ⟨⟨scoping, draft⟩, h, hok⟩ := exists_of_any hok
  exact ⟨scoping, draft, h, flow_shape h, of_decide_eq_true hok⟩

end Flow

end Backslice

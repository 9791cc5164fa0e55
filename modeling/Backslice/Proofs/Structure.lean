import Backslice.Proofs.Analysis
import Backslice.Proofs.Flow.Executions
import Backslice.Proofs.Tree
import Mathlib.Tactic.SplitIfs

/-!
The flow graph of a function against its syntax tree. The executions of a tree are given by its
control structures; the walks through the graph from the entry to the exit are these executions.
-/

namespace Backslice

namespace Program

theorem nothing_then (q : List Int → Finish → Prop) (base : Int) :
    Then (nothing.runs base) q = q := by
  funext l f
  refine propext ⟨?_, fun h => .inl ⟨[], l, rfl, ⟨rfl, rfl⟩, h⟩⟩
  rintro (⟨_, l₂, rfl, ⟨rfl, _⟩, h⟩ | ⟨hne, _, hdone⟩)
  · exact h
  · exact absurd hdone hne

theorem nothing_seq (p : Program) : nothing.seq p = p := by
  have hbase : ∀ base : Int, base + (nothing.units : Int) = base := fun base => Int.add_zero base
  ext1
  · exact Nat.zero_add _
  · funext base
    simp only [seq, nothing_then, hbase]
  · funext base l f
    simp [seq, nothing, Then]

end Program

namespace Tree

/-- One point for each declarator that declares no function. -/
def declarators : List Tree → Program
  | [] => .nothing
  | d :: ts =>
    if d.field ≠ "declarator" ∨ d.kind = "function_declarator" then declarators ts
    else .seq (.unit .done) (declarators ts)

def initializer (t : Tree) : Program :=
  match t.child? "initializer" with
  | none => .nothing
  | some init => if init.kind = "declaration" then declarators init.children else .unit .done

def hasDefault (ts : List Tree) : Bool :=
  (ts.filter (·.named)).any fun c => c.kind == "case_statement" && (c.child? "value").isNone

mutual

/-- What a statement can do. What has no rule of its own is one point. -/
def program (t : Tree) : Program :=
  if t.named = false ∨ t.kind = "comment" then .nothing
  else if t.kind = "compound_statement" then programs t.children
  else if t.kind = "declaration" then declarators t.children
  else if t.kind = "expression_statement" then
    if t.namedChildren.isEmpty then .nothing else .unit .done
  else if t.kind = "if_statement" then
    .branch
      (match _h : t.child? "consequence" with
        | some c => c.program
        | none => .nothing)
      (match _h : t.otherwise? with
        | some a => a.program
        | none => .nothing)
  else if t.kind = "while_statement" ∨ t.kind = "for_range_loop" then
    .loop (match _h : t.child? "body" with
      | some body => body.program
      | none => .nothing)
  else if t.kind = "do_statement" then
    .doLoop (match _h : t.child? "body" with
      | some body => body.program
      | none => .nothing)
  else if t.kind = "for_statement" then
    .seq t.initializer (.forLoop (t.child? "condition").isSome
      (match _h : t.child? "body" with
        | some body => body.program
        | none => .nothing)
      (t.child? "update").isSome)
  else if t.kind = "switch_statement" then
    match _h : t.child? "body" with
    | some body => .switch (hasDefault body.children) (arms body.children)
    | none => .switch false .nothing
  else if t.kind = "break_statement" then .unit .broke
  else if t.kind = "continue_statement" then .unit .continued
  else if t.kind = "return_statement" then .unit .returned
  else .unit .done
termination_by 2 * sizeOf t + 1
decreasing_by
  · have := t.sizeOf_children_lt
    omega
  · have := sizeOf_child?_lt _h
    omega
  · have := sizeOf_otherwise?_lt _h
    omega
  · have := sizeOf_child?_lt _h
    omega
  · have := sizeOf_child?_lt _h
    omega
  · have := sizeOf_child?_lt _h
    omega
  · have := sizeOf_child?_lt _h
    have := body.sizeOf_children_lt
    omega

def programs (ts : List Tree) : Program :=
  match ts with
  | [] => .nothing
  | t :: ts => .seq t.program (programs ts)
termination_by 2 * sizeOf ts
decreasing_by
  all_goals simp only [List.cons.sizeOf_spec]; omega

def caseBody (ts : List Tree) : Program :=
  match ts with
  | [] => .nothing
  | t :: ts => if t.field = "value" then programs ts else .seq t.program (caseBody ts)
termination_by 2 * sizeOf ts
decreasing_by
  all_goals simp only [List.cons.sizeOf_spec]; omega

/-- The body of a `switch`, with the case labels that stand directly in it. -/
def arms (ts : List Tree) : Program :=
  match ts with
  | [] => .nothing
  | t :: ts =>
    .seq (if t.named ∧ t.kind = "case_statement" then .seq .caseLabel (caseBody t.children)
      else t.program) (arms ts)
termination_by 2 * sizeOf ts
decreasing_by
  · have := t.sizeOf_children_lt
    simp only [List.cons.sizeOf_spec]
    omega
  all_goals simp only [List.cons.sizeOf_spec]; omega

end

def programOf : Option Tree → Program
  | some t => t.program
  | none => .nothing

theorem program_match_eq (o : Option Tree) :
    (match _h : o with
      | some c => c.program
      | none => .nothing) = programOf o := by
  cases o <;> rfl

def switchOf : Option Tree → Program
  | some body => .switch (hasDefault body.children) (arms body.children)
  | none => .switch false .nothing

theorem switch_match_eq (o : Option Tree) :
    (match _h : o with
      | some body => .switch (hasDefault body.children) (arms body.children)
      | none => .switch false .nothing) = switchOf o := by
  cases o <;> rfl

/-- A node is no jump to a label and no label, and if it is a case label, none of its children but
the value is taken for the value. -/
def Plain (t : Tree) : Prop :=
  t.kind ≠ "goto_statement" ∧ t.kind ≠ "labeled_statement" ∧
    (t.kind = "case_statement" → ∀ v ∈ t.child? "value",
      (t.children.filter fun c => c.key = v.key).length = 1)

instance : DecidablePred Plain := fun t =>
  inferInstanceAs (Decidable (t.kind ≠ "goto_statement" ∧ t.kind ≠ "labeled_statement" ∧
    (t.kind = "case_statement" → ∀ v ∈ t.child? "value",
      (t.children.filter fun c => c.key = v.key).length = 1)))

def Structured (t : Tree) : Prop := ∀ d ∈ t.nodes, d.Plain

instance : DecidablePred Structured := fun t => inferInstanceAs (Decidable (∀ d ∈ t.nodes, d.Plain))

variable {t c : Tree}

theorem Structured.plain (h : t.Structured) : t.Plain := h t (self_mem_nodes t)

theorem Structured.of_mem_nodes (h : t.Structured) (hc : c ∈ t.nodes) : c.Structured := by
  intro d hd
  exact h d (mem_nodes_trans hd hc)

theorem Structured.child (h : t.Structured) (hc : c ∈ t.children) : c.Structured :=
  h.of_mem_nodes (mem_nodes_of_child hc (self_mem_nodes c))

theorem Structured.otherwise (h : t.Structured) (hc : t.otherwise? = some c) : c.Structured := by
  obtain ⟨a, ha, hc⟩ := otherwise?_below hc
  exact h.of_mem_nodes (mem_nodes_of_child ha hc)

end Tree

namespace Stmt

open Access (Code)
open Backslice.Tree (Structured)

def Performs (s : Stmt) (p : Program) : Prop := s.program = p ∧ s.JumpFree

theorem performs_skip : Performs .skip .nothing := ⟨rfl, trivial⟩

theorem performs_point (p : Point) : Performs (.point p) (.unit .done) := ⟨rfl, trivial⟩

variable {code : Code} {t c : Tree} {ts : List Tree} {s s₁ s₂ : Stmt} {p q : Program}

theorem Performs.seq (h₁ : s₁.Performs p) (h₂ : s₂.Performs q) :
    Performs (.seq s₁ s₂) (.seq p q) :=
  ⟨congrArg₂ Program.seq h₁.1 h₂.1, h₁.2, h₂.2⟩

theorem Performs.branch {test : Point} (h₁ : s₁.Performs p) (h₂ : s₂.Performs q) :
    Performs (.branch test s₁ s₂) (.branch p q) :=
  ⟨congrArg₂ Program.branch h₁.1 h₂.1, h₁.2, h₂.2⟩

theorem Performs.forLoop {test : Point} {update : Option Point} {mayLeave hasUpdate : Bool}
    (htest : test.isBranch = mayLeave) (hupdate : update.isSome = hasUpdate) (h : s.Performs p) :
    Performs (.forLoop test s update) (.forLoop mayLeave p hasUpdate) := by
  refine ⟨?_, h.2⟩
  rw [program, htest, hupdate, h.1]

theorem isBranch_testOf {kind : PointKind} {place : Tree} {text : String} {condition : Option Tree}
    {test : Point} (h : testOf code kind place text condition = .ok test) :
    test.isBranch = condition.isSome := by
  obtain ⟨access, _, h⟩ := exists_of_bind_eq_ok h
  cases h
  rfl

theorem performs_declarators {type : String} (h : declarators code type ts = .ok s) :
    s.Performs (Tree.declarators ts) := by
  induction ts generalizing s with
  | nil =>
    cases h
    exact performs_skip
  | cons d ts ih =>
    rw [declarators] at h
    rw [Tree.declarators]
    by_cases hd : d.field ≠ "declarator" ∨ d.kind = "function_declarator"
    · rw [if_pos hd] at h ⊢
      exact ih h
    · rw [if_neg hd] at h ⊢
      obtain ⟨text, _, h⟩ := exists_of_bind_eq_ok h
      obtain ⟨access, _, h⟩ := exists_of_bind_eq_ok h
      obtain ⟨rest, hrest, h⟩ := exists_of_bind_eq_ok h
      cases h
      exact (performs_point _).seq (ih hrest)

theorem performs_declaration (h : declaration code t = .ok s) :
    s.Performs (Tree.declarators t.children) := by
  unfold declaration at h
  split at h <;>
  · obtain ⟨type, _, h⟩ := exists_of_bind_eq_ok h
    exact performs_declarators h

theorem performs_forInit (h : forInit code t = .ok s) : s.Performs t.initializer := by
  unfold forInit at h
  unfold Tree.initializer
  cases hi : t.child? "initializer" with
  | none =>
    simp only [hi, Except.ok.injEq] at h
    exact h ▸ performs_skip
  | some init =>
    simp only [hi] at h ⊢
    by_cases hd : init.kind = "declaration"
    · rw [if_pos hd] at h ⊢
      exact performs_declaration h
    · rw [if_neg hd] at h ⊢
      obtain ⟨p, _, rfl⟩ := exists_of_map_eq_ok h
      exact performs_point p

def Translates (code : Code) (t : Tree) : Prop :=
  t.Structured → ∀ s, ofTree code t = .ok s → s.Performs t.program

theorem performs_ofTrees (ht : ∀ t ∈ ts, Translates code t) (hs : ∀ t ∈ ts, t.Structured)
    {skipped : Option Tree.Key} (hskip : ∀ t ∈ ts, some t.key ≠ skipped)
    (h : ofTrees code skipped ts = .ok s) : s.Performs (Tree.programs ts) := by
  induction ts generalizing s with
  | nil =>
    rw [ofTrees] at h
    cases h
    rw [Tree.programs]
    exact performs_skip
  | cons t ts ih =>
    rw [List.forall_mem_cons] at ht hs hskip
    rw [ofTrees, if_neg hskip.1] at h
    rw [Tree.programs]
    obtain ⟨first, hfirst, h⟩ := exists_of_bind_eq_ok h
    obtain ⟨rest, hrest, h⟩ := exists_of_bind_eq_ok h
    cases h
    exact (ht.1 hs.1 _ hfirst).seq (ih ht.2 hs.2 hskip.2 hrest)

theorem performs_caseBody (ht : ∀ t ∈ ts, Translates code t) (hs : ∀ t ∈ ts, t.Structured)
    (honce : ∀ v ∈ ts.find? (·.field == "value"),
      (ts.filter fun c => c.key = v.key).length = 1)
    (h : ofTrees code ((ts.find? (·.field == "value")).map (·.key)) ts = .ok s) :
    s.Performs (Tree.caseBody ts) := by
  induction ts generalizing s with
  | nil =>
    rw [ofTrees] at h
    cases h
    rw [Tree.caseBody]
    exact performs_skip
  | cons t ts ih =>
    rw [List.forall_mem_cons] at ht hs
    rw [ofTrees] at h
    rw [Tree.caseBody]
    by_cases hf : t.field = "value"
    · have hfind : (t :: ts).find? (·.field == "value") = some t := by simp [hf]
      -- behind the value nothing has its key, so nothing else is passed over
      have hnone : ∀ c ∈ ts, c.key ≠ t.key := by
        simpa [hfind] using honce
      rw [hfind, Option.map_some, if_pos rfl] at h
      rw [if_pos hf, ← Program.nothing_seq (Tree.programs ts)]
      obtain ⟨first, hfirst, h⟩ := exists_of_bind_eq_ok h
      obtain ⟨rest, hrest, h⟩ := exists_of_bind_eq_ok h
      cases hfirst
      cases h
      exact performs_skip.seq
        (performs_ofTrees ht.2 hs.2 (fun c hc => by simpa using hnone c hc) hrest)
    · have hfind : (t :: ts).find? (·.field == "value") = ts.find? (·.field == "value") := by
        simp [hf]
      have hcount : ∀ v ∈ ts.find? (·.field == "value"),
          t.key ≠ v.key ∧ (ts.filter fun c => c.key = v.key).length = 1 := by
        intro v hv
        have hmem : v ∈ ts.filter fun c => c.key = v.key := by
          simpa using List.mem_of_find?_eq_some hv
        have := honce v (hfind ▸ hv)
        grind
      rw [hfind, if_neg (by simpa [eq_comm] using fun v hv => (hcount v hv).1)] at h
      rw [if_neg hf]
      obtain ⟨first, hfirst, h⟩ := exists_of_bind_eq_ok h
      obtain ⟨rest, hrest, h⟩ := exists_of_bind_eq_ok h
      cases h
      exact (ht.1 hs.1 _ hfirst).seq (ih ht.2 hs.2 (fun v hv => (hcount v hv).2) hrest)

theorem performs_ofCase (ht : ∀ c ∈ t.children, Translates code c) (hs : t.Structured)
    (hk : t.kind = "case_statement") (h : ofCase code t = .ok s) :
    s.Performs (.seq .caseLabel (Tree.caseBody t.children)) := by
  have hbody {s : Stmt} := performs_caseBody (s := s) ht (fun c hc => hs.child hc)
    (hs.plain.2.2 hk)
  have hlabel : ∀ p, Performs (.caseLabel p) .caseLabel := fun _ => ⟨rfl, trivial⟩
  rw [ofCase] at h
  split at h <;>
  · obtain ⟨text, _, h⟩ := exists_of_bind_eq_ok h
    obtain ⟨body, hb, h⟩ := exists_of_bind_eq_ok h
    cases h
    exact (hlabel _).seq (hbody hb)

theorem performs_ofArms (ht : ∀ t ∈ ts, Translates code t ∧ ∀ c ∈ t.children, Translates code c)
    (hs : ∀ t ∈ ts, t.Structured) (h : ofArms code ts = .ok s) : s.Performs (Tree.arms ts) := by
  induction ts generalizing s with
  | nil =>
    rw [ofArms] at h
    cases h
    rw [Tree.arms]
    exact performs_skip
  | cons t ts ih =>
    rw [List.forall_mem_cons] at ht hs
    rw [ofArms] at h
    rw [Tree.arms]
    split at h
    · rename_i hcase
      obtain ⟨first, hfirst, h⟩ := exists_of_bind_eq_ok h
      obtain ⟨rest, hrest, h⟩ := exists_of_bind_eq_ok h
      cases h
      rw [if_pos hcase]
      exact (performs_ofCase ht.1.2 hs.1 hcase.2 hfirst).seq (ih ht.2 hs.2 hrest)
    · rename_i hcase
      obtain ⟨first, hfirst, h⟩ := exists_of_bind_eq_ok h
      obtain ⟨rest, hrest, h⟩ := exists_of_bind_eq_ok h
      cases h
      rw [if_neg hcase]
      exact (ht.1.1 hs.1 _ hfirst).seq (ih ht.2 hs.2 hrest)

def IsStatement (t : Tree) : Prop := ¬ (t.named = false ∨ t.kind = "comment")

section

variable (ht : ∀ c, sizeOf c < sizeOf t → Translates code c) (hs : t.Structured)

include ht hs

theorem performs_child {field : String} (hc : t.child? field = some c)
    (h : ofTree code c = .ok s) : s.Performs (Tree.programOf (t.child? field)) := by
  rw [hc]
  exact ht c (Tree.sizeOf_child?_lt hc) (hs.child (Tree.mem_children_of_child? hc)) s h

variable (hstmt : IsStatement t) (h : ofTree code t = .ok s)

include hstmt h

theorem performs_if (hk : t.kind = "if_statement") : s.Performs t.program := by
  rw [ofTree, if_neg hstmt] at h
  rw [Tree.program, if_neg hstmt]
  simp only [hk, String.reduceEq, reduceIte, Tree.program_match_eq] at h ⊢
  obtain ⟨text, _, h⟩ := exists_of_bind_eq_ok h
  obtain ⟨test, _, h⟩ := exists_of_bind_eq_ok h
  split at h
  case h_2 => cases h
  rename_i c hc
  obtain ⟨yes, hyes, h⟩ := exists_of_bind_eq_ok h
  have hyes := performs_child ht hs hc hyes
  split at h
  · rename_i a ha
    rw [Tree.alternative?_eq_otherwise?] at ha
    obtain ⟨no, hno, h⟩ := exists_of_bind_eq_ok h
    cases h
    rw [ha]
    exact hyes.branch (ht a (Tree.sizeOf_otherwise?_lt ha) (hs.otherwise ha) _ hno)
  · rename_i ha
    rw [Tree.alternative?_eq_otherwise?] at ha
    cases h
    rw [ha]
    exact hyes.branch performs_skip

theorem performs_while (hk : t.kind = "while_statement") : s.Performs t.program := by
  rw [ofTree, if_neg hstmt] at h
  rw [Tree.program, if_neg hstmt]
  simp only [hk, String.reduceEq, reduceIte, true_or, Tree.program_match_eq] at h ⊢
  obtain ⟨text, _, h⟩ := exists_of_bind_eq_ok h
  obtain ⟨test, _, h⟩ := exists_of_bind_eq_ok h
  split at h
  case h_2 => cases h
  rename_i body hb
  obtain ⟨s', hs', h⟩ := exists_of_bind_eq_ok h
  cases h
  have hbody := performs_child ht hs hb hs'
  exact ⟨congrArg Program.loop hbody.1, hbody.2⟩

theorem performs_do (hk : t.kind = "do_statement") : s.Performs t.program := by
  rw [ofTree, if_neg hstmt] at h
  rw [Tree.program, if_neg hstmt]
  simp only [hk, String.reduceEq, reduceIte, or_self, Tree.program_match_eq] at h ⊢
  split at h
  case h_2 => cases h
  rename_i body hb
  obtain ⟨s', hs', h⟩ := exists_of_bind_eq_ok h
  obtain ⟨text, _, h⟩ := exists_of_bind_eq_ok h
  obtain ⟨test, _, h⟩ := exists_of_bind_eq_ok h
  cases h
  have hbody := performs_child ht hs hb hs'
  exact ⟨congrArg Program.doLoop hbody.1, hbody.2⟩

theorem performs_range (hk : t.kind = "for_range_loop") : s.Performs t.program := by
  rw [ofTree, if_neg hstmt] at h
  rw [Tree.program, if_neg hstmt]
  simp only [hk, String.reduceEq, reduceIte, or_true, Tree.program_match_eq] at h ⊢
  split at h
  case h_1 => cases h
  rename_i body hb
  obtain ⟨text, _, h⟩ := exists_of_bind_eq_ok h
  obtain ⟨test, _, h⟩ := exists_of_bind_eq_ok h
  obtain ⟨s', hs', h⟩ := exists_of_bind_eq_ok h
  cases h
  have hbody := performs_child ht hs hb hs'
  exact ⟨congrArg Program.loop hbody.1, hbody.2⟩

theorem performs_for (hk : t.kind = "for_statement") : s.Performs t.program := by
  rw [ofTree, if_neg hstmt] at h
  rw [Tree.program, if_neg hstmt]
  simp only [hk, String.reduceEq, reduceIte, or_self, Tree.program_match_eq] at h ⊢
  obtain ⟨init, hinit, h⟩ := exists_of_bind_eq_ok h
  have hinit := performs_forInit hinit
  split at h <;>
  · obtain ⟨text, _, h⟩ := exists_of_bind_eq_ok h
    obtain ⟨test, htest, h⟩ := exists_of_bind_eq_ok h
    split at h
    case h_2 => cases h
    rename_i body hb
    obtain ⟨s', hs', h⟩ := exists_of_bind_eq_ok h
    have hbody := performs_child ht hs hb hs'
    have hloop {update : Option Point} (hu : update.isSome = (t.child? "update").isSome) :=
      hinit.seq (hbody.forLoop (isBranch_testOf htest) hu)
    split at h
    · rename_i u hu
      obtain ⟨update, hupdate, h⟩ := exists_of_bind_eq_ok h
      obtain ⟨p, _, rfl⟩ := exists_of_map_eq_ok hupdate
      cases h
      exact hloop (by rw [hu]; rfl)
    · rename_i hu
      cases h
      exact hloop (by rw [hu]; rfl)

theorem performs_switch (hk : t.kind = "switch_statement") : s.Performs t.program := by
  rw [ofTree, if_neg hstmt] at h
  rw [Tree.program, if_neg hstmt]
  simp only [hk, String.reduceEq, reduceIte, or_self, Tree.switch_match_eq] at h ⊢
  obtain ⟨text, _, h⟩ := exists_of_bind_eq_ok h
  obtain ⟨test, _, h⟩ := exists_of_bind_eq_ok h
  split at h
  · rename_i body hb
    obtain ⟨s', hs', h⟩ := exists_of_bind_eq_ok h
    cases h
    have hbody := hs.child (Tree.mem_children_of_child? hb)
    have htb : ∀ c, sizeOf c < sizeOf body → Translates code c := fun c hc =>
      ht c (Nat.lt_trans hc (Tree.sizeOf_child?_lt hb))
    have harms := performs_ofArms (fun c hc => ⟨htb c (Tree.sizeOf_lt_of_mem hc), fun d hd =>
      htb d (Nat.lt_trans (Tree.sizeOf_lt_of_mem hd) (Tree.sizeOf_lt_of_mem hc))⟩)
      (fun c hc => hbody.child hc) hs'
    rw [hb]
    exact ⟨congrArg (Program.switch _) harms.1, harms.2⟩
  · rename_i hb
    cases h
    rw [hb]
    exact ⟨rfl, trivial⟩

end

theorem translates (code : Code) (t : Tree) : Translates code t := by
  -- on the size, as an `else` branch is no child but a grandchild
  induction hn : sizeOf t using Nat.strongRecOn generalizing t with
  | ind n ih =>
  subst hn
  have ht : ∀ c, sizeOf c < sizeOf t → Translates code c := fun c hc => ih _ hc c rfl
  intro hs s h
  by_cases hstmt : IsStatement t
  case neg =>
    have hnot := not_not.mp hstmt
    rw [ofTree, if_pos hnot] at h
    rw [Tree.program, if_pos hnot]
    cases h
    exact performs_skip
  by_cases hif : t.kind = "if_statement"
  · exact performs_if ht hs hstmt h hif
  by_cases hwhile : t.kind = "while_statement"
  · exact performs_while ht hs hstmt h hwhile
  by_cases hdo : t.kind = "do_statement"
  · exact performs_do ht hs hstmt h hdo
  by_cases hfor : t.kind = "for_statement"
  · exact performs_for ht hs hstmt h hfor
  by_cases hrange : t.kind = "for_range_loop"
  · exact performs_range ht hs hstmt h hrange
  by_cases hswitch : t.kind = "switch_statement"
  · exact performs_switch ht hs hstmt h hswitch
  -- what is left runs its children in order, or is one point
  rw [ofTree, if_neg hstmt] at h
  rw [Tree.program, if_neg hstmt]
  simp only [hif, hwhile, hdo, hfor, hrange, hswitch, hs.plain.1, hs.plain.2.1, or_self,
    reduceIte] at h ⊢
  split_ifs at h ⊢ with hcompound hdeclaration hexpression hempty
  · exact performs_ofTrees (fun c hc => ht c (Tree.sizeOf_lt_of_mem hc)) (fun c hc => hs.child hc)
      (by simp) h
  · exact performs_declaration h
  · cases h
    exact performs_skip
  all_goals
    obtain ⟨p, _, rfl⟩ := exists_of_map_eq_ok h
    exact ⟨rfl, trivial⟩

end Stmt

namespace Flow

/-- The complete executions of a function: the entry, and then the body until it ends or returns. -/
def Executes (function : Tree) (l : List Int) : Prop :=
  ∃ l' f, l = 0 :: l' ∧ (f = .done ∨ f = .returned) ∧
    (Tree.programOf (function.child? "body")).runs 1 l' f

theorem walk_iff_executes {src : Source} {suffix : RawText} {function : Tree} {scoping : Scoping}
    {draft : Draft} (h : Analysis.flowOf src suffix function = .ok (scoping, draft))
    (hs : ∀ body ∈ function.child? "body", body.Structured) (l : List Int) :
    Walk draft.graph.Step 0 exitId l ↔ Executes function l := by
  obtain ⟨body, hbody, rfl⟩ := Analysis.exists_body_of_flowOf h
  have hperforms : body.Performs (Tree.programOf (function.child? "body")) := by
    unfold Stmt.ofFunction at hbody
    split at hbody
    · rename_i t ht
      rw [ht]
      exact Stmt.translates _ t (hs t ht) body hbody
    · rename_i ht
      cases hbody
      rw [ht]
      exact Stmt.performs_skip
  rw [walk_iff_runs hperforms.2, hperforms.1]
  exact Iff.rfl

def rounds : Source where
  bytes := ("f() \x7b do \x7b if (a) continue; else if (b) c; else /* */ d; \x7d while (e); " ++
    "switch (g) \x7b case 1: break; default: return; \x7d \x7d").toUTF8
  root := ⟨true, "function_definition", "", 0, 118, [⟨true, "compound_statement", "body", 4, 118, [
    ⟨true, "do_statement", "", 6, 69, [
      ⟨true, "compound_statement", "body", 9, 58, [⟨true, "if_statement", "", 11, 56, [
        ⟨true, "parenthesized_expression", "condition", 14, 17, []⟩,
        ⟨true, "continue_statement", "consequence", 18, 27, []⟩,
        ⟨true, "else_clause", "alternative", 28, 56, [⟨true, "if_statement", "", 33, 56, [
          ⟨true, "parenthesized_expression", "condition", 36, 39, []⟩,
          ⟨true, "expression_statement", "consequence", 40, 42, [
            ⟨true, "identifier", "", 40, 41, []⟩]⟩,
          ⟨true, "else_clause", "alternative", 43, 56, [
            ⟨true, "comment", "", 48, 53, []⟩,
            ⟨true, "expression_statement", "", 54, 56, [
              ⟨true, "identifier", "", 54, 55, []⟩]⟩]⟩]⟩]⟩]⟩]⟩,
      ⟨true, "parenthesized_expression", "condition", 65, 68, []⟩]⟩,
    ⟨true, "switch_statement", "", 70, 116, [
      ⟨true, "parenthesized_expression", "condition", 77, 80, []⟩,
      ⟨true, "compound_statement", "body", 81, 116, [
        ⟨true, "case_statement", "", 83, 97, [
          ⟨true, "number_literal", "value", 88, 89, []⟩,
          ⟨true, "break_statement", "", 91, 97, []⟩]⟩,
        ⟨true, "case_statement", "", 98, 114, [
          ⟨true, "return_statement", "", 107, 114, []⟩]⟩]⟩]⟩]⟩]⟩
  damaged := false

set_option maxRecDepth 10000 in
theorem walk_iff_executes_rounds :
    ∃ scoping draft, Analysis.flowOf rounds "#" rounds.root = .ok (scoping, draft) ∧
      (∀ body ∈ rounds.root.child? "body", body.Structured) ∧
      (∀ l, Walk draft.graph.Step 0 exitId l ↔ Executes rounds.root l) ∧
      Executes rounds.root [0, 1, 2, 6, 1, 3, 5, 6, 7, 8, 9] ∧
      Executes rounds.root [0, 1, 3, 4, 6, 7, 10, 11] ∧
      ¬ Executes rounds.root [0, 1, 6, 7, 8, 9] := by
  have hs : ∀ body ∈ rounds.root.child? "body", body.Structured := by decide +kernel
  have hok : ((Analysis.flowOf rounds "#" rounds.root).toOption.any fun r =>
      decide (Walk r.2.graph.Step 0 exitId [0, 1, 2, 6, 1, 3, 5, 6, 7, 8, 9] ∧
        Walk r.2.graph.Step 0 exitId [0, 1, 3, 4, 6, 7, 10, 11] ∧
        ¬ Walk r.2.graph.Step 0 exitId [0, 1, 6, 7, 8, 9])) = true := by decide +kernel
  obtain ⟨⟨scoping, draft⟩, h, hok⟩ := exists_of_any hok
  obtain ⟨hotherwise, hreturn, hno⟩ := of_decide_eq_true hok
  have hiff := walk_iff_executes h hs
  exact ⟨scoping, draft, h, hs, hiff, (hiff _).mp hotherwise, (hiff _).mp hreturn,
    fun hexec => hno ((hiff _).mpr hexec)⟩

end Flow

end Backslice

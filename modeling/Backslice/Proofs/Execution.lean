import Backslice.Proofs.Flow.Wiring
import Backslice.Proofs.Walk

/-!
Executions of structured statements: which points are run in which order, and how the statement is
left. All choices are open, so an execution is any that the control structures admit. They are the
walks along the wiring of the statement.
-/

namespace Backslice

def Finish.outside : Finish → Finish
  | broke => done
  | f => f

def Finish.Rounds (f : Finish) : Prop := f = .done ∨ f = .continued

/-- What a piece of code can do. The points are numbered in the order of the code, from a first id
on. -/
@[ext] structure Program where
  units : Nat
  runs : Int → List Int → Finish → Prop
  enters : Int → List Int → Finish → Prop

namespace Program

def nothing : Program where
  units := 0
  runs _ l f := l = [] ∧ f = .done
  enters _ _ _ := False

def unit (finish : Finish) : Program where
  units := 1
  runs base l f := l = [base] ∧ f = finish
  enters _ _ _ := False

def caseLabel : Program where
  units := 1
  runs base l f := l = [base] ∧ f = .done
  enters base l f := l = [base] ∧ f = .done

def Then (first second : List Int → Finish → Prop) (l : List Int) (f : Finish) : Prop :=
  (∃ l₁ l₂, l = l₁ ++ l₂ ∧ first l₁ .done ∧ second l₂ f) ∨ (f ≠ .done ∧ first l f)

def seq (p q : Program) : Program where
  units := p.units + q.units
  runs base := Then (p.runs base) (q.runs (base + p.units))
  enters base l f :=
    Then (p.enters base) (q.runs (base + p.units)) l f ∨ q.enters (base + p.units) l f

def branch (yes no : Program) : Program where
  units := 1 + yes.units + no.units
  runs base l f := ∃ l', l = base :: l' ∧
    (yes.runs (base + 1) l' f ∨ no.runs (base + 1 + yes.units) l' f)
  enters _ _ _ := False

inductive Rounds (body : List Int → Finish → Prop) (mayLeave : Bool) (header : Int)
    (update : List Int) : List Int → Finish → Prop
  | leave : mayLeave = true → Rounds body mayLeave header update [header] .done
  | again {l₁ l₂ : List Int} {f₁ f : Finish} : body l₁ f₁ → f₁.Rounds →
      Rounds body mayLeave header update l₂ f →
      Rounds body mayLeave header update (header :: (l₁ ++ (update ++ l₂))) f
  | out {l₁ : List Int} {f₁ : Finish} : body l₁ f₁ → ¬ f₁.Rounds →
      Rounds body mayLeave header update (header :: l₁) f₁.outside

def loop (body : Program) : Program where
  units := 1 + body.units
  runs base := Rounds (body.runs (base + 1)) true base []
  enters _ _ _ := False

def forLoop (mayLeave : Bool) (body : Program) (hasUpdate : Bool) : Program where
  units := 1 + body.units + if hasUpdate then 1 else 0
  runs base := Rounds (body.runs (base + 1)) mayLeave base
    (if hasUpdate then [base + 1 + body.units] else [])
  enters _ _ _ := False

def doLoop (body : Program) : Program where
  units := body.units + 1
  runs base l f :=
    (∃ l₁ l₂ f₁, l = l₁ ++ l₂ ∧ body.runs base l₁ f₁ ∧ f₁.Rounds ∧
      Rounds (body.runs base) true (base + body.units) [] l₂ f) ∨
    ∃ f₁, body.runs base l f₁ ∧ ¬ f₁.Rounds ∧ f = f₁.outside
  enters _ _ _ := False

/-- The test, and then the body from one of its case labels on. Without a default label the body may
be passed by. -/
def switch (hasDefault : Bool) (body : Program) : Program where
  units := 1 + body.units
  runs base l f := ∃ l', l = base :: l' ∧
    ((∃ f', body.enters (base + 1) l' f' ∧ f = f'.outside) ∨
      (hasDefault = false ∧ l' = [] ∧ f = .done))
  enters _ _ _ := False

end Program

namespace Stmt

def program : Stmt → Program
  | .skip => .nothing
  | .seq first second => .seq first.program second.program
  | .branch _ yes no => .branch yes.program no.program
  | .loop _ body => .loop body.program
  | .doLoop body _ => .doLoop body.program
  | .forLoop test body update => .forLoop test.isBranch body.program update.isSome
  | .switch _ hasDefault body => .switch hasDefault body.program
  | .caseLabel _ => .caseLabel
  | .breakJump _ => .unit .broke
  | .continueJump _ => .unit .continued
  | .returnJump _ => .unit .returned
  | .gotoJump _ name => .unit (.jumped name)
  | .point _ => .unit .done
  | .label _ _ => .unit .done

@[simp] theorem units_program (s : Stmt) : s.program.units = s.size := by
  induction s with
  | forLoop test body update ih =>
    cases update <;> simp [program, size, Program.forLoop, ih]
  | _ => simp_all [program, size, Program.nothing, Program.unit, Program.seq, Program.branch,
      Program.loop, Program.doLoop, Program.switch, Program.caseLabel]

end Stmt

inductive Trail (r : Int → Target → Prop) : Target → Target → List Int → Prop
  | nil (t : Target) : Trail r t t []
  | cons {v : Int} {t goal : Target} {l : List Int} :
      r v t → Trail r t goal l → Trail r (.node v) goal (v :: l)

namespace Trail

variable {r : Int → Target → Prop} {κ : Finish → Target} {goal a : Target} {f g : Finish}
  {l : List Int} {v : Int} {s : Stmt} {base : Int}

@[simp] theorem leave_iff : Trail r (.leave f) (.leave g) l ↔ l = [] ∧ g = f := by
  constructor
  · intro h
    cases h
    exact ⟨rfl, rfl⟩
  · rintro ⟨rfl, rfl⟩
    exact .nil _

theorem node_iff : Trail r (.node v) (.leave f) l ↔
    ∃ t l', l = v :: l' ∧ r v t ∧ Trail r t (.leave f) l' := by
  constructor
  · intro h
    cases h with
    | cons hr h => exact ⟨_, _, rfl, hr, h⟩
  · rintro ⟨t, l', rfl, hr, h⟩
    exact .cons hr h

/-- Where a wiring is that of a statement with its ways out led elsewhere, a walk first goes through
the statement and then on from where it leaves the statement. -/
theorem region (hr : ∀ v t, base ≤ v → v < base + s.size →
      (r v t ↔ ∃ t', s.Leads base v t' ∧ t = t'.bind κ))
    (hgoal : ∀ v, base ≤ v → v < base + s.size → goal ≠ .node v)
    (ha : ∀ v, a = .node v → base ≤ v ∧ v < base + s.size) :
    Trail r (a.bind κ) goal l ↔ ∃ f l₁ l₂, l = l₁ ++ l₂ ∧
      Trail (s.Leads base) a (.leave f) l₁ ∧ Trail r (κ f) goal l₂ := by
  constructor
  · intro h
    induction l generalizing a with
    | nil =>
      cases a with
      | leave f => exact ⟨f, [], [], rfl, .nil _, h⟩
      | node v =>
        obtain ⟨hlo, hhi⟩ := ha v rfl
        cases h
        exact absurd rfl (hgoal v hlo hhi)
    | cons u l ih =>
      cases a with
      | leave f => exact ⟨f, [], u :: l, rfl, .nil _, h⟩
      | node v =>
        obtain ⟨hlo, hhi⟩ := ha v rfl
        cases h with
        | cons hstep h =>
          obtain ⟨t', ht', rfl⟩ := (hr u _ hlo hhi).mp hstep
          obtain ⟨f, l₁, l₂, rfl, h₁, h₂⟩ := ih (fun w hw => ht'.within.2 w hw) h
          exact ⟨f, u :: l₁, l₂, rfl, .cons ht' h₁, h₂⟩
  · rintro ⟨f, l₁, l₂, rfl, h₁, h₂⟩
    induction l₁ generalizing a with
    | nil =>
      cases h₁
      exact h₂
    | cons u l₁ ih =>
      cases h₁ with
      | cons hstep h₁ =>
        obtain ⟨hlo, hhi⟩ := ha u rfl
        exact .cons ((hr u _ hlo hhi).mpr ⟨_, hstep, rfl⟩) (ih (fun w hw => hstep.within.2 w hw) h₁)

theorem inside (hr : ∀ v t, base ≤ v → v < base + s.size → (r v t ↔ s.Leads base v t))
    (ha : ∀ v, a = .node v → base ≤ v ∧ v < base + s.size) :
    Trail r a (.leave f) l ↔ Trail (s.Leads base) a (.leave f) l := by
  have hregion : Trail r (a.bind .leave) (.leave f) l ↔ ∃ g l₁ l₂, l = l₁ ++ l₂ ∧
      Trail (s.Leads base) a (.leave g) l₁ ∧ Trail r (.leave g) (.leave f) l₂ :=
    region (fun v t hlo hhi => by simp [hr v t hlo hhi]) (by simp) ha
  rw [Target.bind_self] at hregion
  rw [hregion]
  constructor
  · rintro ⟨g, l₁, l₂, rfl, h₁, h₂⟩
    obtain ⟨rfl, rfl⟩ := leave_iff.mp h₂
    rwa [List.append_nil]
  · exact fun h => ⟨f, l, [], by simp, h, .nil _⟩

end Trail

namespace Stmt

def trails (s : Stmt) (base : Int) (l : List Int) (f : Finish) : Prop :=
  Trail (s.Leads base) (s.head base) (.leave f) l

def caseTrails (s : Stmt) (base : Int) (l : List Int) (f : Finish) : Prop :=
  ∃ c ∈ s.caseIds base, Trail (s.Leads base) (.node c) (.leave f) l

variable {first second body yes no : Stmt} {base v : Int} {l : List Int} {f : Finish}
  {t a : Target} {test : Point}

theorem head_range (s : Stmt) (base : Int) :
    ∀ v, s.head base = .node v → base ≤ v ∧ v < base + s.size := by
  intro v hv
  have := head_eq_node hv
  omega

theorem Leads.outside {s : Stmt} (hv : v < base ∨ base + s.size ≤ v) : ¬ s.Leads base v t := by
  intro h
  have := h.within.1
  omega

theorem leads_second (hlo : base + first.size ≤ v) :
    (seq first second).Leads base v t ↔ second.Leads (base + first.size) v t :=
  or_iff_right fun ⟨_, h, _⟩ => Leads.outside (.inr hlo) h

theorem leads_first (hhi : v < base + first.size) :
    (seq first second).Leads base v t ↔ ∃ t', first.Leads base v t' ∧
      t = t'.bind (.before (second.head (base + first.size))) :=
  or_iff_left (Leads.outside (.inl hhi))

theorem trail_second
    (ha : ∀ v, a = .node v → base + first.size ≤ v ∧ v < base + first.size + second.size) :
    Trail ((seq first second).Leads base) a (.leave f) l ↔
      Trail (second.Leads (base + first.size)) a (.leave f) l :=
  Trail.inside (fun _ _ hlo _ => leads_second hlo) ha

theorem trail_first (ha : ∀ v, a = .node v → base ≤ v ∧ v < base + first.size) :
    Trail ((seq first second).Leads base)
        (a.bind (.before (second.head (base + first.size)))) (.leave f) l ↔
      Program.Then (fun l f => Trail (first.Leads base) a (.leave f) l)
        (second.trails (base + first.size)) l f := by
  rw [Trail.region (fun _ _ _ hhi => leads_first hhi) (by simp) ha]
  constructor
  · rintro ⟨g, l₁, l₂, rfl, h₁, h₂⟩
    cases g with
    | done => exact .inl ⟨l₁, l₂, rfl, h₁, (trail_second (head_range _ _)).mp h₂⟩
    | _ =>
      obtain ⟨rfl, rfl⟩ := Trail.leave_iff.mp h₂
      rw [List.append_nil]
      exact .inr ⟨by simp, h₁⟩
  · rintro (⟨l₁, l₂, rfl, h₁, h₂⟩ | ⟨hf, h⟩)
    · exact ⟨.done, l₁, l₂, rfl, h₁, (trail_second (head_range _ _)).mpr h₂⟩
    · refine ⟨f, l, [], by simp, h, ?_⟩
      cases f with
      | done => exact absurd rfl hf
      | _ => exact .nil _

theorem head_seq : (seq first second).head base =
    (first.head base).bind (.before (second.head (base + first.size))) := by
  unfold head
  by_cases h₁ : first.size = 0
  · simp [size, h₁, Target.before]
  · simp [size, h₁]

theorem trails_seq : (seq first second).trails base l f ↔
    Program.Then (first.trails base) (second.trails (base + first.size)) l f := by
  unfold trails
  rw [head_seq]
  exact trail_first (head_range _ _)

theorem caseTrails_seq : (seq first second).caseTrails base l f ↔
    Program.Then (first.caseTrails base) (second.trails (base + first.size)) l f ∨
      second.caseTrails (base + first.size) l f := by
  have hfirst : ∀ c ∈ first.caseIds base,
      (Trail ((seq first second).Leads base) (.node c) (.leave f) l ↔
        Program.Then (fun l f => Trail (first.Leads base) (.node c) (.leave f) l)
          (second.trails (base + first.size)) l f) :=
    fun c hc => trail_first (a := .node c) fun v hv => Target.node.inj hv ▸ mem_caseIds hc
  have hsecond : ∀ c ∈ second.caseIds (base + first.size),
      (Trail ((seq first second).Leads base) (.node c) (.leave f) l ↔
        Trail (second.Leads (base + first.size)) (.node c) (.leave f) l) :=
    fun c hc => trail_second fun v hv => Target.node.inj hv ▸ mem_caseIds hc
  simp only [caseTrails, caseIds, List.mem_append]
  constructor
  · rintro ⟨c, hc | hc, h⟩
    · left
      rcases (hfirst c hc).mp h with ⟨l₁, l₂, rfl, h₁, h₂⟩ | ⟨hf, h₁⟩
      · exact .inl ⟨l₁, l₂, rfl, ⟨c, hc, h₁⟩, h₂⟩
      · exact .inr ⟨hf, c, hc, h₁⟩
    · exact .inr ⟨c, hc, (hsecond c hc).mp h⟩
  · rintro ((⟨l₁, l₂, rfl, ⟨c, hc, h₁⟩, h₂⟩ | ⟨hf, c, hc, h₁⟩) | ⟨c, hc, h⟩)
    · exact ⟨c, .inl hc, (hfirst c hc).mpr (.inl ⟨l₁, l₂, rfl, h₁, h₂⟩)⟩
    · exact ⟨c, .inl hc, (hfirst c hc).mpr (.inr ⟨hf, h₁⟩)⟩
    · exact ⟨c, .inr hc, (hsecond c hc).mpr h⟩

theorem trails_branch : (branch test yes no).trails base l f ↔
    ∃ l', l = base :: l' ∧
      (yes.trails (base + 1) l' f ∨ no.trails (base + 1 + yes.size) l' f) := by
  have hyes : ∀ l', Trail ((branch test yes no).Leads base) (yes.head (base + 1)) (.leave f) l' ↔
      yes.trails (base + 1) l' f := by
    intro l'
    refine Trail.inside (fun v t hlo hhi => ?_) (head_range _ _)
    have hno : ¬ no.Leads (base + 1 + yes.size) v t := Leads.outside (.inl hhi)
    simp only [Leads, hno, or_false]
    exact or_iff_right fun h => by omega
  have hno : ∀ l', Trail ((branch test yes no).Leads base) (no.head (base + 1 + yes.size))
      (.leave f) l' ↔ no.trails (base + 1 + yes.size) l' f := by
    intro l'
    refine Trail.inside (fun v t hlo hhi => ?_) (head_range _ _)
    have hyes : ¬ yes.Leads (base + 1) v t := Leads.outside (.inr hlo)
    simp only [Leads, hyes, false_or]
    exact or_iff_right fun h => by omega
  have hhead : (branch test yes no).head base = .node base := by simp [size]
  rw [trails, hhead, Trail.node_iff]
  constructor
  · rintro ⟨t, l', rfl, hstep, h⟩
    refine ⟨l', rfl, ?_⟩
    rcases hstep with ⟨_, rfl | rfl⟩ | hstep | hstep
    · exact .inl ((hyes l').mp h)
    · exact .inr ((hno l').mp h)
    · exact absurd hstep (Leads.outside (.inl (by omega)))
    · exact absurd hstep (Leads.outside (.inl (by omega)))
  · rintro ⟨l', rfl, h | h⟩
    · exact ⟨_, l', rfl, .inl ⟨rfl, .inl rfl⟩, (hyes l').mpr h⟩
    · exact ⟨_, l', rfl, .inl ⟨rfl, .inr rfl⟩, (hno l').mpr h⟩

section Loop

variable {mayLeave : Bool} {header back : Int}

theorem inLoop_iff {g : Finish} {r : Int → Target → Prop} :
    Trail r (.inLoop back g) (.leave f) l ↔
      (g.Rounds ∧ Trail r (.node back) (.leave f) l) ∨
        (¬ g.Rounds ∧ l = [] ∧ f = g.outside) := by
  cases g <;> simp [Target.inLoop, Finish.Rounds, Finish.outside]

theorem trail_round (hheader : header < base ∨ base + body.size ≤ header)
    (hback : back < base ∨ base + body.size ≤ back) :
    Trail (LeadsRound (body.Leads base) (body.head base) mayLeave header back)
        ((body.head base).bind (.inLoop back)) (.leave f) l ↔
      (∃ l₁ l₂ f₁, l = l₁ ++ l₂ ∧ body.trails base l₁ f₁ ∧ f₁.Rounds ∧
        Trail (LeadsRound (body.Leads base) (body.head base) mayLeave header back) (.node back)
          (.leave f) l₂) ∨
      ∃ f₁, body.trails base l f₁ ∧ ¬ f₁.Rounds ∧ f = f₁.outside := by
  have hr : ∀ v t, base ≤ v → v < base + body.size →
      (LeadsRound (body.Leads base) (body.head base) mayLeave header back v t ↔
        ∃ t', body.Leads base v t' ∧ t = t'.bind (.inLoop back)) := by
    intro v t hlo hhi
    unfold LeadsRound
    rw [or_iff_right (by omega), or_iff_right (by omega)]
  rw [Trail.region hr (by simp) (head_range _ _)]
  constructor
  · rintro ⟨f₁, l₁, l₂, rfl, h₁, h₂⟩
    rcases inLoop_iff.mp h₂ with ⟨hround, h₂⟩ | ⟨hround, rfl, rfl⟩
    · exact .inl ⟨l₁, l₂, f₁, rfl, h₁, hround, h₂⟩
    · exact .inr ⟨f₁, by rwa [List.append_nil], hround, rfl⟩
  · rintro (⟨l₁, l₂, f₁, rfl, h₁, hround, h₂⟩ | ⟨f₁, h₁, hround, rfl⟩)
    · exact ⟨f₁, l₁, l₂, rfl, h₁, inLoop_iff.mpr (.inl ⟨hround, h₂⟩)⟩
    · exact ⟨f₁, l, [], by simp, h₁, inLoop_iff.mpr (.inr ⟨hround, rfl, rfl⟩)⟩

theorem trail_back (hback : back < base ∨ base + body.size ≤ back) :
    Trail (LeadsRound (body.Leads base) (body.head base) mayLeave header back) (.node back)
        (.leave f) l ↔
      ∃ l', l = (if back = header then [] else [back]) ++ l' ∧
        Trail (LeadsRound (body.Leads base) (body.head base) mayLeave header back) (.node header)
          (.leave f) l' := by
  by_cases heq : back = header
  · simp [heq]
  · rw [if_neg heq, Trail.node_iff]
    constructor
    · rintro ⟨t, l', rfl, hstep, h⟩
      rcases hstep with ⟨hv, _⟩ | ⟨_, _, rfl⟩ | ⟨t', hstep, _⟩
      · exact absurd hv heq
      · exact ⟨l', rfl, h⟩
      · exact absurd hstep (Leads.outside hback)
    · rintro ⟨l', rfl, h⟩
      exact ⟨_, l', rfl, .inr (.inl ⟨heq, rfl, rfl⟩), h⟩

theorem rounds_iff (hheader : header < base ∨ base + body.size ≤ header)
    (hback : back < base ∨ base + body.size ≤ back) :
    Trail (LeadsRound (body.Leads base) (body.head base) mayLeave header back) (.node header)
        (.leave f) l ↔
      Program.Rounds (body.trails base) mayLeave header (if back = header then [] else [back])
        l f := by
  constructor
  · intro h
    -- each round takes some points, the header at least
    induction hn : l.length using Nat.strongRecOn generalizing l with
    | _ n ih =>
      obtain ⟨t, l', rfl, hstep, h⟩ := Trail.node_iff.mp h
      rcases hstep with ⟨_, rfl | ⟨hleave, rfl⟩⟩ | ⟨hne, heq, _⟩ | ⟨t', hstep, _⟩
      · rcases (trail_round hheader hback).mp h with
          ⟨l₁, l₂, f₁, rfl, h₁, hround, h₂⟩ | ⟨f₁, h₁, hround, rfl⟩
        · obtain ⟨l₃, rfl, h₃⟩ := (trail_back hback).mp h₂
          refine .again h₁ hround (ih l₃.length ?_ h₃ rfl)
          simp only [← hn, List.length_cons, List.length_append]
          omega
        · exact .out h₁ hround
      · obtain ⟨rfl, rfl⟩ := Trail.leave_iff.mp h
        exact .leave hleave
      · exact absurd heq.symm hne
      · exact absurd hstep (Leads.outside hheader)
  · intro h
    induction h with
    | leave hleave =>
      exact Trail.node_iff.mpr ⟨_, [], rfl, .inl ⟨rfl, .inr ⟨hleave, rfl⟩⟩, .nil _⟩
    | again h₁ hround _ ih =>
      refine Trail.node_iff.mpr ⟨_, _, rfl, .inl ⟨rfl, .inl rfl⟩, ?_⟩
      refine (trail_round hheader hback).mpr (.inl ⟨_, _, _, rfl, h₁, hround, ?_⟩)
      exact (trail_back hback).mpr ⟨_, rfl, ih⟩
    | out h₁ hround =>
      refine Trail.node_iff.mpr ⟨_, _, rfl, .inl ⟨rfl, .inl rfl⟩, ?_⟩
      exact (trail_round hheader hback).mpr (.inr ⟨_, h₁, hround, rfl⟩)

theorem trails_loop : (loop test body).trails base l f ↔
    Program.Rounds (body.trails (base + 1)) true base [] l f := by
  have hhead : (loop test body).head base = .node base := by simp [size]
  rw [trails, hhead]
  exact (rounds_iff (.inl (by omega)) (.inl (by omega))).trans (by rw [if_pos rfl])

theorem trails_forLoop {update : Option Point} : (forLoop test body update).trails base l f ↔
    Program.Rounds (body.trails (base + 1)) test.isBranch base
      (if update.isSome then [base + 1 + body.size] else []) l f := by
  have hhead : (forLoop test body update).head base = .node base := by simp [size]
  rw [trails, hhead]
  cases update with
  | none =>
    refine (rounds_iff (.inl (by omega)) (.inl ?_)).trans ?_
    · simp only [backOf, Option.isSome_none, Bool.false_eq_true, if_false]
      omega
    · simp [backOf]
  | some p =>
    refine (rounds_iff (.inl (by omega)) (.inr ?_)).trans ?_
    · simp [backOf]
    · rw [if_neg (by simp [backOf]; omega)]
      simp [backOf]

theorem trails_doLoop : (doLoop body test).trails base l f ↔
    (∃ l₁ l₂ f₁, l = l₁ ++ l₂ ∧ body.trails base l₁ f₁ ∧ f₁.Rounds ∧
      Program.Rounds (body.trails base) true (base + body.size) [] l₂ f) ∨
    ∃ f₁, body.trails base l f₁ ∧ ¬ f₁.Rounds ∧ f = f₁.outside := by
  have hhead : (doLoop body test).head base =
      (body.head base).bind (.inLoop (base + body.size)) := by
    by_cases hsize : body.size = 0 <;> simp [head, size, hsize, Target.inLoop]
  rw [trails, hhead]
  refine (trail_round (.inr (Int.le_refl _)) (.inr (Int.le_refl _))).trans ?_
  simp only [rounds_iff (.inr (Int.le_refl _)) (.inr (Int.le_refl _)), if_true]

end Loop

theorem trails_switch {hasDefault : Bool} : (switch test hasDefault body).trails base l f ↔
    ∃ l', l = base :: l' ∧
      ((∃ f', body.caseTrails (base + 1) l' f' ∧ f = f'.outside) ∨
        (hasDefault = false ∧ l' = [] ∧ f = .done)) := by
  have hhead : (switch test hasDefault body).head base = .node base := by simp [size]
  have hcase : ∀ c ∈ body.caseIds (base + 1), ∀ l',
      (Trail ((switch test hasDefault body).Leads base) (.node c) (.leave f) l' ↔
        ∃ f', Trail (body.Leads (base + 1)) (.node c) (.leave f') l' ∧ f = f'.outside) := by
    intro c hc l'
    have hregion : Trail ((switch test hasDefault body).Leads base)
        ((Target.node c).bind .inSwitch) (.leave f) l' ↔ ∃ f' l₁ l₂, l' = l₁ ++ l₂ ∧
          Trail (body.Leads (base + 1)) (.node c) (.leave f') l₁ ∧
          Trail ((switch test hasDefault body).Leads base) (.inSwitch f') (.leave f) l₂ :=
      Trail.region (fun v t hlo _ => or_iff_right fun h => by omega) (by simp)
        fun v hv => Target.node.inj hv ▸ mem_caseIds hc
    have hout : ∀ f', Target.inSwitch f' = .leave f'.outside := by
      intro f'
      cases f' <;> rfl
    rw [Target.bind_node] at hregion
    rw [hregion]
    constructor
    · rintro ⟨f', l₁, l₂, rfl, h₁, h₂⟩
      rw [hout, Trail.leave_iff] at h₂
      obtain ⟨rfl, rfl⟩ := h₂
      exact ⟨f', by rwa [List.append_nil], rfl⟩
    · rintro ⟨f', h, rfl⟩
      exact ⟨f', l', [], by simp, h, by rw [hout]; exact .nil _⟩
  rw [trails, hhead, Trail.node_iff]
  constructor
  · rintro ⟨t, l', rfl, hstep, h⟩
    refine ⟨l', rfl, ?_⟩
    rcases hstep with ⟨_, ⟨c, hc, rfl⟩ | ⟨hdefault, rfl⟩⟩ | ⟨t', hstep, _⟩
    · obtain ⟨f', h', hf⟩ := (hcase c hc l').mp h
      exact .inl ⟨f', ⟨c, hc, h'⟩, hf⟩
    · exact .inr ⟨hdefault, Trail.leave_iff.mp h⟩
    · exact absurd hstep (Leads.outside (.inl (by omega)))
  · rintro ⟨l', rfl, ⟨f', ⟨c, hc, h⟩, rfl⟩ | ⟨hdefault, rfl, rfl⟩⟩
    · exact ⟨_, l', rfl, .inl ⟨rfl, .inl ⟨c, hc, rfl⟩⟩, (hcase c hc l').mpr ⟨f', h, rfl⟩⟩
    · exact ⟨_, [], rfl, .inl ⟨rfl, .inr ⟨hdefault, rfl⟩⟩, .nil _⟩

theorem trails_unit {s : Stmt} {finish : Finish} (hsize : s.size = 1)
    (hleads : ∀ v t, s.Leads base v t ↔ v = base ∧ t = .leave finish) :
    s.trails base l f ↔ l = [base] ∧ f = finish := by
  rw [trails, head, if_neg (by omega), Trail.node_iff]
  constructor
  · rintro ⟨t, l', rfl, hstep, h⟩
    obtain ⟨_, rfl⟩ := (hleads _ _).mp hstep
    obtain ⟨rfl, rfl⟩ := Trail.leave_iff.mp h
    exact ⟨rfl, rfl⟩
  · rintro ⟨rfl, rfl⟩
    exact ⟨_, [], rfl, (hleads _ _).mpr ⟨rfl, rfl⟩, .nil _⟩

theorem caseTrails_eq_false {s : Stmt} (hs : s.caseIds base = []) :
    s.caseTrails base = fun _ _ => False := by
  funext l f
  simp [caseTrails, hs]

/-- The executions of a statement are the walks along its wiring. -/
theorem program_eq (s : Stmt) (base : Int) :
    s.program.runs base = s.trails base ∧ s.program.enters base = s.caseTrails base := by
  -- both at once: a `switch` runs what its body does from a case label on
  induction s generalizing base with
  | skip =>
    refine ⟨?_, (caseTrails_eq_false rfl).symm⟩
    funext l f
    simp [program, Program.nothing, trails, head, size]
  | seq first second ih₁ ih₂ =>
    constructor
    · funext l f
      simp only [program, Program.seq, units_program, (ih₁ base).1, (ih₂ _).1, trails_seq]
    · funext l f
      simp only [program, Program.seq, units_program, (ih₁ base).2, (ih₂ _).1, (ih₂ _).2,
        caseTrails_seq]
  | branch test yes no ih₁ ih₂ =>
    refine ⟨?_, (caseTrails_eq_false rfl).symm⟩
    funext l f
    simp only [program, Program.branch, units_program, (ih₁ _).1, (ih₂ _).1, trails_branch]
  | loop test body ih =>
    refine ⟨?_, (caseTrails_eq_false rfl).symm⟩
    funext l f
    simp only [program, Program.loop, (ih _).1, trails_loop]
  | doLoop body test ih =>
    refine ⟨?_, (caseTrails_eq_false rfl).symm⟩
    funext l f
    simp only [program, Program.doLoop, units_program, (ih _).1, trails_doLoop]
  | forLoop test body update ih =>
    refine ⟨?_, (caseTrails_eq_false rfl).symm⟩
    funext l f
    simp only [program, Program.forLoop, units_program, (ih _).1, trails_forLoop]
  | switch test hasDefault body ih =>
    refine ⟨?_, (caseTrails_eq_false rfl).symm⟩
    funext l f
    simp only [program, Program.switch, (ih _).2, trails_switch]
  | caseLabel p =>
    have hunit : ∀ l f, (caseLabel p).trails base l f ↔ l = [base] ∧ f = .done :=
      fun l f => trails_unit rfl fun v t => Iff.rfl
    constructor
    · funext l f
      exact propext (hunit l f).symm
    · funext l f
      refine propext ((hunit l f).symm.trans ?_)
      simp [caseTrails, caseIds, trails, head, size]
  | _ =>
    refine ⟨?_, (caseTrails_eq_false rfl).symm⟩
    funext l f
    exact propext (trails_unit rfl fun v t => Iff.rfl).symm

end Stmt

end Backslice

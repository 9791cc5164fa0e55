import Backslice.Flow.Build
import Backslice.Proofs.Flow.Graph
import Mathlib.Tactic.Tauto

namespace Backslice

inductive Finish where
  | done
  | broke
  | continued
  | returned
  | jumped (label : String)
  deriving DecidableEq, Repr

inductive Target where
  | node (id : Int)
  | leave (f : Finish)
  deriving DecidableEq, Repr

namespace Target

def bind (κ : Finish → Target) : Target → Target
  | node v => node v
  | leave f => κ f

@[simp] theorem bind_node (κ : Finish → Target) (v : Int) : (node v).bind κ = node v := rfl

@[simp] theorem bind_leave (κ : Finish → Target) (f : Finish) : (leave f).bind κ = κ f := rfl

@[simp] theorem bind_self (t : Target) : t.bind leave = t := by cases t <;> rfl

def before (next : Target) : Finish → Target
  | .done => next
  | f => leave f

def inLoop (back : Int) : Finish → Target
  | .done | .continued => node back
  | .broke => leave .done
  | f => leave f

def inSwitch : Finish → Target
  | .broke => leave .done
  | f => leave f

section Exists

variable {P : Target → Prop} {w back : Int} {next : Target} {f : Finish}

theorem exists_bind {κ : Finish → Target} {t : Target} : (∃ t', P t' ∧ t = t'.bind κ) ↔
    (∃ v, P (node v) ∧ t = node v) ∨ ∃ f, P (leave f) ∧ t = κ f := by
  constructor
  · rintro ⟨t', h, rfl⟩
    cases t' with
    | node v => exact .inl ⟨v, h, rfl⟩
    | leave f => exact .inr ⟨f, h, rfl⟩
  · rintro (⟨v, h, rfl⟩ | ⟨f, h, rfl⟩)
    · exact ⟨_, h, rfl⟩
    · exact ⟨_, h, rfl⟩

theorem exists_finish {Q : Finish → Prop} : (∃ f, Q f) ↔
    Q .done ∨ Q .broke ∨ Q .continued ∨ Q .returned ∨ ∃ label, Q (.jumped label) := by
  constructor
  · rintro ⟨f, h⟩
    cases f with
    | jumped label => exact .inr (.inr (.inr (.inr ⟨label, h⟩)))
    | _ => simp [h]
  · rintro (h | h | h | h | ⟨label, h⟩) <;> exact ⟨_, h⟩

@[simp] theorem exists_before_node : (∃ t', P t' ∧ node w = t'.bind (before next)) ↔
    P (node w) ∨ (P (leave .done) ∧ next = node w) := by
  rw [exists_bind]
  simp [exists_finish, before, eq_comm]

@[simp] theorem exists_before_leave : (∃ t', P t' ∧ leave f = t'.bind (before next)) ↔
    (P (leave .done) ∧ next = leave f) ∨ (f ≠ .done ∧ P (leave f)) := by
  rw [exists_bind]
  cases f <;> simp [exists_finish, before, eq_comm]

@[simp] theorem exists_inLoop_node : (∃ t', P t' ∧ node w = t'.bind (inLoop back)) ↔
    P (node w) ∨ (w = back ∧ (P (leave .done) ∨ P (leave .continued))) := by
  rw [exists_bind]
  simp [exists_finish, inLoop]
  tauto

@[simp] theorem exists_inLoop_leave : (∃ t', P t' ∧ leave f = t'.bind (inLoop back)) ↔
    (f = .done ∧ P (leave .broke)) ∨
      (f ≠ .done ∧ f ≠ .broke ∧ f ≠ .continued ∧ P (leave f)) := by
  rw [exists_bind]
  cases f <;> simp [exists_finish, inLoop, eq_comm]

@[simp] theorem exists_inSwitch_node : (∃ t', P t' ∧ node w = t'.bind inSwitch) ↔
    P (node w) := by
  rw [exists_bind]
  simp [exists_finish, inSwitch, eq_comm]

@[simp] theorem exists_inSwitch_leave : (∃ t', P t' ∧ leave f = t'.bind inSwitch) ↔
    (f = .done ∧ P (leave .broke)) ∨ (f ≠ .broke ∧ P (leave f)) := by
  rw [exists_bind]
  cases f <;> simp [exists_finish, inSwitch, eq_comm, or_comm]

end Exists

end Target

namespace Stmt

def size : Stmt → Nat
  | skip => 0
  | seq first second => first.size + second.size
  | branch _ yes no => 1 + yes.size + no.size
  | loop _ body => 1 + body.size
  | doLoop body _ => body.size + 1
  | forLoop _ body update => 1 + body.size + update.toList.length
  | switch _ _ body => 1 + body.size
  | _ => 1

def head (s : Stmt) (base : Int) : Target := if s.size = 0 then .leave .done else .node base

def caseIds : Stmt → Int → List Int
  | caseLabel _, base => [base]
  | seq first second, base => first.caseIds base ++ second.caseIds (base + first.size)
  | _, _ => []

/-- A loop: from the header into the body or out, and from the end of the body to `back`, which is
the header or an update before it. -/
def LeadsRound (body : Int → Target → Prop) (start : Target) (mayLeave : Bool)
    (header back v : Int) (t : Target) : Prop :=
  (v = header ∧ (t = start.bind (.inLoop back) ∨ (mayLeave = true ∧ t = .leave .done))) ∨
    (back ≠ header ∧ v = back ∧ t = .node header) ∨ ∃ t', body v t' ∧ t = t'.bind (.inLoop back)

def backOf (body : Stmt) (update : Option Point) (base : Int) : Int :=
  if update.isSome then base + 1 + body.size else base

/-- The flow leads from a point of the statement to a target; `base` is the id of the first
point. -/
def Leads : Stmt → Int → Int → Target → Prop
  | .skip, _, _, _ => False
  | .seq first second, base, v, t =>
    (∃ t', first.Leads base v t' ∧ t = t'.bind (.before (second.head (base + first.size)))) ∨
      second.Leads (base + first.size) v t
  | .branch _ yes no, base, v, t =>
    (v = base ∧ (t = yes.head (base + 1) ∨ t = no.head (base + 1 + yes.size))) ∨
      yes.Leads (base + 1) v t ∨ no.Leads (base + 1 + yes.size) v t
  | .loop _ body, base, v, t =>
    LeadsRound (body.Leads (base + 1)) (body.head (base + 1)) true base base v t
  | .doLoop body _, base, v, t =>
    LeadsRound (body.Leads base) (body.head base) true (base + body.size) (base + body.size) v t
  | .forLoop test body update, base, v, t =>
    LeadsRound (body.Leads (base + 1)) (body.head (base + 1)) test.isBranch base
      (body.backOf update base) v t
  | .switch _ hasDefault body, base, v, t =>
    (v = base ∧ ((∃ c ∈ body.caseIds (base + 1), t = .node c) ∨
        (hasDefault = false ∧ t = .leave .done))) ∨
      ∃ t', body.Leads (base + 1) v t' ∧ t = t'.bind .inSwitch
  | .breakJump _, base, v, t => v = base ∧ t = .leave .broke
  | .continueJump _, base, v, t => v = base ∧ t = .leave .continued
  | .returnJump _, base, v, t => v = base ∧ t = .leave .returned
  | .gotoJump _ name, base, v, t => v = base ∧ t = .leave (.jumped name)
  | .point _, base, v, t => v = base ∧ t = .leave .done
  | .caseLabel _, base, v, t => v = base ∧ t = .leave .done
  | .label _ _, base, v, t => v = base ∧ t = .leave .done

variable {s : Stmt} {base v w : Int} {t : Target}

@[simp] theorem head_eq_node_iff : s.head base = .node w ↔ s.size ≠ 0 ∧ w = base := by
  unfold head
  split <;> simp_all [eq_comm]

@[simp] theorem head_eq_leave_iff {f : Finish} :
    s.head base = .leave f ↔ s.size = 0 ∧ f = .done := by
  unfold head
  split <;> simp_all [eq_comm]

@[simp] theorem node_eq_head_iff : .node w = s.head base ↔ s.size ≠ 0 ∧ w = base := by
  rw [eq_comm, head_eq_node_iff]

@[simp] theorem leave_eq_head_iff {f : Finish} :
    .leave f = s.head base ↔ s.size = 0 ∧ f = .done := by
  rw [eq_comm, head_eq_leave_iff]

theorem head_eq_node (h : s.head base = .node w) : w = base ∧ 0 < s.size := by
  rw [head_eq_node_iff] at h
  omega

theorem leadsRound_node {body : Int → Target → Prop} {mayLeave : Bool} {header back : Int} :
    LeadsRound body (s.head base) mayLeave header back v (.node w) ↔
      (v = header ∧ ((s.size ≠ 0 ∧ w = base) ∨ (s.size = 0 ∧ w = back))) ∨
        (back ≠ header ∧ v = back ∧ w = header) ∨
        body v (.node w) ∨ (w = back ∧ (body v (.leave .done) ∨ body v (.leave .continued))) := by
  rw [LeadsRound, Target.exists_inLoop_node]
  by_cases hsize : s.size = 0 <;> simp [head, hsize, Target.inLoop]

theorem leadsRound_leave {body : Int → Target → Prop} {mayLeave : Bool} {header back : Int}
    {f : Finish} : LeadsRound body (s.head base) mayLeave header back v (.leave f) ↔
      (v = header ∧ mayLeave = true ∧ f = .done) ∨ (f = .done ∧ body v (.leave .broke)) ∨
        (f ≠ .done ∧ f ≠ .broke ∧ f ≠ .continued ∧ body v (.leave f)) := by
  rw [LeadsRound, Target.exists_inLoop_leave]
  by_cases hsize : s.size = 0 <;> simp [head, hsize, Target.inLoop]

theorem mem_caseIds (h : v ∈ s.caseIds base) : base ≤ v ∧ v < base + s.size := by
  induction s generalizing base with
  | caseLabel p =>
    simp only [caseIds, List.mem_singleton] at h
    simp only [size]
    omega
  | seq first second ih₁ ih₂ =>
    simp only [caseIds, List.mem_append] at h
    simp only [size]
    rcases h with h | h
    · have := ih₁ h
      omega
    · have := ih₂ h
      omega
  | _ => simp [caseIds] at h

def Within (lo hi v : Int) (t : Target) : Prop :=
  (lo ≤ v ∧ v < hi) ∧ ∀ w, t = .node w → lo ≤ w ∧ w < hi

theorem Within.mono {lo hi lo' hi' : Int} (h : Within lo hi v t) (hlo : lo' ≤ lo) (hhi : hi ≤ hi') :
    Within lo' hi' v t := by
  obtain ⟨hv, ht⟩ := h
  refine ⟨by omega, fun w hw => ?_⟩
  have := ht w hw
  omega

theorem Within.bind {lo hi : Int} {κ : Finish → Target} (h : Within lo hi v t)
    (hκ : ∀ f w, κ f = .node w → lo ≤ w ∧ w < hi) : Within lo hi v (t.bind κ) := by
  refine ⟨h.1, fun w hw => ?_⟩
  cases t with
  | node u => exact h.2 w hw
  | leave f => exact hκ f w hw

theorem inLoop_eq_node {back : Int} {f : Finish} (h : Target.inLoop back f = .node w) :
    w = back := by
  cases f <;> simp_all [Target.inLoop]

theorem inSwitch_ne_node {f : Finish} : Target.inSwitch f ≠ .node w := by
  cases f <;> simp [Target.inSwitch]

theorem before_eq_node {next : Target} {f : Finish} (h : Target.before next f = .node w) :
    next = .node w := by
  cases f <;> simp_all [Target.before]

theorem LeadsRound.within {body : Int → Target → Prop} {start : Target} {mayLeave : Bool}
    {header back lo hi : Int} (h : LeadsRound body start mayLeave header back v t)
    (hbody : ∀ v t, body v t → Within lo hi v t) (hstart : ∀ w, start = .node w → lo ≤ w ∧ w < hi)
    (hheader : lo ≤ header ∧ header < hi) (hback : lo ≤ back ∧ back < hi) : Within lo hi v t := by
  have hκ : ∀ f w, Target.inLoop back f = .node w → lo ≤ w ∧ w < hi :=
    fun f w hw => inLoop_eq_node hw ▸ hback
  rcases h with ⟨rfl, rfl | ⟨_, rfl⟩⟩ | ⟨_, rfl, rfl⟩ | ⟨t', h, rfl⟩
  · refine Within.bind ⟨hheader, hstart⟩ hκ
  · exact ⟨hheader, fun w hw => by cases hw⟩
  · exact ⟨hback, fun w hw => by cases hw; exact hheader⟩
  · exact (hbody v t' h).bind hκ

theorem Leads.within (h : s.Leads base v t) : Within base (base + s.size) v t := by
  induction s generalizing base v t with
  | skip => cases h
  | seq first second ih₁ ih₂ =>
    simp only [size]
    rcases h with ⟨t', h, rfl⟩ | h
    · refine ((ih₁ h).mono (Int.le_refl _) (by omega)).bind fun f w hw => ?_
      have := head_eq_node (before_eq_node hw)
      omega
    · exact (ih₂ h).mono (by omega) (by omega)
  | branch test yes no ih₁ ih₂ =>
    simp only [size]
    rcases h with ⟨rfl, rfl | rfl⟩ | h | h
    · refine ⟨by omega, fun w hw => ?_⟩
      have := head_eq_node hw
      omega
    · refine ⟨by omega, fun w hw => ?_⟩
      have := head_eq_node hw
      omega
    · exact (ih₁ h).mono (by omega) (by omega)
    · exact (ih₂ h).mono (by omega) (by omega)
  | loop test body ih =>
    simp only [size]
    refine LeadsRound.within h (fun v t h => (ih h).mono (by omega) (by omega)) (fun w hw => ?_)
      (by omega) (by omega)
    have := head_eq_node hw
    omega
  | doLoop body test ih =>
    simp only [size]
    refine LeadsRound.within h (fun v t h => (ih h).mono (by omega) (by omega)) (fun w hw => ?_)
      (by omega) (by omega)
    have := head_eq_node hw
    omega
  | forLoop test body update ih =>
    simp only [size]
    refine LeadsRound.within h (fun v t h => (ih h).mono (by omega) (by omega)) (fun w hw => ?_)
      (by omega) ?_
    · have := head_eq_node hw
      omega
    · cases update with
      | none => simp only [backOf]; simp; omega
      | some p => simp only [backOf]; simp; omega
  | switch test hasDefault body ih =>
    simp only [size]
    rcases h with ⟨rfl, ⟨c, hc, rfl⟩ | ⟨_, rfl⟩⟩ | ⟨t', h, rfl⟩
    · have := mem_caseIds hc
      refine ⟨by omega, fun w hw => ?_⟩
      cases hw
      omega
    · exact ⟨by omega, fun w hw => by cases hw⟩
    · exact ((ih h).mono (by omega) (by omega)).bind fun f w hw => absurd hw inSwitch_ne_node
  | _ =>
    obtain ⟨rfl, rfl⟩ := h
    exact ⟨by simp only [size]; omega, fun w hw => by cases hw⟩

end Stmt

end Backslice

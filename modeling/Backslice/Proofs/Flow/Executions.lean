import Backslice.Proofs.Execution
import Backslice.Proofs.Flow.Build

namespace Backslice

namespace Stmt

def JumpFree : Stmt → Prop
  | .seq first second => first.JumpFree ∧ second.JumpFree
  | .branch _ yes no => yes.JumpFree ∧ no.JumpFree
  | .loop _ body => body.JumpFree
  | .doLoop body _ => body.JumpFree
  | .forLoop _ body _ => body.JumpFree
  | .switch _ _ body => body.JumpFree
  | .gotoJump _ _ => False
  | _ => True

theorem JumpFree.not_leads {s : Stmt} (h : s.JumpFree) (base v : Int) (name : String) :
    ¬ s.Leads base v (.leave (.jumped name)) := by
  induction s generalizing base with
  | seq first second ih₁ ih₂ => simp [Leads, ih₁ h.1, ih₂ h.2]
  | branch test yes no ih₁ ih₂ => simp [Leads, ih₁ h.1, ih₂ h.2]
  | loop test body ih => simp [Leads, leadsRound_leave, ih h]
  | doLoop body test ih => simp [Leads, leadsRound_leave, ih h]
  | forLoop test body update ih => simp [Leads, leadsRound_leave, ih h]
  | switch test hasDefault body ih => simp [Leads, ih h]
  | gotoJump => cases h
  | _ => simp [Leads]

end Stmt

namespace Flow

def toExit : Finish → Target
  | .done | .returned => .node exitId
  | f => .leave f

def Wiring (body : Stmt) (v : Int) (t : Target) : Prop :=
  (v = 0 ∧ t = (body.head 1).bind toExit) ∨ ∃ t', body.Leads 1 v t' ∧ t = t'.bind toExit

variable {parameters : List Variable} {body : Stmt} {v w : Int} {l : List Int} {f : Finish}

theorem step_iff_wiring (hfree : body.JumpFree) :
    (build parameters body).graph.Step v w ↔ Wiring body v (.node w) := by
  have hhead : .node w = (body.head 1).bind toExit ↔
      (body.size ≠ 0 ∧ w = 1) ∨ (body.size = 0 ∧ w = exitId) := by
    by_cases hsize : body.size = 0 <;> simp [Stmt.head, hsize, toExit]
  have hleads : (∃ t', body.Leads 1 v t' ∧ .node w = t'.bind toExit) ↔ body.Leads 1 v (.node w) ∨
      (w = exitId ∧ (body.Leads 1 v (.leave .done) ∨ body.Leads 1 v (.leave .returned))) := by
    rw [Target.exists_bind]
    simp [Target.exists_finish, toExit]
    grind
  rw [(build_ok parameters body).2.2, Wiring, hhead, hleads]
  simp [hfree.not_leads]

theorem walk_iff_trail (hfree : body.JumpFree) :
    Walk (build parameters body).graph.Step v exitId l ↔
      Trail (Wiring body) (.node v) (.node exitId) l := by
  induction l generalizing v with
  | nil =>
    constructor
    · intro h
      cases h
      exact .nil _
    · intro h
      cases h
      exact .nil _
  | cons u l ih =>
    constructor
    · intro h
      cases h with
      | cons hs h => exact .cons ((step_iff_wiring hfree).mp hs) (ih.mp h)
    · intro h
      cases h with
      | @cons _ t _ _ hs h =>
        cases t with
        | leave f => cases h
        | node w => exact .cons ((step_iff_wiring hfree).mpr hs) (ih.mpr h)

theorem not_wiring_exit {t : Target} : ¬ Wiring body exitId t := by
  rintro (⟨h, _⟩ | ⟨t', h, _⟩)
  · cases h
  · have := h.within.1.1
    exact absurd this (by decide)

theorem trail_toExit {r : Int → Target → Prop} (hexit : ∀ t, ¬ r exitId t) :
    Trail r (toExit f) (.node exitId) l ↔ l = [] ∧ (f = .done ∨ f = .returned) := by
  have hnode : Trail r (.node exitId) (.node exitId) l ↔ l = [] := by
    constructor
    · intro h
      cases h with
      | nil => rfl
      | cons hs _ => exact absurd hs (hexit _)
    · rintro rfl
      exact .nil _
  have hleave : ∀ g, ¬ Trail r (.leave g) (.node exitId) l := by
    intro g h
    cases h
  cases f <;> simp [toExit, hnode, hleave]

/-- The walks from the entry to the exit, for a body without `goto`. -/
theorem walk_iff_runs (hfree : body.JumpFree) :
    Walk (build parameters body).graph.Step 0 exitId l ↔
      ∃ l' f, l = 0 :: l' ∧ (f = .done ∨ f = .returned) ∧ body.program.runs 1 l' f := by
  have hregion : ∀ l', Trail (Wiring body) ((body.head 1).bind toExit) (.node exitId) l' ↔
      ∃ f l₁ l₂, l' = l₁ ++ l₂ ∧ Trail (body.Leads 1) (body.head 1) (.leave f) l₁ ∧
        Trail (Wiring body) (toExit f) (.node exitId) l₂ := by
    intro l'
    refine Trail.region (fun v t hlo _ => or_iff_right fun h => by omega) (fun v hlo _ he => ?_)
      (Stmt.head_range _ _)
    have : exitId = v := Target.node.inj he
    rw [← this] at hlo
    exact absurd hlo (by decide)
  rw [walk_iff_trail hfree, (body.program_eq 1).1]
  constructor
  · intro h
    cases h with
    | cons hs h =>
      rcases hs with ⟨_, rfl⟩ | ⟨t', hs, _⟩
      · obtain ⟨f, l₁, l₂, rfl, h₁, h₂⟩ := (hregion _).mp h
        obtain ⟨rfl, hf⟩ := (trail_toExit fun t => not_wiring_exit).mp h₂
        exact ⟨l₁, f, by simp, hf, h₁⟩
      · exact absurd hs (Stmt.Leads.outside (.inl (by omega)))
  · rintro ⟨l', f, rfl, hf, h⟩
    refine .cons (.inl ⟨rfl, rfl⟩) ((hregion l').mpr ⟨f, l', [], by simp, h, ?_⟩)
    exact (trail_toExit fun t => not_wiring_exit).mpr ⟨rfl, hf⟩

end Flow

end Backslice

import Mathlib.Logic.Relation
import Mathlib.Tactic.ByContra

namespace Backslice

variable {α : Type}

/-- A walk along a relation, with the items that it visits before its end. -/
inductive Walk (r : α → α → Prop) : α → α → List α → Prop
  | nil (a : α) : Walk r a a []
  | cons {a b c : α} {l : List α} : r a b → Walk r b c l → Walk r a c (a :: l)

namespace Walk

variable {r : α → α → Prop} {a b c : α} {l l' : List α}

theorem single (h : r a b) : Walk r a b [a] := .cons h (.nil b)

theorem append (h : Walk r a b l) (h' : Walk r b c l') : Walk r a c (l ++ l') := by
  induction h with
  | nil => exact h'
  | cons hab _ ih => exact .cons hab (ih h')

theorem split {x : α} (h : Walk r a b l) (hx : x ∈ l) :
    ∃ l₁ l₂, l = l₁ ++ x :: l₂ ∧ Walk r a x l₁ ∧ Walk r x b (x :: l₂) := by
  induction h with
  | nil => cases hx
  | @cons a c b l hac hcb ih =>
    rcases List.mem_cons.mp hx with rfl | hx
    · exact ⟨[], l, rfl, .nil x, .cons hac hcb⟩
    · obtain ⟨l₁, l₂, rfl, h₁, h₂⟩ := ih hx
      exact ⟨a :: l₁, l₂, rfl, .cons hac h₁, h₂⟩

theorem exists_first {p : α → Prop} (h : Walk r a b l) (hp : (∃ x ∈ l, p x) ∨ p b) :
    ∃ x l₁ l₂, p x ∧ (∀ y ∈ l₁, ¬ p y) ∧ l = l₁ ++ l₂ ∧ Walk r a x l₁ ∧ Walk r x b l₂ := by
  induction h with
  | nil a =>
    rcases hp with ⟨x, hx, _⟩ | hb
    · cases hx
    · exact ⟨a, [], [], hb, by simp, rfl, .nil a, .nil a⟩
  | @cons a c b l hac hcb ih =>
    by_cases ha : p a
    · exact ⟨a, [], a :: l, ha, by simp, rfl, .nil a, .cons hac hcb⟩
    · have hp' : (∃ x ∈ l, p x) ∨ p b := by
        rcases hp with ⟨x, hx, hpx⟩ | hb
        · rcases List.mem_cons.mp hx with rfl | hx
          · exact absurd hpx ha
          · exact .inl ⟨x, hx, hpx⟩
        · exact .inr hb
      obtain ⟨x, l₁, l₂, hpx, hl₁, rfl, h₁, h₂⟩ := ih hp'
      refine ⟨x, a :: l₁, l₂, hpx, ?_, rfl, .cons hac h₁, h₂⟩
      intro y hy
      rcases List.mem_cons.mp hy with rfl | hy
      · exact ha
      · exact hl₁ y hy

theorem exists_of_reflTransGen (h : Relation.ReflTransGen r a b) : ∃ l, Walk r a b l := by
  induction h using Relation.ReflTransGen.head_induction_on with
  | refl => exact ⟨[], .nil b⟩
  | head hac _ ih =>
    obtain ⟨l, hl⟩ := ih
    exact ⟨_, .cons hac hl⟩

theorem nil_iff : Walk r a b [] ↔ a = b := by
  constructor
  · rintro ⟨⟩
    rfl
  · rintro rfl
    exact .nil a

theorem start_eq (h : Walk r a b l) : a = l.headD b := by
  cases h <;> rfl

theorem cons_iff : Walk r a b (c :: l) ↔
    a = c ∧ r a (l.headD b) ∧ Walk r (l.headD b) b l := by
  constructor
  · intro h
    cases h with
    | cons hs h =>
      obtain rfl := h.start_eq
      exact ⟨rfl, hs, h⟩
  · rintro ⟨rfl, hs, h⟩
    exact .cons hs h

instance decidable [DecidableEq α] [DecidableRel r] (a b : α) (l : List α) :
    Decidable (Walk r a b l) :=
  match l with
  | [] => decidable_of_iff (a = b) nil_iff.symm
  | c :: l =>
    have : Decidable (Walk r (l.headD b) b l) := decidable _ _ l
    decidable_of_iff (a = c ∧ r a (l.headD b) ∧ Walk r (l.headD b) b l) cons_iff.symm

end Walk

def Unavoidable (r : α → α → Prop) (goal a b : α) : Prop :=
  ∀ l, Walk r b goal l → a ∈ l ∨ a = goal

/-- Whether `u` is met is decided at `f`: some step from `f` leads where `u` cannot be avoided any
more, while from `f` itself `u` can still be avoided, or is `f` again. -/
def Decides (r : α → α → Prop) (goal f u : α) : Prop :=
  (∃ s, r f s ∧ Unavoidable r goal u s) ∧ ¬ (u ≠ f ∧ Unavoidable r goal u f)

namespace Unavoidable

variable {r : α → α → Prop} {goal a b c : α}

theorem refl (r : α → α → Prop) (goal a : α) : Unavoidable r goal a a := by
  intro l h
  cases h with
  | nil => exact .inr rfl
  | cons => exact .inl (List.mem_cons_self ..)

theorem eq_goal (h : Unavoidable r goal a goal) : a = goal := by
  rcases h [] (.nil goal) with h | h
  · cases h
  · exact h

theorem step (h : Unavoidable r goal a b) (hbc : r b c) (hne : a ≠ b) :
    Unavoidable r goal a c := by
  intro l hl
  rcases h _ (.cons hbc hl) with h | h
  · rcases List.mem_cons.mp h with h | h
    · exact absurd h hne
    · exact .inl h
  · exact .inr h

theorem past {l : List α} (h : Unavoidable r goal a b) (hl : Walk r b c l) (ha : a ∉ l) :
    Unavoidable r goal a c := by
  induction hl with
  | nil => exact h
  | cons hbd _ ih =>
    rw [List.mem_cons, not_or] at ha
    exact ih (h.step hbd ha.1) ha.2

theorem antisymm {l : List α} (hl : Walk r a goal l) (hab : Unavoidable r goal a b)
    (hba : Unavoidable r goal b a) : a = b := by
  -- a shortest walk from either leads through the other one, from where a shorter one starts
  by_contra hne
  induction hn : l.length using Nat.strongRecOn generalizing a b l with
  | _ n ih =>
    rcases hba l hl with hb | rfl
    · obtain ⟨l₁, l₂, rfl, h₁, h₂⟩ := hl.split hb
      have hlt : (b :: l₂).length < n := by
        cases h₁ with
        | nil => exact absurd rfl hne
        | cons => simp only [← hn, List.length_append, List.length_cons]; omega
      exact ih _ hlt h₂ hba hab (Ne.symm hne) rfl
    · exact hne hab.eq_goal

end Unavoidable

end Backslice

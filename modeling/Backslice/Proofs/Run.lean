import Backslice.Proofs.Flow.ExitEdges
import Backslice.Proofs.Flow.Reaching

/-!
Runs of a program with a given flow graph. A run is observed at some nodes. If two programs agree on
a set of nodes that holds all that decides or feeds what is observed, then no observation tells
their runs apart.
-/

namespace Backslice

section Guarded

variable {α : Type} {r : α → α → Prop} {goal : α} {N O : α → Prop} {v w a b o : α}

/-- What decides whether an item of `O` is met lies in `N`. -/
structure Guarded (r : α → α → Prop) (goal : α) (N O : α → Prop) : Prop where
  subset : ∀ v, N v → O v
  decides : ∀ v o, O o → Decides r goal v o → N v
  exits : ∀ v w, r v w → ∃ l, Walk r w goal l
  goal_stuck : ∀ w, ¬ r goal w
  goal_notMem : ¬ O goal

/-- Some walk meets `o` as the first item of `O`. -/
def SeesFirst (r : α → α → Prop) (O : α → Prop) (v o : α) : Prop :=
  O o ∧ ∃ l, Walk r v o l ∧ ∀ m ∈ l, ¬ O m

theorem SeesFirst.cons (hv : ¬ O v) (hs : r v w) (h : SeesFirst r O w o) : SeesFirst r O v o := by
  obtain ⟨ho, l, hl, hnot⟩ := h
  exact ⟨ho, v :: l, .cons hs hl, List.forall_mem_cons.mpr ⟨hv, hnot⟩⟩

theorem seesFirst_iff_eq (hv : O v) : SeesFirst r O v o ↔ o = v := by
  constructor
  · rintro ⟨_, l, hl, hnot⟩
    cases hl with
    | nil => rfl
    | cons => exact absurd hv (hnot v (List.mem_cons_self ..))
  · rintro rfl
    exact ⟨hv, [], .nil o, by simp⟩

theorem Guarded.not_seesFirst_goal (h : Guarded r goal N O) : ¬ SeesFirst r O goal o := by
  rintro ⟨ho, l, hl, _⟩
  cases hl with
  | nil => exact h.goal_notMem ho
  | cons hs _ => exact h.goal_stuck _ hs

/-- The first item of `O` on one walk is on all of them. -/
theorem Guarded.unavoidable (h : Guarded r goal N O) (hvo : SeesFirst r O v o) :
    Unavoidable r goal o v := by
  obtain ⟨ho, l, hl, hnot⟩ := hvo
  induction hl with
  | nil => exact .refl _ _ _
  | @cons m m' o l hs _ ih =>
    rw [List.forall_mem_cons] at hnot
    have hm' : Unavoidable r goal o m' := ih ho hnot.2
    by_contra hm
    exact hnot.1 (h.subset m (h.decides m o ho ⟨⟨m', hs, hm'⟩, fun hu => hm hu.2⟩))

theorem Guarded.unavoidable_of_notMem (h : Guarded r goal N O) (hv : ¬ N v) (hs : r v a)
    (ha : SeesFirst r O a o) : o ≠ v ∧ Unavoidable r goal o v := by
  by_contra hnot
  exact hv (h.decides v o ha.1 ⟨⟨a, hs, h.unavoidable ha⟩, hnot⟩)

/-- Outside of `N` it does not matter which step is taken. -/
theorem Guarded.seesFirst_across (h : Guarded r goal N O) (hv : ¬ N v) (hva : r v a) (hvb : r v b)
    (ha : SeesFirst r O a o) : SeesFirst r O b o := by
  obtain ⟨hne, hu⟩ := h.unavoidable_of_notMem hv hva ha
  have hb : Unavoidable r goal o b := hu.step hvb hne
  obtain ⟨l, hl⟩ := h.exits v b hvb
  have hmeets : ∃ x ∈ l, O x := by
    rcases hb l hl with hmem | rfl
    · exact ⟨o, hmem, ha.1⟩
    · exact absurd ha.1 h.goal_notMem
  obtain ⟨o', l₁, l₂, ho', hfirst, _, hbo', hgoal⟩ := hl.exists_first (.inl hmeets)
  -- the first item met behind `b` cannot be avoided behind `a`, and so it is `o`
  have hb' : SeesFirst r O b o' := ⟨ho', l₁, hbo', hfirst⟩
  obtain ⟨hne', hu'⟩ := h.unavoidable_of_notMem hv hvb hb'
  obtain ⟨ho, la, hao, hbefore⟩ := ha
  have hoo' : Unavoidable r goal o' o :=
    (hu'.step hva hne').past hao fun hmem => hbefore o' hmem ho'
  have ho'o : Unavoidable r goal o o' := hb.past hbo' fun hmem => hfirst o hmem ho
  rwa [← hoo'.antisymm hgoal ho'o]

theorem Guarded.seesFirst_step (h : Guarded r goal N O) (hv : ¬ O v) (hs : r v b) :
    SeesFirst r O v o ↔ SeesFirst r O b o := by
  constructor
  · rintro ⟨ho, l, hl, hnot⟩
    cases hl with
    | nil => exact absurd ho hv
    | cons hva hl =>
      exact h.seesFirst_across (fun hn => hv (h.subset v hn)) hva hs
        ⟨ho, _, hl, (List.forall_mem_cons.mp hnot).2⟩
  · exact .cons hv hs

end Guarded

/-- What the nodes of a graph do to a store, and where they go on. A node changes only variables
that it defines, and all it does depends only on the variables that it uses. -/
structure Behaviour (g : Graph) (V : Type) where
  update : NodeId → (Variable → V) → Variable → V
  next : NodeId → (Variable → V) → NodeId
  update_frame : ∀ v σ x, ¬ g.Defines v x → update v σ x = σ x
  update_local : ∀ v σ τ, (∀ x, g.Uses v x → σ x = τ x) →
    ∀ x, g.Defines v x → update v σ x = update v τ x
  next_local : ∀ v σ τ, (∀ x, g.Uses v x → σ x = τ x) → next v σ = next v τ

variable {g : Graph} {V β : Type} {N O : NodeId → Prop} {Needs : NodeId → Variable → Prop}
  {v w o : NodeId} {x : Variable} {σ τ : Variable → V} {os os' : List β}

/-- The runs to the exit, with what is seen on the way; `look` says what is seen just before a node
is executed. -/
inductive Run (b : Behaviour g V) (look : NodeId → (Variable → V) → List β) :
    NodeId → (Variable → V) → List β → Prop
  | exit (σ : Variable → V) : Run b look exitId σ []
  | step {v : NodeId} {σ : Variable → V} {os : List β} : g.Step v (b.next v σ) →
      Run b look (b.next v σ) (b.update v σ) os → Run b look v σ (look v σ ++ os)

/-- The nodes of `O` are observed, and the values that they need. What decides or feeds them lies
in `N`. -/
structure Watched (g : Graph) (N O : NodeId → Prop) (Needs : NodeId → Variable → Prop) : Prop
    extends Guarded g.Extended exitId N O where
  extended_of_step : ∀ v w, g.Step v w → g.Extended v w
  needs_uses : ∀ v, N v → ∀ x, g.Uses v x → Needs v x
  feeds : ∀ v o x, Needs o x → g.Reaches x v o → N v

def Live (g : Graph) (Needs : NodeId → Variable → Prop) (w : NodeId) (x : Variable) : Prop :=
  ∃ o l, Needs o x ∧ Walk g.Step w o l ∧ ∀ m ∈ l, ¬ g.Defines m x

theorem Live.cons (hs : g.Step v w) (hv : ¬ g.Defines v x) (h : Live g Needs w x) :
    Live g Needs v x := by
  obtain ⟨o, l, ho, hl, hnot⟩ := h
  exact ⟨o, v :: l, ho, .cons hs hl, List.forall_mem_cons.mpr ⟨hv, hnot⟩⟩

theorem Watched.mem_of_defines (h : Watched g N O Needs) (hs : g.Step v w) (hd : g.Defines v x)
    (hlive : Live g Needs w x) : N v := by
  obtain ⟨o, l, ho, hl, hnot⟩ := hlive
  exact h.feeds v o x ho ⟨hd, w, l, hs, hl, hnot⟩

theorem Watched.step_of_extended (h : Watched g N O Needs) {l : List NodeId}
    (he : g.Extended v w) (hl : Walk g.Extended w o l) (ho : o ≠ exitId) : g.Step v w := by
  rcases he with he | ⟨rfl, _⟩
  · exact he.2
  · cases hl with
    | nil => exact absurd rfl ho
    | cons hs _ => exact absurd hs (h.goal_stuck _)

theorem Watched.live_of_seesFirst (h : Watched g N O Needs) (hw : SeesFirst g.Extended O w o)
    (ho : Live g Needs o x) : Live g Needs w x := by
  obtain ⟨hO, l, hl, hnot⟩ := hw
  induction hl with
  | nil => exact ho
  | @cons m m' o l he hl ih =>
    rw [List.forall_mem_cons] at hnot
    have hm' : Live g Needs m' x := ih ho hO hnot.2
    have hs : g.Step m m' :=
      h.step_of_extended he hl fun heq => h.goal_notMem (heq ▸ hO)
    exact hm'.cons hs fun hd => hnot.1 (h.subset m (h.mem_of_defines hs hd hm'))

def AgreeAt (g : Graph) (O : NodeId → Prop) (Needs : NodeId → Variable → Prop) (v : NodeId)
    (σ τ : Variable → V) : Prop :=
  ∀ o, SeesFirst g.Extended O v o → ∀ x, Live g Needs o x → σ x = τ x

def SameAhead (g : Graph) (O : NodeId → Prop) (Needs : NodeId → Variable → Prop) (v : NodeId)
    (σ : Variable → V) (w : NodeId) (τ : Variable → V) : Prop :=
  (∀ o, SeesFirst g.Extended O v o ↔ SeesFirst g.Extended O w o) ∧ AgreeAt g O Needs v σ τ

section Runs

variable {b c : Behaviour g V} {look : NodeId → (Variable → V) → List β}
  (h : Watched g N O Needs)

include h

theorem Watched.update_eq (hv : ¬ N v) (hs : g.Step v w) (hlive : Live g Needs w x)
    (b : Behaviour g V) (σ : Variable → V) : b.update v σ x = σ x ∧ Live g Needs v x := by
  have hd : ¬ g.Defines v x := fun hd => hv (h.mem_of_defines hs hd hlive)
  exact ⟨b.update_frame v σ x hd, hlive.cons hs hd⟩

theorem Watched.pass (hv : ¬ O v) (hs : g.Step v (b.next v σ)) :
    SameAhead g O Needs (b.next v σ) (b.update v σ) v σ := by
  refine ⟨fun o => (h.seesFirst_step hv (h.extended_of_step _ _ hs)).symm, fun o ho x hx => ?_⟩
  exact (h.update_eq (fun hn => hv (h.subset v hn)) hs (h.live_of_seesFirst ho hx) b σ).1

omit h in
theorem SameAhead.trans {u : NodeId} {υ : Variable → V} (h₁ : SameAhead g O Needs v σ w τ)
    (h₂ : SameAhead g O Needs w τ u υ) : SameAhead g O Needs v σ u υ :=
  ⟨fun o => (h₁.1 o).trans (h₂.1 o),
    fun o ho x hx => (h₁.2 o ho x hx).trans (h₂.2 o ((h₁.1 o).mp ho) x hx)⟩

omit h in
theorem SameAhead.symm (h : SameAhead g O Needs v σ w τ) : SameAhead g O Needs w τ v σ :=
  ⟨fun o => (h.1 o).symm, fun o ho x hx => (h.2 o ((h.1 o).mpr ho) x hx).symm⟩

theorem Watched.meet (hagree : ∀ v, N v → b.update v = c.update v ∧ b.next v = c.next v)
    (hstores : ∀ x, Live g Needs v x → σ x = τ x)
    (hs : g.Step v (b.next v σ)) (hs' : g.Step v (c.next v τ)) :
    SameAhead g O Needs (b.next v σ) (b.update v σ) (c.next v τ) (c.update v τ) := by
  by_cases hv : N v
  · -- all that the node uses is live, so both programs do the same
    have huses : ∀ x, g.Uses v x → σ x = τ x := fun x hx =>
      hstores x ⟨v, [], h.needs_uses v hv x hx, .nil v, by simp⟩
    have hnext : c.next v τ = b.next v σ := by
      rw [← (hagree v hv).2, b.next_local v σ τ huses]
    refine ⟨fun o => by rw [hnext], fun o ho x hx => ?_⟩
    rw [← (hagree v hv).1]
    have hlive : Live g Needs (b.next v σ) x := h.live_of_seesFirst ho hx
    by_cases hd : g.Defines v x
    · exact b.update_local v σ τ huses x hd
    · rw [b.update_frame v σ x hd, b.update_frame v τ x hd]
      exact hstores x (hlive.cons hs hd)
  · have he := h.extended_of_step _ _ hs
    have he' := h.extended_of_step _ _ hs'
    refine ⟨fun o => ⟨h.seesFirst_across hv he he', h.seesFirst_across hv he' he⟩, fun o ho x hx => ?_⟩
    obtain ⟨hσ, hlive⟩ := h.update_eq hv hs (h.live_of_seesFirst ho hx) b σ
    obtain ⟨hτ, _⟩ := h.update_eq hv hs'
      (h.live_of_seesFirst (h.seesFirst_across hv he he' ho) hx) c τ
    rw [hσ, hτ, hstores x hlive]

variable (hblind : ∀ v σ, ¬ O v → look v σ = [])

include hblind

theorem Watched.skip (hrun : Run c look w τ os) (hw : SeesFirst g.Extended O w o) :
    ∃ τ', Run c look o τ' os ∧ SameAhead g O Needs o τ' w τ := by
  induction hrun with
  | exit τ => exact absurd hw h.not_seesFirst_goal
  | @step w τ os hs hrun ih =>
    by_cases hO : O w
    · obtain rfl := (seesFirst_iff_eq hO).mp hw
      exact ⟨τ, .step hs hrun, fun o => .rfl, fun o _ x _ => rfl⟩
    · obtain ⟨τ', hrun', hsame⟩ := ih ((h.seesFirst_step hO (h.extended_of_step _ _ hs)).mp hw)
      refine ⟨τ', ?_, hsame.trans (h.pass hO hs)⟩
      rwa [hblind w τ hO, List.nil_append]

theorem Watched.unseen (hrun : Run c look w τ os) (hw : ∀ o, ¬ SeesFirst g.Extended O w o) :
    os = [] := by
  induction hrun with
  | exit τ => rfl
  | @step w τ os hs hrun ih =>
    have hO : ¬ O w := fun hO => hw w ((seesFirst_iff_eq hO).mpr rfl)
    rw [hblind w τ hO, List.nil_append]
    exact ih fun o ho => hw o ((h.seesFirst_step hO (h.extended_of_step _ _ hs)).mpr ho)

/-- Two programs that agree on `N` are seen to do the same. -/
theorem Watched.observations_eq
    (hlook : ∀ v σ τ, (∀ x, Needs v x → σ x = τ x) → look v σ = look v τ)
    (hagree : ∀ v, N v → b.update v = c.update v ∧ b.next v = c.next v)
    (hrun : Run b look v σ os) (hrun' : Run c look w τ os') (hsame : SameAhead g O Needs v σ w τ) :
    os = os' := by
  -- the second run is only moved on when the first one comes to a watched node
  induction hrun generalizing w τ os' with
  | exit σ =>
    exact (h.unseen hblind hrun' fun o ho => h.not_seesFirst_goal ((hsame.1 o).mpr ho)).symm
  | @step v σ os hs hrun ih =>
    by_cases hO : O v
    · have hv : SeesFirst g.Extended O v v := (seesFirst_iff_eq hO).mpr rfl
      obtain ⟨τ', hrun'', hsame'⟩ := h.skip hblind hrun' ((hsame.1 v).mp hv)
      have hstores : ∀ x, Live g Needs v x → σ x = τ' x := (hsame.trans hsame'.symm).2 v hv
      cases hrun'' with
      | exit => exact absurd hO h.goal_notMem
      | step hs' hrest =>
        rw [hlook v σ τ' fun x hx => hstores x ⟨v, [], hx, .nil v, by simp⟩,
          ih hrest (h.meet hagree hstores hs hs')]
    · rw [hblind v σ hO, List.nil_append]
      exact ih hrun' ((h.pass hO hs).trans hsame)

end Runs

end Backslice

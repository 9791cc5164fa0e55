import Backslice.Proofs.Access
import Mathlib.Logic.Relation

/-!
Which writes are collected. A write counts where it is met as something to be read; inside a target
that strips down to an identifier, and inside a declarator of one, writes are overlooked and only
the variables in them count as used. These are the only writes that are overlooked where a tree
holds nothing beside the parts that the grammar gives.
-/

namespace Backslice.Access

open Backslice.Tree

variable {code : Code} {t c w n left base d i : Tree} {a b : Access} {v : Variable}
  {alsoUsed defines partly : Bool} {r : Role}

/-- A part that is taken for an identifier: its other variables are used, and nothing in it is
written. -/
inductive Role.Ends : Role → Prop
  | write {left base : Tree} {alsoUsed partly : Bool} : Strips left base partly →
      Ends (.write left alsoUsed)
  | declare {d i : Tree} {defines : Bool} : d.declared? = some i → Ends (.declare d defines)

theorem Role.collect_of_not_ends (h : ¬ r.Ends) : r.collect code = ofTree code r.tree := by
  cases r with
  | read t => rfl
  | write left alsoUsed => exact ofTarget_of_not_strips fun base partly hs => h (.write hs)
  | declare d defines =>
    refine ofDeclarator_of_none (Option.eq_none_iff_forall_ne_some.mpr fun i hi => ?_)
    exact h (.declare hi)

def Reads (code : Code) (t c : Tree) : Prop := ∃ r, Asks code t r ∧ ¬ r.Ends ∧ r.tree = c

def Meets (code : Code) : Tree → Tree → Prop := Relation.ReflTransGen (Reads code)

/-- A node writes a variable: a target of it strips down to the variable, or it gives the variable
its initial value. -/
inductive Sets (code : Code) (w : Tree) (v : Variable) : Prop
  | write {left base : Tree} {alsoUsed partly : Bool} : Asks code w (.write left alsoUsed) →
      Strips left base partly → code.boundTo base = some v → Sets code w v
  | init {d i : Tree} : Asks code w (.declare d true) → d.declared? = some i →
      code.boundTo i = some v → Sets code w v

theorem Asks.collected (hr : Asks code t r) (h : ofTree code t = .ok a) :
    ∃ b, r.collect code = .ok b ∧ b.defs ⊆ a.defs ∧ b.uses ⊆ a.uses := by
  have hunites := unites_ofTree hr.kind_ne h
  obtain ⟨b, hb⟩ := hunites.collected r hr
  exact ⟨b, hb, fun v hv => (hunites.defs v).mpr ⟨r, b, hr, hb, hv⟩,
    fun v hv => (hunites.uses v).mpr ⟨r, b, hr, hb, hv⟩⟩

theorem Reads.collected (hc : Reads code t c) (h : ofTree code t = .ok a) :
    ∃ b, ofTree code c = .ok b ∧ b.defs ⊆ a.defs ∧ b.uses ⊆ a.uses := by
  obtain ⟨r, hr, hends, rfl⟩ := hc
  rw [← Role.collect_of_not_ends hends]
  exact hr.collected h

theorem Meets.collected (hw : Meets code t w) (h : ofTree code t = .ok a) :
    ∃ b, ofTree code w = .ok b ∧ b.defs ⊆ a.defs ∧ b.uses ⊆ a.uses := by
  induction hw with
  | refl => exact ⟨a, h, List.Subset.refl _, List.Subset.refl _⟩
  | tail _ hstep ih =>
    obtain ⟨b, hb, hdefs, huses⟩ := ih
    obtain ⟨b', hb', hdefs', huses'⟩ := hstep.collected hb
    exact ⟨b', hb', List.Subset.trans hdefs' hdefs, List.Subset.trans huses' huses⟩

theorem Asks.mem_of_strips (hr : Asks code t (.write left alsoUsed)) (hs : Strips left base partly)
    (hv : code.boundTo base = some v) (h : ofTree code t = .ok a) :
    v ∈ a.defs ∧ (alsoUsed = true ∨ partly = true → v ∈ a.uses) := by
  obtain ⟨b, hb, hdefs, huses⟩ := hr.collected h
  rw [Role.collect, ofTarget_of_strips hs] at hb
  cases hb
  refine ⟨hdefs (by simp [ofBase, hv]), fun hused => huses ?_⟩
  have hused : (alsoUsed || partly) = true := by simpa using hused
  simp [ofBase, hv, hused]

theorem Asks.sets_of_mem_defs (hr : Asks code t r) (hends : r.Ends) (h : r.collect code = .ok b)
    (hv : v ∈ b.defs) : Sets code t v := by
  cases hends with
  | write hs =>
    rw [Role.collect, ofTarget_of_strips hs] at h
    cases h
    exact .write hr hs (by simpa [ofBase] using hv)
  | @declare d i defines hd =>
    rw [Role.collect, ofDeclarator_of_declared hd] at h
    cases h
    cases defines with
    | false => cases hv
    | true => exact .init hr hd (by simpa using hv)

theorem exists_sets_of_mem_defs (h : ofTree code t = .ok a) (hv : v ∈ a.defs) :
    ∃ w, Meets code t w ∧ Sets code w v := by
  -- by size, since the arguments of a call are parts of it but not its children
  induction hn : sizeOf t using Nat.strongRecOn generalizing t a with
  | ind n ih =>
    subst hn
    by_cases hident : t.kind = "identifier"
    · rw [ofTree, if_pos hident] at h
      cases h
      cases hv
    obtain ⟨r, b, hr, hb, hv⟩ := ((unites_ofTree hident h).defs v).mp hv
    by_cases hends : r.Ends
    · exact ⟨t, .refl, hr.sets_of_mem_defs hends hb hv⟩
    · rw [Role.collect_of_not_ends hends] at hb
      obtain ⟨w, hw, hsets⟩ := ih _ hr.sizeOf_lt hb hv rfl
      exact ⟨w, .head ⟨r, hr, hends, rfl⟩ hw, hsets⟩

/-- A node stands in a tree outside of blocks and parameter lists. -/
inductive Within : Tree → Tree → Prop
  | self {t : Tree} : t.kind ∉ ["compound_statement", "parameter_list"] → Within t t
  | child {t c w : Tree} : t.kind ∉ ["compound_statement", "parameter_list"] → c ∈ t.children →
      Within c w → Within t w

/-- A node inside a target or declarator that is taken for an identifier. -/
def Overlooks (code : Code) (n w : Tree) : Prop :=
  ∃ r, Asks code n r ∧ r.Ends ∧ Within r.tree w

/-- A node that stands beside the parts of the node around it. -/
def Stray (code : Code) (n w : Tree) : Prop :=
  Within n w ∧ w ≠ n ∧ ∀ r, Asks code n r → ¬ Within r.tree w

theorem meets_of_within (h : Within t w)
    (hplace : ∀ n, Meets code t n → ¬ Overlooks code n w ∧ ¬ Stray code n w) : Meets code t w := by
  induction hn : sizeOf t using Nat.strongRecOn generalizing t with
  | ind n ih =>
    subst hn
    obtain ⟨hseen, hpart⟩ := hplace t .refl
    by_cases heq : w = t
    · rw [heq]
      exact .refl
    obtain ⟨r, hr, hw⟩ : ∃ r, Asks code t r ∧ Within r.tree w := by
      by_contra hnone
      exact hpart ⟨h, heq, fun r hr hw => hnone ⟨r, hr, hw⟩⟩
    -- a part that ends at an identifier would overlook `w`, so this one is read
    have hc : Reads code t r.tree := ⟨r, hr, fun hends => hseen ⟨r, hr, hends, hw⟩, rfl⟩
    exact .head hc (ih _ hr.sizeOf_lt hw (fun n hn => hplace n (.head hc hn)) rfl)

theorem Within.mem_nodes (h : Within t w) : w ∈ t.nodes := by
  induction h with
  | self => exact self_mem_nodes _
  | child _ hc _ ih => exact mem_nodes_of_child hc ih

theorem Meets.mem_nodes (h : Meets code t w) : w ∈ t.nodes := by
  induction h with
  | refl => exact self_mem_nodes t
  | tail _ hstep ih =>
    obtain ⟨r, hr, _, rfl⟩ := hstep
    exact mem_nodes_trans hr.mem_nodes ih

theorem Role.not_ends_read : ¬ (Role.read c).Ends := nofun

/-- A write is seen if the nodes that are read stay among some nodes, of which none overlooks it and
each of those around it has it in one of its parts. -/
theorem seen_of_closed {S : List Tree} (ht : t ∈ S)
    (hpart : ∀ n ∈ S, ∀ r, Asks code n r → r.Ends ∧ w ∉ r.tree.nodes ∨ ¬ r.Ends ∧ r.tree ∈ S)
    (haround : ∀ n ∈ S, w ∈ n.nodes → w ≠ n → ∃ r, Asks code n r ∧ Within r.tree w) :
    ∀ n, Meets code t n → ¬ Overlooks code n w ∧ ¬ Stray code n w := by
  intro n hn
  have hmem : n ∈ S := by
    induction hn with
    | refl => exact ht
    | tail _ hstep ih =>
      obtain ⟨r, hr, hends, rfl⟩ := hstep
      rcases hpart _ ih r hr with ⟨hends', _⟩ | ⟨_, hr⟩
      · exact absurd hends' hends
      · exact hr
  constructor
  · rintro ⟨r, hr, hends, hwithin⟩
    rcases hpart n hmem r hr with ⟨_, hnot⟩ | ⟨hends', _⟩
    · exact hnot hwithin.mem_nodes
    · exact hends' hends
  · rintro ⟨hwithin, hne, hnone⟩
    obtain ⟨r, hr, hw⟩ := haround n hmem hwithin.mem_nodes hne
    exact hnone r hr hw

theorem mem_defs_iff (h : ofTree code t = .ok a) :
    v ∈ a.defs ↔ ∃ w ∈ t.nodes, Meets code t w ∧ Sets code w v := by
  refine ⟨fun hv => ?_, ?_⟩
  · obtain ⟨w, hw, hsets⟩ := exists_sets_of_mem_defs h hv
    exact ⟨w, hw.mem_nodes, hw, hsets⟩
  rintro ⟨w, _, hw, hsets⟩
  obtain ⟨b, hb, hdefs, _⟩ := hw.collected h
  cases hsets with
  | write hr hs hv => exact hdefs (hr.mem_of_strips hs hv hb).1
  | init hr hd hv =>
    obtain ⟨b', hb', hdefs', _⟩ := hr.collected hb
    rw [Role.collect, ofDeclarator_of_declared hd] at hb'
    cases hb'
    exact hdefs (hdefs' (by simp [hv]))

/-- A write outside of blocks and parameter lists whose target strips down to a variable defines the
variable, and uses it unless it is a plain assignment to the whole of it. This fails only for writes
inside the target of another write, inside a declarator, or at a place that the grammar knows
nothing of. Nothing else is defined than what is written or initialised at a node that is met. -/
theorem ofTree_writes (h : ofTree code t = .ok a) :
    (∀ w left alsoUsed base partly v, Within t w →
      (∀ n, Meets code t n → ¬ Overlooks code n w ∧ ¬ Stray code n w) →
      Asks code w (.write left alsoUsed) → Strips left base partly → code.boundTo base = some v →
      v ∈ a.defs ∧ (alsoUsed = true ∨ partly = true → v ∈ a.uses)) ∧
    ∀ v, v ∈ a.defs ↔ ∃ w ∈ t.nodes, Meets code t w ∧ Sets code w v := by
  refine ⟨fun w left alsoUsed base partly v hwithin hplace hr hs hv => ?_, fun v => mem_defs_iff h⟩
  obtain ⟨b, hb, hdefs, huses⟩ := (meets_of_within hwithin hplace).collected h
  obtain ⟨hdef, huse⟩ := hr.mem_of_strips hs hv hb
  exact ⟨hdefs hdef, fun hused => huses (huse hused)⟩

def lent : Tree := ⟨true, "identifier", "argument", 32, 33, []⟩

def lending : Tree := ⟨true, "pointer_expression", "", 31, 33,
  [⟨false, "&", "operator", 31, 32, []⟩, lent]⟩

def grown : Tree := ⟨true, "identifier", "left", 35, 36, []⟩

def one : Tree := ⟨true, "number_literal", "right", 40, 41, []⟩

def growing : Tree := ⟨true, "assignment_expression", "", 35, 41,
  [grown, ⟨false, "+=", "operator", 37, 39, []⟩, one]⟩

def called : Tree := ⟨true, "identifier", "function", 29, 30, []⟩

def calling : Tree := ⟨true, "call_expression", "right", 29, 42, [called,
   ⟨true, "argument_list", "arguments", 30, 42, [⟨false, "(", "", 30, 31, []⟩, lending,
     ⟨false, ",", "", 33, 34, []⟩, growing, ⟨false, ")", "", 41, 42, []⟩]⟩]⟩

def kept : Tree := ⟨true, "identifier", "left", 25, 26, []⟩

def keeping : Tree := ⟨true, "assignment_expression", "", 25, 42,
  [kept, ⟨false, "=", "operator", 27, 28, []⟩, calling]⟩

def handing : Source where
  bytes := "f(int x, int y, int z) \x7b y = g(&x, z += 1); \x7d".toUTF8
  root := ⟨true, "function_definition", "", 0, 45, [
    ⟨true, "function_declarator", "declarator", 0, 22, [
      ⟨true, "identifier", "declarator", 0, 1, []⟩,
      ⟨true, "parameter_list", "parameters", 1, 22, [
        ⟨true, "parameter_declaration", "", 2, 7, [⟨true, "identifier", "declarator", 6, 7, []⟩]⟩,
        ⟨true, "parameter_declaration", "", 9, 14, [⟨true, "identifier", "declarator", 13, 14, []⟩]⟩,
        ⟨true, "parameter_declaration", "", 16, 21, [
          ⟨true, "identifier", "declarator", 20, 21, []⟩]⟩]⟩]⟩,
    ⟨true, "compound_statement", "body", 23, 45, [
      ⟨true, "expression_statement", "", 25, 43, [keeping, ⟨false, ";", "", 42, 43, []⟩]⟩]⟩]⟩
  damaged := false

section Handing

variable {boundTo : Tree → Option Variable}

theorem address_lending : Address ⟨handing, boundTo⟩ lending := by
  have htext : handing.text ⟨false, "&", "operator", 31, 32, []⟩ = .ok "&" := by decide +kernel
  exact ⟨rfl, _, rfl, htext⟩

theorem not_address_growing : ¬ Address ⟨handing, boundTo⟩ growing :=
  fun h => absurd h.1 (by decide)

theorem asks_growing : Asks ⟨handing, boundTo⟩ calling (.read growing) :=
  .argument rfl rfl (by decide) not_address_growing

theorem within_growing : Within calling growing :=
  .child (by decide) (List.mem_cons_of_mem _ (List.mem_singleton_self _))
    (.child (by decide) (by decide) (.self (by decide)))

theorem seen_in_keeping (hw : w ∈ [calling, growing]) (n : Tree)
    (hn : Meets ⟨handing, boundTo⟩ keeping n) :
    ¬ Overlooks ⟨handing, boundTo⟩ n w ∧ ¬ Stray ⟨handing, boundTo⟩ n w := by
  have hleaf : ∀ i ∈ [kept, lent, grown, called, one], w ∉ i.nodes := by
    revert w
    decide
  have harguments : ∀ list ∈ calling.child? "arguments", ∀ c ∈ list.namedChildren,
      c = lending ∨ c = growing := by decide
  refine seen_of_closed (S := [keeping, calling, growing, called, one]) (by decide) ?_ ?_ n hn
  · intro n hn r hr
    simp only [List.mem_cons, List.not_mem_nil, or_false] at hn
    rcases hn with rfl | rfl | rfl | rfl | rfl
    · rcases hr.of_assignment rfl with ⟨left, _, hleft, _, rfl⟩ | ⟨right, hright, rfl⟩
      · cases hleft
        exact .inl ⟨.write (.ident rfl), hleaf kept (by decide)⟩
      · cases hright
        exact .inr ⟨Role.not_ends_read, by decide⟩
    · rcases hr.of_call rfl with ⟨callee, hcallee, rfl⟩ | ⟨list, hlist, c, hc, hr⟩
      · cases hcallee
        exact .inr ⟨Role.not_ends_read, by decide⟩
      · obtain rfl | rfl := harguments list hlist c hc
        · rcases hr with ⟨hplain, _⟩ | ⟨_, left, hleft, rfl⟩
          · exact absurd address_lending hplain
          · cases hleft
            exact .inl ⟨.write (.ident rfl), hleaf lent (by decide)⟩
        · rcases hr with ⟨_, rfl⟩ | ⟨haddress, _⟩
          · exact .inr ⟨Role.not_ends_read, by decide⟩
          · exact absurd haddress not_address_growing
    · rcases hr.of_assignment rfl with ⟨left, _, hleft, _, rfl⟩ | ⟨right, hright, rfl⟩
      · cases hleft
        exact .inl ⟨.write (.ident rfl), hleaf grown (by decide)⟩
      · cases hright
        exact .inr ⟨Role.not_ends_read, by decide⟩
    · exact absurd rfl hr.kind_ne
    · obtain ⟨c, hc, _⟩ := hr.below_child
      cases hc
  · intro n hn hmem hne
    simp only [List.mem_cons, List.not_mem_nil, or_false] at hn hw
    have hcalled : Asks ⟨handing, boundTo⟩ keeping (.read calling) := .right rfl rfl
    have hwithin : Within calling w := by
      rcases hw with rfl | rfl
      · exact .self (by decide)
      · exact within_growing
    rcases hn with rfl | rfl | rfl | rfl | rfl
    · exact ⟨_, hcalled, hwithin⟩
    · obtain rfl := hw.resolve_left hne
      exact ⟨_, asks_growing, .self (by decide)⟩
    · rcases hw with rfl | rfl
      · exact absurd hmem (by decide)
      · exact absurd rfl hne
    · exact absurd hmem (hleaf _ (by decide))
    · exact absurd hmem (hleaf _ (by decide))

end Handing

set_option maxRecDepth 10000 in
/-- In `y = g(&x, z += 1)` the call writes `x` and the assignment in it `z`, and both use what they
write. -/
theorem ofTree_writes_handing : ∃ s a x z, Scoping.ofFunction handing "#" handing.root = .ok s ∧
    ofTree ⟨handing, s.lookup⟩ keeping = .ok a ∧
    s.lookup lent = some x ∧ x ∈ a.defs ∧ x ∈ a.uses ∧
    s.lookup grown = some z ∧ z ∈ a.defs ∧ z ∈ a.uses ∧
    a.defs.map (·.sourceName) = ["y", "x", "z"] ∧ a.uses.map (·.sourceName) = ["x", "z"] := by
  have hrun : ((Scoping.ofFunction handing "#" handing.root).toOption.any fun s =>
      (ofTree ⟨handing, s.lookup⟩ keeping).toOption.any fun a => decide (
        (s.lookup lent).isSome = true ∧ (s.lookup grown).isSome = true ∧
        a.defs.map (·.sourceName) = ["y", "x", "z"] ∧
        a.uses.map (·.sourceName) = ["x", "z"])) = true := by decide +kernel
  obtain ⟨s, hs, hrun⟩ := exists_of_any hrun
  obtain ⟨a, ha, hrun⟩ := exists_of_any hrun
  obtain ⟨hx, hz, hnames⟩ := of_decide_eq_true hrun
  obtain ⟨x, hx⟩ := Option.isSome_iff_exists.mp hx
  obtain ⟨z, hz⟩ := Option.isSome_iff_exists.mp hz
  have hplus : HasOperator ⟨handing, s.lookup⟩ growing "+=" := by
    have htext : handing.text ⟨false, "+=", "operator", 37, 39, []⟩ = .ok "+=" := by decide +kernel
    exact .field rfl htext
  have hcalling : Within keeping calling :=
    .child (by decide) (by decide) (.self (by decide))
  obtain ⟨hxdef, hxuse⟩ := (ofTree_writes ha).1 calling lent true lent false x hcalling
    (seen_in_keeping (by decide)) (.address rfl rfl (by decide) address_lending rfl) (.ident rfl) hx
  obtain ⟨hzdef, hzuse⟩ := (ofTree_writes ha).1 growing grown _ grown false z
    (.child (by decide) (by decide) within_growing) (seen_in_keeping (by decide)) (.left rfl rfl hplus)
    (.ident rfl) hz
  exact ⟨s, a, x, z, hs, ha, hx, hxdef, hxuse (.inl rfl), hz, hzdef, hzuse (.inl (by decide)),
    hnames⟩

def counter : Tree := ⟨true, "identifier", "argument", 21, 22, []⟩

def increment : Tree :=
  ⟨true, "update_expression", "index", 21, 24, [counter, ⟨false, "++", "operator", 22, 24, []⟩]⟩

def array : Tree := ⟨true, "identifier", "argument", 19, 20, []⟩

def element : Tree := ⟨true, "subscript_expression", "left", 19, 25,
  [array, ⟨false, "[", "", 20, 21, []⟩, increment, ⟨false, "]", "", 24, 25, []⟩]⟩

def storing : Tree := ⟨true, "assignment_expression", "", 19, 29,
  [element, ⟨false, "=", "operator", 26, 27, []⟩, ⟨true, "number_literal", "right", 28, 29, []⟩]⟩

def filling : Source where
  bytes := "f(int i, int *a) \x7b a[i++] = 1; \x7d".toUTF8
  root := ⟨true, "function_definition", "", 0, 32, [
    ⟨true, "function_declarator", "declarator", 0, 16, [
      ⟨true, "identifier", "declarator", 0, 1, []⟩,
      ⟨true, "parameter_list", "parameters", 1, 16, [
        ⟨true, "parameter_declaration", "", 2, 7, [⟨true, "identifier", "declarator", 6, 7, []⟩]⟩,
        ⟨true, "parameter_declaration", "", 9, 15, [
          ⟨true, "pointer_declarator", "declarator", 13, 15, [
            ⟨true, "identifier", "declarator", 14, 15, []⟩]⟩]⟩]⟩]⟩,
    ⟨true, "compound_statement", "body", 17, 32, [
      ⟨true, "expression_statement", "", 19, 30, [storing, ⟨false, ";", "", 29, 30, []⟩]⟩]⟩]⟩
  damaged := false

set_option maxRecDepth 10000 in
theorem storing_collected : ∃ s a v x, Scoping.ofFunction filling "#" filling.root = .ok s ∧
    ofTree ⟨filling, s.lookup⟩ storing = .ok a ∧ s.lookup array = some v ∧
    s.lookup counter = some x ∧ x ∉ a.defs := by
  have hrun : ((Scoping.ofFunction filling "#" filling.root).toOption.any fun s =>
      (ofTree ⟨filling, s.lookup⟩ storing).toOption.any fun a =>
        (s.lookup array).isSome && (s.lookup counter).any (· ∉ a.defs)) = true := by decide +kernel
  obtain ⟨s, hs, hrun⟩ := exists_of_any hrun
  obtain ⟨a, ha, hrun⟩ := exists_of_any hrun
  simp only [Bool.and_eq_true, Option.isSome_iff_exists, Option.any_eq_true,
    decide_eq_true_eq] at hrun
  obtain ⟨⟨v, hv⟩, x, hx, hnot⟩ := hrun
  exact ⟨s, a, v, x, hs, ha, hv, hx, hnot⟩

/-- In `a[i++] = 1`, the update writes `i`, which is not among what is defined. -/
theorem increment_not_defined : ∃ s a x, Scoping.ofFunction filling "#" filling.root = .ok s ∧
    ofTree ⟨filling, s.lookup⟩ storing = .ok a ∧ Within storing increment ∧
    Asks ⟨filling, s.lookup⟩ increment (.write counter true) ∧ Strips counter counter false ∧
    s.lookup counter = some x ∧ x ∉ a.defs := by
  obtain ⟨s, a, _, x, hs, ha, _, hx, hnot⟩ := storing_collected
  have hwithin : Within storing increment := by
    refine .child (c := element) (by decide) (by simp [storing]) ?_
    exact .child (by decide) (by simp [element]) (.self (by decide))
  exact ⟨s, a, x, hs, ha, hwithin, .update rfl rfl, .ident rfl, hx, hnot⟩

end Backslice.Access

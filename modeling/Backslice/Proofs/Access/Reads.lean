import Backslice.Proofs.Access.Writes
import Mathlib.Tactic.MkIffOfInductiveProp

namespace Backslice.Access

open Backslice.Tree

variable {code : Code} {t c d i left base list : Tree} {ts : List Tree} {a b : Access}
  {v : Variable} {alsoUsed partly : Bool} {r : Role} {k : Key}

def Fills (n : Tree) (field : String) (i : Tree) : Prop := ∃ c ∈ n.child? field, i ∈ c.nodes

instance (n : Tree) (field : String) (i : Tree) : Decidable (Fills n field i) :=
  inferInstanceAs (Decidable (∃ c ∈ n.child? field, i ∈ c.nodes))

/-- An identifier below a node stands in one of the fields that the grammar gives the node. -/
@[mk_iff]
structure Placed (n i : Tree) : Prop where
  assignment : n.kind = "assignment_expression" → Fills n "left" i ∨ Fills n "right" i
  operand : n.kind ∈ ["update_expression", "pointer_expression"] → Fills n "argument" i
  call : n.kind = "call_expression" → Fills n "function" i ∨
    ∃ list ∈ n.child? "arguments", ∃ c ∈ list.namedChildren, i ∈ c.nodes

instance (n i : Tree) : Decidable (Placed n i) := decidable_of_iff' _ (placed_iff n i)

/-- An expression as the grammar has it: without blocks, parameters and declarators, its identifiers
leaves at different places and in the fields that are there for them. -/
@[mk_iff]
structure IsExpression (t : Tree) : Prop where
  kinds : ∀ n ∈ t.nodes, n.kind ∉ ["compound_statement", "parameter_list", "init_declarator"]
  leaves : ∀ i ∈ t.identifiers, i.children = []
  distinct : t.Distinct
  placed : ∀ n ∈ t.nodes, ∀ i ∈ n.identifiers, Placed n i

instance (t : Tree) : Decidable (IsExpression t) := decidable_of_iff' _ (isExpression_iff t)

theorem IsExpression.of_mem_nodes (ht : IsExpression t) (hd : d ∈ t.nodes) : IsExpression d where
  kinds n hn := ht.kinds n (mem_nodes_trans hn hd)
  leaves i hi := ht.leaves i (mem_identifiers_trans hi hd)
  distinct := ht.distinct.of_mem_nodes hd
  placed n hn := ht.placed n (mem_nodes_trans hn hd)

theorem IsExpression.eq_of_identifier (ht : IsExpression t) (hkind : t.kind = "identifier")
    (hi : i ∈ t.identifiers) : i = t := by
  have hleaf := ht.leaves t (mem_identifiers.mpr ⟨self_mem_nodes t, hkind⟩)
  rcases mem_nodes_iff.mp (mem_identifiers.mp hi).1 with rfl | ⟨c, hc, _⟩
  · rfl
  · rw [hleaf] at hc
    cases hc

theorem IsExpression.key_ne (ht : IsExpression t) (hi : i ∈ t.identifiers)
    (hbase : base ∈ t.identifiers) (hne : i ≠ base) : i.key ≠ base.key := by
  intro hkey
  refine hne (List.inj_on_of_nodup_map ht.distinct hi hbase ?_)
  simp only [key, Key.mk.injEq] at hkey
  simp only [span, hkey]

theorem aroundAll_eq_flatMap (code : Code) (k : Key) (ts : List Tree) :
    aroundAll code k ts = ts.flatMap (around code k) := by
  induction ts with
  | nil => rfl
  | cons t ts ih => rw [aroundAll, List.flatMap_cons, ih]

theorem around_eq (code : Code) (k : Key) (t : Tree) : around code k t =
    if t.key = k ∨ t.kind = "parameter_list" then []
    else if t.kind = "identifier" then (code.boundTo t).toList
    else t.children.flatMap (around code k) := by
  obtain ⟨named, kind, field, start, stop, children⟩ := t
  rw [around, aroundAll_eq_flatMap]

theorem mem_around (ht : IsExpression t) (hk : k.kind = "identifier") (hi : i ∈ t.identifiers)
    (hne : i.key ≠ k) (hv : code.boundTo i = some v) : v ∈ around code k t := by
  induction t using induction_on_children with
  | h t ih =>
    have hparameters : t.kind ≠ "parameter_list" := fun hkind =>
      ht.kinds t (self_mem_nodes t) (by simp [hkind])
    rw [around_eq]
    by_cases hident : t.kind = "identifier"
    · obtain rfl := ht.eq_of_identifier hident hi
      rw [if_neg (not_or.mpr ⟨hne, hparameters⟩), if_pos hident, hv]
      exact List.mem_singleton_self v
    · have hkey : t.key ≠ k := fun hkey => hident ((congrArg Key.kind hkey).trans hk)
      rw [if_neg (not_or.mpr ⟨hkey, hparameters⟩), if_neg hident, List.mem_flatMap]
      obtain ⟨hmem, hkind⟩ := mem_identifiers.mp hi
      rcases mem_nodes_iff.mp hmem with rfl | ⟨c, hc, hic⟩
      · exact absurd hkind hident
      · have hct : c ∈ t.nodes := mem_nodes_of_child hc (self_mem_nodes c)
        exact ⟨c, hc, ih c hc (ht.of_mem_nodes hct) (mem_identifiers.mpr ⟨hic, hkind⟩)⟩

theorem exists_of_mem_around (hv : v ∈ around code k t) :
    ∃ i ∈ t.identifiers, code.boundTo i = some v := by
  induction t using induction_on_children with
  | h t ih =>
    rw [around_eq] at hv
    split at hv
    · cases hv
    split at hv
    · rename_i hkind
      exact ⟨t, mem_identifiers.mpr ⟨self_mem_nodes t, hkind⟩, by simpa using hv⟩
    · obtain ⟨c, hc, hv⟩ := List.mem_flatMap.mp hv
      obtain ⟨i, hi, hiv⟩ := ih c hc hv
      exact ⟨i, mem_identifiers_of_child hc hi, hiv⟩

theorem Strips.mem_nodes (h : Strips left base partly) : base ∈ left.nodes := by
  induction h with
  | ident => exact self_mem_nodes _
  | @parens t c _ _ _ hc _ ih =>
    have hmem : c ∈ t.namedChildren := by rw [hc]; exact List.mem_singleton_self c
    exact mem_nodes_of_child (List.mem_filter.mp hmem).1 ih
  | part _ hc _ ih => exact mem_nodes_of_child (mem_children_of_child? hc) ih

theorem Strips.mem_identifiers (h : Strips left base partly) : base ∈ left.identifiers :=
  Tree.mem_identifiers.mpr ⟨h.mem_nodes, h.kind_eq⟩

theorem exists_hasOperator (hkind : t.kind = "assignment_expression")
    (h : ofTree code t = .ok a) : ∃ op, HasOperator code t op := by
  rw [ofTree] at h
  simp only [hkind, String.reduceEq, if_false, if_true] at h
  obtain ⟨op, hop, _⟩ := exists_of_bind_eq_ok h
  exact ⟨op, hasOperator_iff.mpr hop⟩

theorem exists_handed (h : ofArgument code c = .ok a) : ∃ r, Handed code c r := by
  rw [ofArgument] at h
  obtain ⟨isAddress, hc, h⟩ := exists_of_bind_eq_ok h
  cases isAddress with
  | false => exact ⟨_, .inl ⟨by simp [address_iff hc], rfl⟩⟩
  | true =>
    rw [if_pos rfl] at h
    split at h
    · rename_i left hleft
      exact ⟨_, .inr ⟨(address_iff hc).mpr rfl, left, hleft, rfl⟩⟩
    · cases h

theorem exists_ofArgument (h : ofArguments code ts = .ok a) (hc : c ∈ ts.filter (·.named)) :
    ∃ b, ofArgument code c = .ok b := by
  induction ts generalizing a with
  | nil => cases hc
  | cons t ts ih =>
    rw [ofArguments] at h
    rw [List.mem_filter, List.mem_cons] at hc
    split at h
    · obtain ⟨first, hfirst, h⟩ := exists_of_bind_eq_ok h
      obtain ⟨rest, hrest, _⟩ := exists_of_bind_eq_ok h
      obtain ⟨rfl | hc, hnamed⟩ := hc
      · exact ⟨first, hfirst⟩
      · exact ih hrest (List.mem_filter.mpr ⟨hc, hnamed⟩)
    · rename_i htoken
      obtain ⟨_, _, h⟩ := exists_of_bind_eq_ok h
      obtain ⟨rest, hrest, _⟩ := exists_of_bind_eq_ok h
      obtain ⟨rfl | hc, hnamed⟩ := hc
      · exact absurd hnamed htoken
      · exact ih hrest (List.mem_filter.mpr ⟨hc, hnamed⟩)

theorem exists_ofArguments (hkind : t.kind = "call_expression") (h : ofTree code t = .ok a)
    (hlist : t.child? "arguments" = some list) : ∃ b, ofArguments code list.children = .ok b := by
  rw [ofTree] at h
  simp only [hkind, String.reduceEq, if_false, if_true] at h
  split at h
  · obtain ⟨_, _, h⟩ := exists_of_bind_eq_ok h
    split at h
    · rename_i list' hlist'
      cases hlist.symm.trans hlist'
      obtain ⟨b, hb, _⟩ := exists_of_bind_eq_ok h
      exact ⟨b, hb⟩
    · rename_i hnone
      cases hlist.symm.trans hnone
  · cases h

theorem exists_asks_argument (ht : IsExpression t) (hkind : t.kind = "call_expression")
    (h : ofTree code t = .ok a) (hlist : t.child? "arguments" = some list)
    (hc : c ∈ list.namedChildren) (hi : i ∈ c.identifiers) :
    ∃ r, Asks code t r ∧ i ∈ r.tree.nodes := by
  obtain ⟨b, hb⟩ := exists_ofArguments hkind h hlist
  obtain ⟨b', hb'⟩ := exists_ofArgument hb hc
  obtain ⟨_, ⟨hplain, rfl⟩ | ⟨haddress, left, hleft, rfl⟩⟩ := exists_handed hb'
  · exact ⟨_, .argument hkind hlist hc hplain, (mem_identifiers.mp hi).1⟩
  · refine ⟨_, .address hkind hlist hc haddress hleft, ?_⟩
    have hct : c ∈ t.nodes := mem_nodes_of_child (mem_children_of_child? hlist)
      (mem_nodes_of_child (List.mem_filter.mp hc).1 (self_mem_nodes c))
    obtain ⟨left', hleft', hi⟩ :=
      (ht.placed c hct i hi).operand (by simp [haddress.1])
    cases hleft.symm.trans hleft'
    exact hi

theorem exists_asks (ht : IsExpression t) (hident : t.kind ≠ "identifier")
    (h : ofTree code t = .ok a) (hi : i ∈ t.identifiers) :
    ∃ r, Asks code t r ∧ i ∈ r.tree.nodes := by
  have hself := self_mem_nodes t
  have hplaced := ht.placed t hself i hi
  by_cases hown : t.kind ∈ ownKinds
  · have hkinds := ht.kinds t hself
    simp only [ownKinds, List.mem_cons, List.not_mem_nil, or_false, not_or] at hown hkinds
    rcases hown with hkind | hkind | hkind | hkind | hkind | hkind
    · exact absurd hkind hident
    · exact absurd hkind hkinds.1
    · rcases hplaced.assignment hkind with ⟨c, hc, hic⟩ | ⟨c, hc, hic⟩
      · obtain ⟨op, hop⟩ := exists_hasOperator hkind h
        exact ⟨_, .left hkind hc hop, hic⟩
      · exact ⟨_, .right hkind hc, hic⟩
    · obtain ⟨c, hc, hic⟩ := hplaced.operand (by simp [hkind])
      exact ⟨_, .update hkind hc, hic⟩
    · exact absurd hkind hkinds.2.2
    · rcases hplaced.call hkind with ⟨c, hc, hic⟩ | ⟨list, hlist, c, hc, hic⟩
      · exact ⟨_, .callee hkind hc, hic⟩
      · exact exists_asks_argument ht hkind h hlist hc
          (mem_identifiers.mpr ⟨hic, (mem_identifiers.mp hi).2⟩)
  · obtain ⟨hmem, hkind⟩ := mem_identifiers.mp hi
    rcases mem_nodes_iff.mp hmem with rfl | ⟨c, hc, hic⟩
    · exact absurd hkind hident
    · exact ⟨_, .child hown hc, hic⟩

/-- A plain assignment writes the whole of what an identifier, up to parentheses, stands for. -/
def Overwritten (code : Code) (t i : Tree) : Prop :=
  ∃ w ∈ t.nodes, w.kind = "assignment_expression" ∧ HasOperator code w "=" ∧
    ∃ left ∈ w.child? "left", Strips left i false

theorem Overwritten.of_mem_nodes (hd : d ∈ t.nodes) (h : Overwritten code d i) :
    Overwritten code t i := by
  obtain ⟨w, hw, h⟩ := h
  exact ⟨w, mem_nodes_trans hw hd, h⟩

theorem Asks.overwritten (hr : Asks code t (.write left alsoUsed)) (hplain : alsoUsed = false)
    (hs : Strips left i false) : Overwritten code t i := by
  cases hr with
  | @left _ op hkind hleft hop =>
    obtain rfl : op = "=" := by simpa using hplain
    exact ⟨t, self_mem_nodes t, hkind, hop, left, hleft, hs⟩
  | update => cases hplain
  | address => cases hplain

theorem Asks.mem_uses_of_strips (ht : IsExpression t) (hr : Asks code t (.write left alsoUsed))
    (hs : Strips left base partly) (hi : i ∈ left.identifiers) (hv : code.boundTo i = some v)
    (h : ofTree code t = .ok a) : v ∈ a.uses ∨ Overwritten code t i := by
  have hleft : IsExpression left := ht.of_mem_nodes hr.mem_nodes
  by_cases heq : i = base
  · subst heq
    by_cases hused : alsoUsed = true ∨ partly = true
    · exact .inl ((hr.mem_of_strips hs hv h).2 hused)
    · simp only [not_or, Bool.not_eq_true] at hused
      obtain ⟨rfl, rfl⟩ := hused
      exact .inr (hr.overwritten rfl hs)
  · obtain ⟨b, hb, _, huses⟩ := hr.collected h
    rw [Role.collect, ofTarget_of_strips hs] at hb
    cases hb
    refine .inl (huses (List.mem_append_right _ ?_))
    exact mem_around hleft hs.kind_eq hi (hleft.key_ne hi hs.mem_identifiers heq) hv

theorem mem_uses_or_overwritten (ht : IsExpression t) (h : ofTree code t = .ok a)
    (hi : i ∈ t.identifiers) (hv : code.boundTo i = some v) :
    v ∈ a.uses ∨ Overwritten code t i := by
  induction hn : sizeOf t using Nat.strongRecOn generalizing t a with
  | ind n ih =>
    subst hn
    by_cases hident : t.kind = "identifier"
    · obtain rfl := ht.eq_of_identifier hident hi
      rw [ofTree, if_pos hident] at h
      cases h
      simp [reading, hv]
    obtain ⟨r, hr, hir⟩ := exists_asks ht hident h hi
    have hir : i ∈ r.tree.identifiers := mem_identifiers.mpr ⟨hir, (mem_identifiers.mp hi).2⟩
    by_cases hends : r.Ends
    · cases hends with
      | write hs => exact hr.mem_uses_of_strips ht hs hir hv h
      | declare =>
        -- only an initialised declarator declares
        cases hr with
        | declarator hkind => exact absurd (by simp [hkind]) (ht.kinds t (self_mem_nodes t))
    · have hreads : Reads code t r.tree := ⟨r, hr, hends, rfl⟩
      obtain ⟨b, hb, _, huses⟩ := hreads.collected h
      exact (ih _ hr.sizeOf_lt (ht.of_mem_nodes hr.mem_nodes) hb hir rfl).imp (fun hv => huses hv)
        (Overwritten.of_mem_nodes hr.mem_nodes)

theorem bound_of_mem_ofBase (hv : v ∈ (ofBase code left base alsoUsed).defs ∨
    v ∈ (ofBase code left base alsoUsed).uses) :
    code.boundTo base = some v ∨ v ∈ around code base.key left := by
  simp only [ofBase, List.mem_append, Option.mem_toList] at hv
  rcases hv with hv | hv | hv
  · exact .inl hv
  · split at hv
    · exact .inl (by simpa using hv)
    · cases hv
  · exact .inr hv

theorem Role.Ends.exists_bound (hends : r.Ends) (h : r.collect code = .ok b)
    (hv : v ∈ b.defs ∨ v ∈ b.uses) : ∃ i ∈ r.tree.identifiers, code.boundTo i = some v := by
  cases hends with
  | write hs =>
    rw [Role.collect, ofTarget_of_strips hs] at h
    cases h
    rcases bound_of_mem_ofBase hv with hv | hv
    · exact ⟨_, hs.mem_identifiers, hv⟩
    · exact exists_of_mem_around hv
  | @declare d i defines hd =>
    rw [Role.collect, ofDeclarator_of_declared hd] at h
    cases h
    rcases hv with hv | hv
    · cases defines with
      | false => cases hv
      | true => exact ⟨i, mem_identifiers.mpr (declared?_mem hd), by simpa using hv⟩
    · exact exists_of_mem_around hv

theorem exists_bound (h : ofTree code t = .ok a) (hv : v ∈ a.defs ∨ v ∈ a.uses) :
    ∃ i ∈ t.identifiers, code.boundTo i = some v := by
  induction hn : sizeOf t using Nat.strongRecOn generalizing t a with
  | ind n ih =>
    subst hn
    by_cases hident : t.kind = "identifier"
    · rw [ofTree, if_pos hident] at h
      cases h
      exact ⟨t, mem_identifiers.mpr ⟨self_mem_nodes t, hident⟩, by simpa [reading] using hv⟩
    have hunites := unites_ofTree hident h
    rw [hunites.defs, hunites.uses] at hv
    obtain ⟨r, b, hr, hb, hv⟩ : ∃ r b, Asks code t r ∧ r.collect code = .ok b ∧
        (v ∈ b.defs ∨ v ∈ b.uses) := by
      rcases hv with ⟨r, b, hr, hb, hv⟩ | ⟨r, b, hr, hb, hv⟩
      · exact ⟨r, b, hr, hb, .inl hv⟩
      · exact ⟨r, b, hr, hb, .inr hv⟩
    obtain ⟨i, hi, hiv⟩ : ∃ i ∈ r.tree.identifiers, code.boundTo i = some v := by
      by_cases hends : r.Ends
      · exact hends.exists_bound hb hv
      · rw [Role.collect_of_not_ends hends] at hb
        exact ih _ hr.sizeOf_lt hb hv rfl
    exact ⟨i, mem_identifiers_trans hi hr.mem_nodes, hiv⟩

/-- Every identifier of an expression that is bound to a variable uses the variable, unless a plain
assignment overwrites the whole of it there. What is defined or used is bound to an identifier. -/
theorem ofTree_reads (ht : IsExpression t) (h : ofTree code t = .ok a) :
    (∀ i ∈ t.identifiers, ∀ v, code.boundTo i = some v → ¬ Overwritten code t i → v ∈ a.uses) ∧
    ∀ v, v ∈ a.defs ∨ v ∈ a.uses → ∃ i ∈ t.identifiers, code.boundTo i = some v := by
  refine ⟨fun i hi v hv hkept => ?_, fun v hv => exists_bound h hv⟩
  exact (mem_uses_or_overwritten ht h hi hv).resolve_right hkept

theorem not_overwritten_storing (i : Tree) : ¬ Overwritten code storing i := by
  rintro ⟨w, hw, hkind, _, left, hleft, hs⟩
  have hnodes : ∀ w ∈ storing.nodes, w.kind = "assignment_expression" → w = storing := by decide
  obtain rfl := hnodes w hw hkind
  obtain rfl : element = left := Option.some.inj hleft
  cases hs with
  | ident hkind => exact absurd hkind (by decide)
  | parens hkind => exact absurd hkind (by decide)

theorem ofTree_reads_storing : ∃ s a v x, Scoping.ofFunction filling "#" filling.root = .ok s ∧
    IsExpression storing ∧ ofTree ⟨filling, s.lookup⟩ storing = .ok a ∧
    s.lookup array = some v ∧ s.lookup counter = some x ∧ v ∈ a.uses ∧ x ∈ a.uses := by
  obtain ⟨s, a, v, x, hs, ha, hv, hx, _⟩ := storing_collected
  have hexpression : IsExpression storing := by decide
  obtain ⟨hused, _⟩ := ofTree_reads hexpression ha
  exact ⟨s, a, v, x, hs, hexpression, ha, hv, hx,
    hused array (by decide) v hv (not_overwritten_storing array),
    hused counter (by decide) x hx (not_overwritten_storing counter)⟩

end Backslice.Access

import Backslice.Stmt.OfTree
import Mathlib.Data.List.Nodup
import Mathlib.Data.List.Pairwise

namespace Backslice.Tree

mutual

def nodes : Tree → List Tree
  | t@⟨_, _, _, _, _, children⟩ => t :: nodesOf children

def nodesOf : List Tree → List Tree
  | [] => []
  | t :: ts => t.nodes ++ nodesOf ts

end

mutual

def decEq : (t t' : Tree) → Decidable (t = t')
  | ⟨named, kind, field, start, stop, children⟩,
    ⟨named', kind', field', start', stop', children'⟩ =>
    let _ := decEqAll children children'
    decidable_of_iff (named = named' ∧ kind = kind' ∧ field = field' ∧ start = start' ∧
      stop = stop' ∧ children = children') (by rw [mk.injEq])

def decEqAll : (ts ts' : List Tree) → Decidable (ts = ts')
  | [], [] => isTrue rfl
  | [], _ :: _ => isFalse (List.cons_ne_nil _ _).symm
  | _ :: _, [] => isFalse (List.cons_ne_nil _ _)
  | t :: ts, t' :: ts' =>
    let _ := decEq t t'
    let _ := decEqAll ts ts'
    decidable_of_iff (t = t' ∧ ts = ts') (by rw [List.cons.injEq])

end

instance : DecidableEq Tree := decEq

variable {t c c' d i : Tree} {ts : List Tree}

theorem nodes_eq (t : Tree) : t.nodes = t :: nodesOf t.children := by
  cases t
  rw [nodes]

theorem nodesOf_eq_flatMap (ts : List Tree) : nodesOf ts = ts.flatMap nodes := by
  induction ts with
  | nil => rfl
  | cons t ts ih => rw [nodesOf, List.flatMap_cons, ih]

theorem mem_nodes_iff : d ∈ t.nodes ↔ d = t ∨ ∃ c ∈ t.children, d ∈ c.nodes := by
  rw [nodes_eq, List.mem_cons, nodesOf_eq_flatMap, List.mem_flatMap]

theorem self_mem_nodes (t : Tree) : t ∈ t.nodes := mem_nodes_iff.mpr (.inl rfl)

theorem mem_nodes_of_child (hc : c ∈ t.children) (hd : d ∈ c.nodes) : d ∈ t.nodes :=
  mem_nodes_iff.mpr (.inr ⟨c, hc, hd⟩)

theorem induction_on_children {P : Tree → Prop} (h : ∀ t, (∀ c ∈ t.children, P c) → P t)
    (t : Tree) : P t := by
  induction hn : sizeOf t using Nat.strongRecOn generalizing t with
  | ind n ih =>
    subst hn
    exact h t fun c hc => ih _ (sizeOf_lt_of_mem hc) c rfl

theorem functionsOf_eq_flatMap (ts : List Tree) : functionsOf ts = ts.flatMap functions := by
  induction ts with
  | nil => rfl
  | cons t ts ih => rw [functionsOf, List.flatMap_cons, ih]

theorem functions_eq_filter (t : Tree) :
    t.functions = t.nodes.filter (·.kind = "function_definition") := by
  induction t using induction_on_children with
  | h t ih =>
    have hbelow : functionsOf t.children =
        (nodesOf t.children).filter (·.kind = "function_definition") := by
      rw [functionsOf_eq_flatMap, nodesOf_eq_flatMap, List.filter_flatMap]
      exact List.flatMap_congr ih
    rw [nodes_eq, List.filter_cons, ← hbelow]
    cases t
    rw [functions]
    split <;> simp_all

theorem sizeOf_le_of_mem_nodes (hd : d ∈ t.nodes) : sizeOf d ≤ sizeOf t := by
  induction t using induction_on_children with
  | h t ih =>
    rcases mem_nodes_iff.mp hd with rfl | ⟨c, hc, hd⟩
    · exact Nat.le_refl _
    · exact Nat.le_trans (ih c hc hd) (Nat.le_of_lt (sizeOf_lt_of_mem hc))

theorem mem_nodes_trans (hd : d ∈ c.nodes) (hc : c ∈ t.nodes) : d ∈ t.nodes := by
  induction t using induction_on_children with
  | h t ih =>
    rcases mem_nodes_iff.mp hc with rfl | ⟨b, hb, hc⟩
    · exact hd
    · exact mem_nodes_of_child hb (ih b hb hc)

theorem ne_of_mem_nodes_child (hc : c ∈ t.children) (hd : d ∈ c.nodes) : d ≠ t := by
  rintro rfl
  have hle := sizeOf_le_of_mem_nodes hd
  have hlt := sizeOf_lt_of_mem hc
  omega

theorem mem_nodes_antisymm (hct : c ∈ t.nodes) (htc : t ∈ c.nodes) : c = t := by
  rcases mem_nodes_iff.mp hct with heq | ⟨b, hb, hcb⟩
  · exact heq
  · exact absurd rfl (ne_of_mem_nodes_child hb (mem_nodes_trans htc hcb))

theorem declared?_cases (h : d.declared? = some i) : d = i ∧ d.kind = "identifier" ∨
    (isWrappingDeclarator d.kind = true ∨ d.kind = "parenthesized_declarator") ∧
      ∃ c ∈ d.children, c.declared? = some i := by
  rw [declared?] at h
  split at h
  · rename_i hkind
    exact .inl ⟨Option.some.inj h, hkind⟩
  · right
    split at h
    · rename_i hkind
      refine ⟨.inl hkind, ?_⟩
      split at h
      · rename_i c hc
        refine ⟨c, ?_, h⟩
        rw [innerDeclarator?, Option.or_eq_some_iff] at hc
        rcases hc with hc | ⟨_, hc⟩
        · exact mem_children_of_child? hc
        · exact (List.mem_filter.mp (List.mem_of_find?_eq_some hc)).1
      · cases h
    · split at h
      · rename_i hkind
        refine ⟨.inr hkind, ?_⟩
        split at h
        · rename_i c _ hc
          have hmem : c ∈ d.namedChildren := by rw [hc]; exact List.mem_cons_self ..
          exact ⟨c, (List.mem_filter.mp hmem).1, h⟩
        · cases h
      · cases h

theorem declared?_mem (h : d.declared? = some i) : i ∈ d.nodes ∧ i.kind = "identifier" := by
  induction d using induction_on_children with
  | h d ih =>
    rcases declared?_cases h with ⟨rfl, hkind⟩ | ⟨_, c, hc, hci⟩
    · exact ⟨self_mem_nodes d, hkind⟩
    · exact ⟨mem_nodes_of_child hc (ih c hc hci).1, (ih c hc hci).2⟩

theorem functionDeclarator?_mem (h : t.functionDeclarator? = some d) :
    ∃ c, t.child? "declarator" = some c ∧ d ∈ c.nodes := by
  induction t using induction_on_children with
  | h t ih =>
    rw [functionDeclarator?] at h
    split at h
    · cases h
    · rename_i c hc
      refine ⟨c, hc, ?_⟩
      split at h
      · rw [← Option.some.inj h]
        exact self_mem_nodes c
      · obtain ⟨b, hb, hd⟩ := ih c (mem_children_of_child? hc) h
        exact mem_nodes_of_child (mem_children_of_child? hb) hd

/-- The statement behind the `else` of an `if`: it fills the field itself, or it is the first in an
`else_clause` that is no comment. -/
def otherwise? (t : Tree) : Option Tree :=
  (t.children.find? fun c => c.field = "alternative").bind fun a =>
    if a.kind = "else_clause" then a.children.find? fun c => c.named ∧ c.kind ≠ "comment" else some a

theorem otherwise?_below (h : t.otherwise? = some c) : ∃ a ∈ t.children, c ∈ a.nodes := by
  obtain ⟨a, ha, h⟩ := Option.bind_eq_some_iff.mp h
  refine ⟨a, List.mem_of_find?_eq_some ha, ?_⟩
  split at h
  · exact mem_nodes_of_child (List.mem_of_find?_eq_some h) (self_mem_nodes c)
  · rw [← Option.some.inj h]
    exact self_mem_nodes a

theorem sizeOf_otherwise?_lt (h : t.otherwise? = some c) : sizeOf c < sizeOf t := by
  obtain ⟨a, ha, hc⟩ := otherwise?_below h
  exact Nat.lt_of_le_of_lt (sizeOf_le_of_mem_nodes hc) (sizeOf_lt_of_mem ha)

theorem alternative?_eq_otherwise? (t : Tree) : Stmt.alternative? t = t.otherwise? := by
  have hfield : t.child? "alternative" = t.children.find? fun c => c.field = "alternative" := by
    simp only [child?, beq_eq_decide]
  have hclause : ∀ a : Tree, a.namedChildren.find? (·.kind != "comment") =
      a.children.find? fun c => c.named ∧ c.kind ≠ "comment" := by
    intro a
    rw [namedChildren, List.find?_filter]
    congr
    funext c
    simp
  rw [Stmt.alternative?, otherwise?, hfield]
  cases t.children.find? fun c => c.field = "alternative" with
  | none => rfl
  | some a => simp only [hclause, Option.bind_some]

theorem field_of_child? {field : String} (h : t.child? field = some c) : c.field = field := by
  simpa using List.find?_some h

def span (t : Tree) : Nat × Nat := (t.start, t.stop)

def identifiers (t : Tree) : List Tree := t.nodes.filter (·.kind = "identifier")

theorem mem_identifiers : i ∈ t.identifiers ↔ i ∈ t.nodes ∧ i.kind = "identifier" := by
  simp [identifiers]

theorem mem_identifiers_trans (hi : i ∈ d.identifiers) (hd : d ∈ t.nodes) :
    i ∈ t.identifiers := by
  rw [mem_identifiers] at hi ⊢
  exact ⟨mem_nodes_trans hi.1 hd, hi.2⟩

theorem mem_identifiers_of_child (hc : c ∈ t.children) (hi : i ∈ c.identifiers) :
    i ∈ t.identifiers := mem_identifiers_trans hi (mem_nodes_of_child hc (self_mem_nodes c))

/-- No two identifiers of a tree stand at one place. -/
def Distinct (t : Tree) : Prop := (t.identifiers.map span).Nodup

instance : DecidablePred Distinct :=
  fun t => inferInstanceAs (Decidable (t.identifiers.map span).Nodup)

def Apart (c c' : Tree) : Prop :=
  ∀ i ∈ c.identifiers, ∀ j ∈ c'.identifiers, i.span ≠ j.span

instance : Std.Symm Apart := ⟨fun _ _ h i hi j hj => (h j hj i hi).symm⟩

theorem Distinct.children (h : t.Distinct) :
    (∀ c ∈ t.children, c.Distinct) ∧ t.children.Pairwise Apart := by
  have hnodup : (t.children.flatMap fun c => c.identifiers.map span).Nodup := by
    refine List.Nodup.sublist ?_ h
    rw [identifiers, nodes_eq, ← List.map_flatMap, nodesOf_eq_flatMap]
    refine List.Sublist.map span ?_
    rw [show (t.children.flatMap fun c => c.identifiers) =
      (t.children.flatMap nodes).filter (·.kind = "identifier") from (List.filter_flatMap ..).symm]
    exact (List.sublist_cons_self ..).filter _
  obtain ⟨hchild, hapart⟩ := List.nodup_flatMap.mp hnodup
  refine ⟨hchild, hapart.imp fun hdisjoint i hi j hj hspan => ?_⟩
  exact hdisjoint (List.mem_map_of_mem hi) (hspan ▸ List.mem_map_of_mem hj)

theorem Distinct.child (h : t.Distinct) (hc : c ∈ t.children) : c.Distinct := h.children.1 c hc

theorem Distinct.child_unique (h : t.Distinct) (hc : c ∈ t.children) (hc' : c' ∈ t.children)
    (hi : i ∈ c.identifiers) (hi' : i ∈ c'.identifiers) : c = c' := by
  by_contra hne
  exact h.children.2.forall hc hc' hne i hi i hi' rfl

/-- A node around an identifier below a child is the parent or lies below this child. -/
theorem Distinct.mem_child (h : t.Distinct) (hc : c ∈ t.children) (hi : i ∈ c.identifiers)
    (hid : i ∈ d.nodes) (hd : d ∈ t.nodes) : d = t ∨ d ∈ c.nodes := by
  rcases mem_nodes_iff.mp hd with rfl | ⟨c', hc', hd⟩
  · exact .inl rfl
  · have hi' : i ∈ c'.identifiers :=
      mem_identifiers.mpr ⟨mem_nodes_trans hid hd, (mem_identifiers.mp hi).2⟩
    rw [h.child_unique hc hc' hi hi']
    exact .inr hd

theorem Distinct.of_mem_nodes (h : t.Distinct) (hd : d ∈ t.nodes) : d.Distinct := by
  induction t using induction_on_children with
  | h t ih =>
    rcases mem_nodes_iff.mp hd with rfl | ⟨c, hc, hd⟩
    · exact h
    · exact ih c hc (h.child hc) hd

theorem Distinct.apart_of_field (h : t.Distinct) {f f' : String} (hc : t.child? f = some c)
    (hc' : t.child? f' = some c') (hne : f ≠ f') : Apart c c' := by
  refine h.children.2.forall (mem_children_of_child? hc) (mem_children_of_child? hc') ?_
  rintro rfl
  exact hne ((field_of_child? hc).symm.trans (field_of_child? hc'))

theorem Distinct.kind_of_declared (h : d.Distinct) (hi : d.declared? = some i) (hc : c ∈ d.nodes)
    (hic : i ∈ c.nodes) : c.kind = "identifier" ∨ isWrappingDeclarator c.kind = true ∨
      c.kind = "parenthesized_declarator" := by
  induction d using induction_on_children with
  | h d ih =>
    rcases declared?_cases hi with ⟨rfl, hkind⟩ | ⟨hkind, b, hb, hbi⟩
    · rw [mem_nodes_antisymm hc hic]
      exact .inl hkind
    · rcases mem_nodes_iff.mp hc with rfl | ⟨b', hb', hc⟩
      · exact .inr hkind
      · obtain ⟨hmem, hident⟩ := declared?_mem hbi
        have hunique : b = b' := h.child_unique hb hb' (mem_identifiers.mpr ⟨hmem, hident⟩)
          (mem_identifiers.mpr ⟨mem_nodes_trans hic hc, hident⟩)
        exact ih b hb (h.child hb) hbi (hunique ▸ hc)

end Backslice.Tree

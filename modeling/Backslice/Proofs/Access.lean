import Backslice.Access
import Backslice.Proofs.Table
import Backslice.Proofs.Tree

namespace Backslice.Access

open Backslice.Tree

inductive Role where
  | read (t : Tree)
  | write (left : Tree) (alsoUsed : Bool)
  | declare (d : Tree) (defines : Bool)

namespace Role

def tree : Role → Tree
  | read t => t
  | write left _ => left
  | declare d _ => d

def collect (code : Code) : Role → Except TreeError Access
  | read t => ofTree code t
  | write left alsoUsed => ofTarget code left alsoUsed
  | declare d defines => ofDeclarator code d defines

end Role

def ownKinds : List String := ["identifier", "compound_statement", "assignment_expression",
  "update_expression", "init_declarator", "call_expression"]

/-- The operator of an assignment, which has a field of its own or is the second child. -/
inductive HasOperator (code : Code) (t : Tree) (op : String) : Prop
  | field {o : Tree} : t.child? "operator" = some o → code.source.text o = .ok op →
      HasOperator code t op
  | second {o : Tree} : t.child? "operator" = none → t.children[1]? = some o →
      code.source.text o = .ok op → HasOperator code t op

def Address (code : Code) (c : Tree) : Prop :=
  c.kind = "pointer_expression" ∧ ∃ o ∈ c.child? "operator", code.source.text o = .ok "&"

/-- The parts of a node and what it asks of them. Of an assignment, only a plain one does not use
what it writes; of a call, the addresses among the arguments are written through; nodes without a
rule of their own read all of their children. -/
inductive Asks (code : Code) (t : Tree) : Role → Prop
  | child {c : Tree} : t.kind ∉ ownKinds → c ∈ t.children → Asks code t (.read c)
  | left {left : Tree} {op : String} : t.kind = "assignment_expression" →
      t.child? "left" = some left → HasOperator code t op → Asks code t (.write left (op ≠ "="))
  | right {right : Tree} : t.kind = "assignment_expression" → t.child? "right" = some right →
      Asks code t (.read right)
  | update {left : Tree} : t.kind = "update_expression" → t.child? "argument" = some left →
      Asks code t (.write left true)
  | declarator {d : Tree} : t.kind = "init_declarator" → t.child? "declarator" = some d →
      Asks code t (.declare d (t.child? "value").isSome)
  | value {value : Tree} : t.kind = "init_declarator" → t.child? "value" = some value →
      Asks code t (.read value)
  | callee {callee : Tree} : t.kind = "call_expression" → t.child? "function" = some callee →
      Asks code t (.read callee)
  | argument {list c : Tree} : t.kind = "call_expression" → t.child? "arguments" = some list →
      c ∈ list.namedChildren → ¬ Address code c → Asks code t (.read c)
  | address {list c left : Tree} : t.kind = "call_expression" → t.child? "arguments" = some list →
      c ∈ list.namedChildren → Address code c → c.child? "argument" = some left →
      Asks code t (.write left true)

variable {code : Code} {t c left base d i : Tree} {ts : List Tree} {a b : Access} {v : Variable}
  {alsoUsed defines partly : Bool} {P Q : Role → Prop} {r : Role}

theorem hasOperator_iff {op : String} :
    HasOperator code t op ↔ operatorText code t = .ok op := by
  unfold operatorText
  constructor
  · rintro (⟨hfield, htext⟩ | ⟨hfield, hsecond, htext⟩)
    · simp only [hfield, htext]
    · rcases hchildren : t.children with _ | ⟨c, _ | ⟨o, cs⟩⟩
      · simp [hchildren] at hsecond
      · simp [hchildren] at hsecond
      · rw [hchildren] at hsecond
        cases hsecond
        simp only [hfield, htext]
  · intro h
    split at h
    · rename_i o hfield
      exact .field hfield h
    · rename_i hfield
      split at h
      · rename_i hchildren
        exact .second hfield (by rw [hchildren]; rfl) h
      · cases h

theorem address_iff {isAddress : Bool} (h : Access.isAddress code c = .ok isAddress) :
    Address code c ↔ isAddress = true := by
  unfold Access.isAddress at h
  by_cases hkind : c.kind = "pointer_expression"
  · rw [if_pos hkind] at h
    cases hop : c.child? "operator" with
    | none =>
      rw [hop] at h
      cases h
      simp [Address, hop]
    | some o =>
      rw [hop] at h
      obtain ⟨text, htext, rfl⟩ := exists_of_map_eq_ok h
      simp [Address, hkind, hop, htext]
  · rw [if_neg hkind] at h
    cases h
    simp [Address, hkind]

theorem Asks.of_assignment (hkind : t.kind = "assignment_expression") (h : Asks code t r) :
    (∃ left op, t.child? "left" = some left ∧ HasOperator code t op ∧
      r = .write left (op ≠ "=")) ∨ ∃ right, t.child? "right" = some right ∧ r = .read right := by
  cases h with
  | left _ hleft hop => exact .inl ⟨_, _, hleft, hop, rfl⟩
  | right _ hright => exact .inr ⟨_, hright, rfl⟩
  | _ => simp_all [ownKinds]

theorem Asks.below_child (h : Asks code t r) : ∃ c ∈ t.children, r.tree ∈ c.nodes := by
  have hfield : ∀ {f c}, t.child? f = some c → ∃ b ∈ t.children, c ∈ b.nodes :=
    fun hc => ⟨_, mem_children_of_child? hc, self_mem_nodes _⟩
  have hlisted : ∀ {list c}, t.child? "arguments" = some list → c ∈ list.namedChildren →
      list ∈ t.children ∧ c ∈ list.nodes := fun hlist hc =>
    ⟨mem_children_of_child? hlist, mem_nodes_of_child (List.mem_filter.mp hc).1 (self_mem_nodes _)⟩
  cases h with
  | child _ hc => exact ⟨_, hc, self_mem_nodes _⟩
  | left _ hc => exact hfield hc
  | right _ hc => exact hfield hc
  | update _ hc => exact hfield hc
  | declarator _ hc => exact hfield hc
  | value _ hc => exact hfield hc
  | callee _ hc => exact hfield hc
  | argument _ hlist hc => exact ⟨_, hlisted hlist hc⟩
  | address _ hlist hc _ hleft =>
    obtain ⟨hmem, hc⟩ := hlisted hlist hc
    have hleft := mem_nodes_of_child (mem_children_of_child? hleft) (self_mem_nodes _)
    exact ⟨_, hmem, mem_nodes_trans hleft hc⟩

theorem Asks.mem_nodes (h : Asks code t r) : r.tree ∈ t.nodes := by
  obtain ⟨c, hc, hr⟩ := h.below_child
  exact mem_nodes_of_child hc hr

theorem Asks.sizeOf_lt (h : Asks code t r) : sizeOf r.tree < sizeOf t := by
  obtain ⟨c, hc, hr⟩ := h.below_child
  exact Nat.lt_of_le_of_lt (sizeOf_le_of_mem_nodes hr) (sizeOf_lt_of_mem hc)

theorem Asks.kind_ne (h : Asks code t r) : t.kind ≠ "identifier" := by
  rintro hkind
  cases h <;> simp_all [ownKinds]

structure Unites (code : Code) (P : Role → Prop) (a : Access) : Prop where
  collected : ∀ r, P r → ∃ b, r.collect code = .ok b
  defs : ∀ v, v ∈ a.defs ↔ ∃ r b, P r ∧ r.collect code = .ok b ∧ v ∈ b.defs
  uses : ∀ v, v ∈ a.uses ↔ ∃ r b, P r ∧ r.collect code = .ok b ∧ v ∈ b.uses

namespace Unites

theorem none : Unites code (fun _ => False) {} where
  collected _ h := h.elim
  defs v := by simp
  uses v := by simp

theorem single (h : r.collect code = .ok a) : Unites code (· = r) a where
  collected := by
    rintro _ rfl
    exact ⟨a, h⟩
  defs v := by simp [h]
  uses v := by simp [h]

theorem append (ha : Unites code P a) (hb : Unites code Q b) :
    Unites code (fun r => P r ∨ Q r) (a ++ b) where
  collected r hr := hr.elim (ha.collected r) (hb.collected r)
  defs v := by simp only [defs_append, List.mem_append, ha.defs, hb.defs, or_and_right, exists_or]
  uses v := by simp only [uses_append, List.mem_append, ha.uses, hb.uses, or_and_right, exists_or]

theorem congr (ha : Unites code P a) (h : ∀ r, P r ↔ Q r) : Unites code Q a := by
  rwa [show Q = P from funext fun r => propext (h r).symm]

end Unites

theorem unites_ofTrees (h : ofTrees code ts = .ok a) :
    Unites code (fun r => ∃ c ∈ ts, r = .read c) a := by
  induction ts generalizing a with
  | nil =>
    rw [ofTrees] at h
    cases h
    exact Unites.none.congr (by simp)
  | cons t ts ih =>
    rw [ofTrees] at h
    obtain ⟨first, hfirst, h⟩ := exists_of_bind_eq_ok h
    obtain ⟨rest, hrest, h⟩ := exists_of_bind_eq_ok h
    cases h
    exact ((Unites.single (r := .read t) hfirst).append (ih hrest)).congr (by simp)

def Handed (code : Code) (c : Tree) (r : Role) : Prop :=
  ¬ Address code c ∧ r = .read c ∨
    Address code c ∧ ∃ left, c.child? "argument" = some left ∧ r = .write left true

theorem Asks.of_call (hkind : t.kind = "call_expression") (h : Asks code t r) :
    (∃ callee, t.child? "function" = some callee ∧ r = .read callee) ∨
      ∃ list, t.child? "arguments" = some list ∧ ∃ c ∈ list.namedChildren, Handed code c r := by
  cases h with
  | callee _ hcallee => exact .inl ⟨_, hcallee, rfl⟩
  | argument _ hlist hc hplain => exact .inr ⟨_, hlist, _, hc, .inl ⟨hplain, rfl⟩⟩
  | address _ hlist hc haddress hleft =>
    exact .inr ⟨_, hlist, _, hc, .inr ⟨haddress, _, hleft, rfl⟩⟩
  | _ => simp_all [ownKinds]

theorem unites_ofArgument (h : ofArgument code c = .ok a) : Unites code (Handed code c) a := by
  rw [ofArgument] at h
  obtain ⟨isAddress, hc, h⟩ := exists_of_bind_eq_ok h
  cases isAddress with
  | false =>
    exact (Unites.single (r := .read c) h).congr (by simp [Handed, address_iff hc])
  | true =>
    rw [if_pos rfl] at h
    split at h
    · rename_i left hleft
      exact (Unites.single (r := .write left true) h).congr
        (by simp [Handed, address_iff hc, hleft])
    · cases h

theorem unites_ofArguments (h : ofArguments code ts = .ok a) :
    Unites code (fun r => ∃ c ∈ ts.filter (·.named), Handed code c r) a := by
  induction ts generalizing a with
  | nil =>
    rw [ofArguments] at h
    cases h
    exact Unites.none.congr (by simp)
  | cons t ts ih =>
    rw [ofArguments] at h
    split at h
    · rename_i hnamed
      obtain ⟨first, hfirst, h⟩ := exists_of_bind_eq_ok h
      obtain ⟨rest, hrest, h⟩ := exists_of_bind_eq_ok h
      cases h
      exact ((unites_ofArgument hfirst).append (ih hrest)).congr (by simp [hnamed])
    · rename_i hnamed
      -- a bare token between the arguments
      obtain ⟨first, hfirst, h⟩ := exists_of_bind_eq_ok h
      obtain ⟨rest, hrest, h⟩ := exists_of_bind_eq_ok h
      cases hfirst
      cases h
      exact (Unites.none.append (ih hrest)).congr (by simp [hnamed])

theorem unites_ofInit (hkind : t.kind = "init_declarator") (h : ofInit code t = .ok a) :
    Unites code (Asks code t) a := by
  rw [ofInit] at h
  split at h
  · rename_i d hd
    obtain ⟨declared, hdeclared, h⟩ := exists_of_bind_eq_ok h
    have hdeclare := Unites.single (r := .declare d (t.child? "value").isSome) hdeclared
    dsimp only at h
    split at h
    · rename_i value hvalue
      obtain ⟨read, hread, h⟩ := exists_of_bind_eq_ok h
      cases h
      refine (hdeclare.append (.single (r := .read value) hread)).congr fun r => ⟨?_, fun hr => ?_⟩
      · rintro (rfl | rfl)
        exacts [.declarator hkind hd, .value hkind hvalue]
      · cases hr <;> simp_all [ownKinds]
    · rename_i hvalue
      cases h
      refine (hdeclare.append .none).congr fun r => ⟨?_, fun hr => ?_⟩
      · rintro (rfl | hfalse)
        exacts [.declarator hkind hd, hfalse.elim]
      · cases hr <;> simp_all [ownKinds]
  · cases h

theorem unites_assignment (hkind : t.kind = "assignment_expression") (h : ofTree code t = .ok a) :
    Unites code (Asks code t) a := by
  rw [ofTree] at h
  simp only [hkind, String.reduceEq, if_false, if_true] at h
  obtain ⟨op, hop, h⟩ := exists_of_bind_eq_ok h
  split at h
  · rename_i left hleft
    obtain ⟨written, hwritten, h⟩ := exists_of_bind_eq_ok h
    split at h
    · rename_i right hright
      obtain ⟨read, hread, h⟩ := exists_of_bind_eq_ok h
      cases h
      refine ((Unites.single (r := .write left (op ≠ "=")) hwritten).append
        (.single (r := .read right) hread)).congr fun r => ⟨?_, fun hr => ?_⟩
      · rintro (rfl | rfl)
        exacts [.left hkind hleft (hasOperator_iff.mpr hop), .right hkind hright]
      · rcases hr.of_assignment hkind with ⟨left', op', hleft', hop', rfl⟩ | ⟨right', hright', rfl⟩
        · cases hleft.symm.trans hleft'
          cases hop.symm.trans (hasOperator_iff.mp hop')
          exact .inl rfl
        · cases hright.symm.trans hright'
          exact .inr rfl
    · cases h
  · cases h

theorem unites_call (hkind : t.kind = "call_expression") (h : ofTree code t = .ok a) :
    Unites code (Asks code t) a := by
  rw [ofTree] at h
  simp only [hkind, String.reduceEq, if_false, if_true] at h
  split at h
  · rename_i callee hcallee
    obtain ⟨called, hcalled, h⟩ := exists_of_bind_eq_ok h
    have hread := Unites.single (r := .read callee) hcalled
    split at h
    · rename_i list hlist
      obtain ⟨handed, hhanded, h⟩ := exists_of_bind_eq_ok h
      cases h
      refine (hread.append (unites_ofArguments hhanded)).congr fun r => ⟨?_, fun hr => ?_⟩
      · rintro (rfl | ⟨c, hc, ⟨hplain, rfl⟩ | ⟨haddress, left, hleft, rfl⟩⟩)
        · exact .callee hkind hcallee
        · exact .argument hkind hlist hc hplain
        · exact .address hkind hlist hc haddress hleft
      · rcases hr.of_call hkind with ⟨callee', hcallee', rfl⟩ | ⟨list', hlist', hr⟩
        · cases hcallee.symm.trans hcallee'
          exact .inl rfl
        · cases hlist.symm.trans hlist'
          exact .inr hr
    · rename_i hlist
      cases h
      refine (hread.append .none).congr fun r => ⟨?_, fun hr => ?_⟩
      · rintro (rfl | hfalse)
        exacts [.callee hkind hcallee, hfalse.elim]
      · cases hr <;> simp_all [ownKinds]
  · cases h

theorem unites_ofTree (hident : t.kind ≠ "identifier") (h : ofTree code t = .ok a) :
    Unites code (Asks code t) a := by
  have h' := h
  rw [ofTree, if_neg hident] at h
  split at h
  · rename_i hkind
    cases h
    refine Unites.none.congr fun r => ⟨False.elim, fun hr => ?_⟩
    cases hr <;> simp_all [ownKinds]
  split at h
  · rename_i hkind
    exact unites_assignment hkind h'
  split at h
  · rename_i hkind
    split at h
    · rename_i left hleft
      refine (Unites.single (r := .write left true) h).congr fun r => ⟨?_, fun hr => ?_⟩
      · rintro rfl
        exact .update hkind hleft
      · cases hr <;> simp_all [ownKinds]
    · cases h
  split at h
  · rename_i hkind
    exact unites_ofInit hkind h
  split at h
  · rename_i hkind
    exact unites_call hkind h'
  · refine (unites_ofTrees h).congr fun r => ⟨?_, fun hr => ?_⟩
    · rintro ⟨c, hc, rfl⟩
      exact .child (by simp_all [ownKinds]) hc
    · cases hr <;> simp_all [ownKinds]

/-- The identifier that a target strips down to, through parentheses around one expression, and
through subscripts, fields and dereferences, which make it a write to a part. -/
inductive Strips : Tree → Tree → Bool → Prop
  | ident {t : Tree} : t.kind = "identifier" → Strips t t false
  | parens {t c base : Tree} {partly : Bool} : t.kind = "parenthesized_expression" →
      t.namedChildren = [c] → Strips c base partly → Strips t base partly
  | part {t c base : Tree} {partly : Bool} :
      t.kind ∈ ["subscript_expression", "field_expression", "pointer_expression"] →
      t.child? "argument" = some c → Strips c base partly → Strips t base true

theorem isLvalueWrapper_iff {kind : String} : isLvalueWrapper kind = true ↔
    kind ∈ ["subscript_expression", "field_expression", "pointer_expression"] := by
  simp [isLvalueWrapper, or_assoc]

theorem Strips.kind_eq (h : Strips left base partly) : base.kind = "identifier" := by
  induction h with
  | ident hkind => exact hkind
  | parens _ _ _ ih => exact ih
  | part _ _ _ ih => exact ih

theorem Strips.target_eq (h : Strips left base partly) (p : Bool) :
    target p left = (some base, p || partly) := by
  induction h generalizing p with
  | ident hkind =>
    rw [target, hkind]
    simp [isLvalueWrapper]
  | parens hkind hc _ ih =>
    rw [target, if_pos hkind]
    split
    · rename_i c' hc'
      cases hc.symm.trans hc'
      exact ih p
    · rename_i hother
      exact absurd hc (hother _)
  | part hkind hc _ ih =>
    have hparens : ∀ t : Tree, isLvalueWrapper t.kind = true →
        t.kind ≠ "parenthesized_expression" := by
      intro t ht hkind
      simp [isLvalueWrapper, hkind] at ht
    rw [← isLvalueWrapper_iff] at hkind
    rw [target, if_neg (hparens _ hkind), if_pos hkind]
    split
    · rename_i c' hc'
      cases hc.symm.trans hc'
      rw [ih true, Bool.true_or, Bool.or_true]
    · rename_i hnone
      cases hc.symm.trans hnone

theorem strips_of_target {p q : Bool} (h : target p left = (some base, q))
    (hident : base.kind = "identifier") : ∃ partly, Strips left base partly := by
  fun_induction target p left with
  | case1 p t hkind c hc ih => exact (ih h).imp fun _ hs => .parens hkind hc hs
  | case3 p t _ hkind c hc ih =>
    obtain ⟨_, hs⟩ := ih h
    exact ⟨true, .part (isLvalueWrapper_iff.mp hkind) hc hs⟩
  | case4 => cases h
  | _ =>
    cases h
    exact ⟨false, .ident hident⟩

theorem ofTarget_of_strips (h : Strips left base partly) :
    ofTarget code left alsoUsed = .ok (ofBase code left base (alsoUsed || partly)) := by
  rw [ofTarget, h.target_eq false]
  simp only [h.kind_eq, if_true, Bool.false_or]

theorem ofTarget_of_not_strips (h : ∀ base partly, ¬ Strips left base partly) :
    ofTarget code left alsoUsed = ofTree code left := by
  rw [ofTarget]
  split
  · rename_i base partly hbase
    rw [if_neg]
    intro hident
    obtain ⟨partly, hs⟩ := strips_of_target hbase hident
    exact h base partly hs
  · rfl

theorem ofDeclarator_of_declared (h : d.declared? = some i) : ofDeclarator code d defines =
    .ok ⟨if defines then (code.boundTo i).toList else [], around code i.key d⟩ := by
  rw [ofDeclarator, h]

theorem ofDeclarator_of_none (h : d.declared? = none) :
    ofDeclarator code d defines = ofTree code d := by
  rw [ofDeclarator, h]

end Backslice.Access

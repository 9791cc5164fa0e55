import Backslice.Proofs.Scoping.Names

namespace Backslice.Scoping

variable {src : Source} {s s' : Scoping} {t d : Tree} {ts : List Tree} {xs ys : List Step}
  {scope : Scope} {outer : List Scope}

inductive Balanced : List Step → Prop
  | nil : Balanced []
  | declare {i : Tree} {isParameter : Bool} {xs : List Step} :
      Balanced xs → Balanced (.declare i isParameter :: xs)
  | use {o : Tree} {xs : List Step} : Balanced xs → Balanced (.use o :: xs)
  | scope {n : Tree} {xs ys : List Step} :
      Balanced xs → Balanced ys → Balanced (.enter n :: (xs ++ .leave :: ys))

/-- The declarations among some steps that are made in none of the scopes opened by them, where
`depth` of these are open at the start. -/
def loose : Nat → List Step → List (Tree × Bool)
  | _, [] => []
  | 0, .declare i isParameter :: xs => (i, isParameter) :: loose 0 xs
  | depth + 1, .declare _ _ :: xs => loose (depth + 1) xs
  | depth, .use _ :: xs => loose depth xs
  | depth, .enter _ :: xs => loose (depth + 1) xs
  | depth, .leave :: xs => loose (depth - 1) xs

namespace Balanced

theorem append (h : Balanced xs) (h' : Balanced ys) : Balanced (xs ++ ys) := by
  induction h with
  | nil => exact h'
  | declare _ ih => exact .declare ih
  | use _ ih => exact .use ih
  | scope hinner _ _ ih =>
    rw [List.cons_append, List.append_assoc, List.cons_append]
    exact .scope hinner ih

theorem of_uses (h : ∀ x ∈ xs, ∃ o, x = .use o) : Balanced xs := by
  induction xs with
  | nil => exact .nil
  | cons x xs ih =>
    rw [List.forall_mem_cons] at h
    obtain ⟨⟨o, rfl⟩, h⟩ := h
    exact .use (ih h)

theorem of_declares (is : List Tree) : Balanced (is.map (.declare · false)) := by
  induction is with
  | nil => exact .nil
  | cons i is ih => exact .declare ih

theorem loose_append (h : Balanced xs) (depth : Nat) (ys : List Step) :
    loose depth (xs ++ ys) = loose depth xs ++ loose depth ys := by
  induction h generalizing depth ys with
  | nil => simp [loose]
  | declare _ ih => cases depth <;> simp [loose, ih]
  | use _ ih => cases depth <;> simp [loose, ih]
  | scope _ _ ih ih' => cases depth <;> simp [loose, ih, ih']

theorem loose_succ (h : Balanced xs) (depth : Nat) : loose (depth + 1) xs = [] := by
  induction h generalizing depth with
  | nil => rfl
  | declare _ ih => exact ih depth
  | use _ ih => exact ih depth
  | scope hinner _ ih ih' =>
    rw [loose, hinner.loose_append, ih, loose]
    exact ih' depth

theorem exists_scopes (h : Balanced xs) (hopen : s.scopes = scope :: outer)
    (hrun : performAll src xs s = .ok s') :
    ∃ vs, List.Forall₂ (Declares src) (loose 0 xs) vs ∧ (∀ v ∈ vs, v ∈ s'.vars) ∧
      s'.scopes = ((vs.map fun v => (v.sourceName, v)).reverse ++ scope) :: outer := by
  induction h generalizing s s' scope outer with
  | nil =>
    cases hrun
    exact ⟨[], .nil, by simp, hopen⟩
  | @declare i isParameter _ _ ih =>
    obtain ⟨s₁, hx, hrun⟩ := exists_of_bind_eq_ok hrun
    obtain ⟨source, hsource, hx⟩ := exists_of_bind_eq_ok hx
    cases hx
    have hopen₁ := congrArg
      (bindName source ⟨s.freshName source, source, some (src.line i), isParameter⟩) hopen
    obtain ⟨vs, hvs, hmem, hscopes⟩ := ih hopen₁ hrun
    obtain ⟨news, hnews, _⟩ := vars_performAll hrun
    refine ⟨⟨s.freshName source, source, some (src.line i), isParameter⟩ :: vs,
      .cons ⟨hsource, rfl, rfl⟩ hvs, List.forall_mem_cons.mpr ⟨?_, hmem⟩, ?_⟩
    · rw [hnews]
      simp
    · rw [hscopes, List.map_cons, List.reverse_cons, List.append_assoc]
      rfl
  | use _ ih =>
    obtain ⟨s₁, hx, hrun⟩ := exists_of_bind_eq_ok hrun
    obtain ⟨_, _, rfl⟩ := exists_of_resolve hx
    refine ih ?_ hrun
    exact hopen
  | scope hinner _ ih ih' =>
    obtain ⟨s₁, hx, hrun⟩ := exists_of_bind_eq_ok hrun
    cases hx
    rw [performAll_append] at hrun
    obtain ⟨s₂, hinside, hrun⟩ := exists_of_bind_eq_ok hrun
    obtain ⟨s₃, hx, hrun⟩ := exists_of_bind_eq_ok hrun
    cases hx
    -- what is declared inside goes into the new scope, and is dropped with it
    have hopen₁ : s.openScope.scopes = [] :: s.scopes := rfl
    obtain ⟨_, _, _, hscopes⟩ := ih hopen₁ hinside
    have hopen₃ : s₂.closeScope.scopes = scope :: outer := by
      rw [closeScope, hscopes, List.tail_cons, hopen]
    rw [loose, hinner.loose_append, hinner.loose_succ, List.nil_append, loose]
    exact ih' hopen₃ hrun

end Balanced

section Steps

theorem balanced_stepsAround (skipped : Tree.Key) (t : Tree) :
    Balanced (stepsAround skipped t) := by
  refine .of_uses fun x hx => ?_
  obtain ⟨o, _, hx, _⟩ := uses_stepsAround t x hx
  exact ⟨o, hx⟩

theorem balanced_stepsAll (ht : ∀ t ∈ ts, Balanced (steps t)) : Balanced (stepsAll ts) := by
  induction ts with
  | nil =>
    rw [stepsAll]
    exact .nil
  | cons t ts ih =>
    rw [List.forall_mem_cons] at ht
    rw [stepsAll]
    exact ht.1.append (ih ht.2)

theorem balanced_part (ht : ∀ c ∈ t.children, Balanced (steps c)) (field : String) :
    Balanced (stepsOf (t.child? field)) := by
  cases hc : t.child? field with
  | none => exact .nil
  | some c => exact ht c (Tree.mem_children_of_child? hc)

theorem balanced_stepsRangeLoop (ht : ∀ c ∈ t.children, Balanced (steps c)) :
    Balanced (stepsRangeLoop t) := by
  rw [stepsRangeLoop_eq]
  exact (balanced_part ht "right").append ((Balanced.of_declares _).append (balanced_part ht "body"))

theorem balanced_stepsDeclarator (hd : Balanced (steps d))
    (hc : ∀ c ∈ d.children, Balanced (steps c)) : Balanced (stepsDeclarator d) := by
  cases hident : (target? d).bind (·.declared?) with
  | none =>
    rw [stepsDeclarator_eq_of_none hident]
    exact hd
  | some ident =>
    obtain ⟨target, htarget, hident⟩ := Option.bind_eq_some_iff.mp hident
    rw [stepsDeclarator_eq_of_declared htarget hident]
    refine .declare ((balanced_stepsAround _ _).append ?_)
    unfold value?
    split
    · exact balanced_part hc "value"
    · exact .nil

theorem balanced_stepsDeclarators
    (ht : ∀ d ∈ ts, Balanced (steps d) ∧ ∀ c ∈ d.children, Balanced (steps c)) :
    Balanced (stepsDeclarators ts) := by
  induction ts with
  | nil =>
    rw [stepsDeclarators]
    exact .nil
  | cons d ts ih =>
    rw [List.forall_mem_cons] at ht
    rw [stepsDeclarators]
    split
    · exact ih ht.2
    · exact (balanced_stepsDeclarator ht.1.1 ht.1.2).append (ih ht.2)

theorem balanced_steps (t : Tree) : Balanced (steps t) := by
  induction hn : sizeOf t using Nat.strongRecOn generalizing t with
  | ind n ih =>
  subst hn
  have ht : ∀ c ∈ t.children, Balanced (steps c) :=
    fun c hc => ih _ (Tree.sizeOf_lt_of_mem hc) c rfl
  rw [steps]
  split
  · refine .scope ?_ .nil
    split
    · exact balanced_stepsRangeLoop ht
    · exact balanced_stepsAll ht
  · split
    · refine balanced_stepsDeclarators fun d hd => ⟨ht d hd, fun c hc => ?_⟩
      exact ih _ (Nat.lt_trans (Tree.sizeOf_lt_of_mem hc) (Tree.sizeOf_lt_of_mem hd)) c rfl
    · split
      · exact .use .nil
      · exact balanced_stepsAll ht

end Steps

mutual

def exposed : Tree → List Tree
  | t@⟨_, kind, _, _, _, children⟩ => if isScope kind then [] else t :: exposedAll children

def exposedAll : List Tree → List Tree
  | [] => []
  | t :: ts => exposed t ++ exposedAll ts

end

theorem exposed_eq (t : Tree) :
    exposed t = if isScope t.kind then [] else t :: exposedAll t.children := by
  cases t
  rw [exposed]

theorem exists_inner (ht : isScope t.kind = true) :
    ∃ xs, Balanced xs ∧ steps t = .enter t :: (xs ++ [.leave]) := by
  rw [steps, if_pos ht]
  refine ⟨_, ?_, rfl⟩
  split
  · exact balanced_stepsRangeLoop fun c _ => balanced_steps c
  · exact balanced_stepsAll fun c _ => balanced_steps c

theorem loose_of_isScope (ht : isScope t.kind = true) : loose 0 (steps t) = [] := by
  obtain ⟨xs, hxs, heq⟩ := exists_inner ht
  rw [heq, loose, hxs.loose_append, hxs.loose_succ]
  rfl

theorem loose_stepsAll (ht : ∀ t ∈ ts, loose 0 (steps t) = []) : loose 0 (stepsAll ts) = [] := by
  induction ts with
  | nil =>
    rw [stepsAll]
    rfl
  | cons t ts ih =>
    rw [List.forall_mem_cons] at ht
    rw [stepsAll, (balanced_steps t).loose_append, ht.1, ih ht.2]
    rfl

theorem mem_exposedAll : d ∈ exposedAll ts ↔ ∃ t ∈ ts, d ∈ exposed t := by
  induction ts with
  | nil => simp [exposedAll]
  | cons t ts ih => simp [exposedAll, ih]

theorem loose_of_exposed (h : ∀ d ∈ exposed t, d.kind ≠ "declaration") :
    loose 0 (steps t) = [] := by
  induction t using Tree.induction_on_children with
  | h t ih =>
    by_cases hscope : isScope t.kind = true
    · exact loose_of_isScope hscope
    · rw [exposed_eq, if_neg hscope, List.forall_mem_cons] at h
      rw [steps, if_neg hscope, if_neg h.1]
      split
      · rfl
      · refine loose_stepsAll fun c hc => ih c hc fun d hd => ?_
        exact h.2 d (mem_exposedAll.mpr ⟨c, hc, hd⟩)

section Parallel

variable {κ : Type} {pairs pairs' news news' : List (Variable × Variable)} {a a' a₁ b b' b₁ : Scoping}

def Same (pairs : List (Variable × Variable)) (v w : Variable) : Prop := v = w ∨ (v, w) ∈ pairs

def Agree (pairs : List (Variable × Variable)) (e e' : κ × Variable) : Prop :=
  e.1 = e'.1 ∧ Same pairs e.2 e'.2

/-- The steps `xs` bind alike in two runs, from `a` to `a'` and from `b` to `b'`, that have already
made the declarations of `pairs` in common; here they make those of `news`. -/
structure Parallel (src : Source) (pairs : List (Variable × Variable)) (xs : List Step)
    (a a' b b' : Scoping) (news : List (Variable × Variable)) : Prop where
  vars : a'.vars = a.vars ++ news.map (·.1) ∧ b'.vars = b.vars ++ news.map (·.2)
  declared : List.Forall₂ (fun e p => Declares src e p.1 ∧ Declares src e p.2)
    (declarations xs) news
  bindings : ∃ bound bound', a'.bindings = bound ++ a.bindings ∧ b'.bindings = bound' ++ b.bindings ∧
    List.Forall₂ (Agree (pairs ++ news)) bound bound'
  scopes : List.Forall₂ (List.Forall₂ (Agree (pairs ++ news))) a'.scopes b'.scopes

theorem Same.mono {v w : Variable} (h : Same pairs v w) (hsub : pairs ⊆ pairs') : Same pairs' v w :=
  h.imp_right fun hmem => hsub hmem

theorem forall₂_agree_mono {l l' : List (κ × Variable)} (h : List.Forall₂ (Agree pairs) l l')
    (hsub : pairs ⊆ pairs') : List.Forall₂ (Agree pairs') l l' :=
  h.imp fun _ _ he => ⟨he.1, he.2.mono hsub⟩

theorem Parallel.trans (h : Parallel src pairs xs a a₁ b b₁ news)
    (h' : Parallel src (pairs ++ news) ys a₁ a' b₁ b' news') :
    Parallel src pairs (xs ++ ys) a a' b b' (news ++ news') where
  vars := by
    rw [h'.vars.1, h'.vars.2, h.vars.1, h.vars.2]
    simp
  declared := by
    rw [declarations, List.filterMap_append]
    exact List.rel_append h.declared h'.declared
  bindings := by
    obtain ⟨bound, bound', hbound, hbound', hagree⟩ := h.bindings
    obtain ⟨more, more', hmore, hmore', hmoreAgree⟩ := h'.bindings
    refine ⟨more ++ bound, more' ++ bound', ?_, ?_, ?_⟩
    · rw [hmore, hbound, List.append_assoc]
    · rw [hmore', hbound', List.append_assoc]
    · rw [← List.append_assoc]
      exact List.rel_append hmoreAgree
        (forall₂_agree_mono hagree (List.subset_append_left _ _))
  scopes := by
    rw [← List.append_assoc]
    exact h'.scopes

theorem lookup_same [BEq κ] {l l' : List (κ × Variable)} (h : List.Forall₂ (Agree pairs) l l')
    (k : κ) : Option.Rel (Same pairs) (l.lookup k) (l'.lookup k) := by
  induction h with
  | nil => exact .none
  | cons he _ ih =>
    rw [List.lookup_cons, List.lookup_cons, he.1]
    split
    · exact .some he.2
    · exact ih

theorem findSome?_same {scopes scopes' : List Scope}
    (h : List.Forall₂ (List.Forall₂ (Agree pairs)) scopes scopes') (name : String) :
    Option.Rel (Same pairs) (scopes.findSome? (·.lookup name))
      (scopes'.findSome? (·.lookup name)) := by
  induction h with
  | nil => exact .none
  | @cons scope scope' _ _ hscope _ ih =>
    have hlookup := lookup_same hscope name
    rw [List.findSome?_cons, List.findSome?_cons]
    generalize scope.lookup name = found at hlookup
    generalize scope'.lookup name = found' at hlookup
    cases hlookup with
    | none => exact ih
    | some hsame => exact .some hsame

theorem bindName_agree {scopes scopes' : List Scope} {v w : Variable}
    (h : List.Forall₂ (List.Forall₂ (Agree pairs)) scopes scopes') (hsame : Same pairs v w)
    (name : String) :
    List.Forall₂ (List.Forall₂ (Agree pairs)) (bindName name v scopes)
      (bindName name w scopes') := by
  cases h with
  | nil => exact .nil
  | cons hscope hrest => exact .cons (.cons ⟨rfl, hsame⟩ hscope) hrest

theorem parallel_declare {i : Tree} {isParameter : Bool}
    (h : List.Forall₂ (List.Forall₂ (Agree pairs)) a.scopes b.scopes)
    (ha : a.declare src i isParameter = .ok a') (hb : b.declare src i isParameter = .ok b') :
    ∃ news, Parallel src pairs [.declare i isParameter] a a' b b' news := by
  obtain ⟨source, hsource, ha⟩ := exists_of_bind_eq_ok ha
  obtain ⟨source', hsource', hb⟩ := exists_of_bind_eq_ok hb
  obtain rfl : source = source' := Except.ok.inj (hsource.symm.trans hsource')
  cases ha
  cases hb
  let v : Variable := ⟨a.freshName source, source, some (src.line i), isParameter⟩
  let w : Variable := ⟨b.freshName source, source, some (src.line i), isParameter⟩
  have hsame : Same (pairs ++ [(v, w)]) v w := .inr (by simp)
  have hscopes : List.Forall₂ (List.Forall₂ (Agree (pairs ++ [(v, w)]))) a.scopes b.scopes :=
    h.imp fun _ _ he => forall₂_agree_mono he (List.subset_append_left _ _)
  exact ⟨[(v, w)], ⟨rfl, rfl⟩, .cons ⟨⟨hsource, rfl, rfl⟩, ⟨hsource, rfl, rfl⟩⟩ .nil,
    ⟨[(i.key, v)], [(i.key, w)], rfl, rfl, .cons ⟨rfl, hsame⟩ .nil⟩,
    bindName_agree hscopes hsame source⟩

theorem parallel_of_vars {x : Step} {bound bound' : List (Tree.Key × Variable)}
    (hx : declarations [x] = []) (hvars : a'.vars = a.vars ∧ b'.vars = b.vars)
    (hbound : a'.bindings = bound ++ a.bindings) (hbound' : b'.bindings = bound' ++ b.bindings)
    (hagree : List.Forall₂ (Agree pairs) bound bound')
    (hscopes : List.Forall₂ (List.Forall₂ (Agree pairs)) a'.scopes b'.scopes) :
    Parallel src pairs [x] a a' b b' [] where
  vars := by simpa using hvars
  declared := hx ▸ .nil
  bindings := ⟨bound, bound', hbound, hbound', by rwa [List.append_nil]⟩
  scopes := by rwa [List.append_nil]

theorem parallel_perform {x : Step}
    (h : List.Forall₂ (List.Forall₂ (Agree pairs)) a.scopes b.scopes)
    (ha : perform src x a = .ok a') (hb : perform src x b = .ok b') :
    ∃ news, Parallel src pairs [x] a a' b b' news := by
  cases x with
  | declare i isParameter => exact parallel_declare h ha hb
  | use o =>
    obtain ⟨name, hname, rfl⟩ := exists_of_resolve ha
    obtain ⟨name', hname', rfl⟩ := exists_of_resolve hb
    obtain rfl : name = name' := Except.ok.inj (hname.symm.trans hname')
    have hbound : List.Forall₂ (Agree pairs) ((a.visible? name).toList.map (o.key, ·))
        ((b.visible? name).toList.map (o.key, ·)) := by
      have hvisible := findSome?_same h name
      unfold visible?
      generalize a.scopes.findSome? (·.lookup name) = found at hvisible
      generalize b.scopes.findSome? (·.lookup name) = found' at hvisible
      cases hvisible with
      | none => exact .nil
      | some hsame => exact .cons ⟨rfl, hsame⟩ .nil
    exact ⟨[], parallel_of_vars rfl ⟨rfl, rfl⟩ rfl rfl hbound h⟩
  | enter n =>
    cases ha
    cases hb
    exact ⟨[], parallel_of_vars rfl ⟨rfl, rfl⟩ rfl rfl .nil (.cons .nil h)⟩
  | leave =>
    cases ha
    cases hb
    refine ⟨[], parallel_of_vars rfl ⟨rfl, rfl⟩ rfl rfl .nil ?_⟩
    simpa only [closeScope, List.drop_one] using List.forall₂_drop 1 h

theorem parallel_performAll (h : List.Forall₂ (List.Forall₂ (Agree pairs)) a.scopes b.scopes)
    (ha : performAll src xs a = .ok a') (hb : performAll src xs b = .ok b') :
    ∃ news, Parallel src pairs xs a a' b b' news := by
  induction xs generalizing pairs a b with
  | nil =>
    cases ha
    cases hb
    refine ⟨[], ⟨by simp, by simp⟩, .nil, ⟨[], [], rfl, rfl, .nil⟩, ?_⟩
    rwa [List.append_nil]
  | cons x xs ih =>
    obtain ⟨a₁, hxa, ha⟩ := exists_of_bind_eq_ok ha
    obtain ⟨b₁, hxb, hb⟩ := exists_of_bind_eq_ok hb
    obtain ⟨news, hstep⟩ := parallel_perform h hxa hxb
    obtain ⟨news', hrest⟩ := ih hstep.scopes ha hb
    exact ⟨news ++ news', hstep.trans hrest⟩

end Parallel

/-- What a node leaves of the open scopes. The innermost one gains what is declared in the node
outside of its scopes, and the others stay as they are. All stay as they are just if nothing is
declared there, as in blocks and `for` loops, and in all other nodes whose declarations stand in
such; the identifiers that come later are then bound as if the node were not there. -/
theorem walk_frame (hopen : s.scopes = scope :: outer) (h : walk src t s = .ok s') :
    (∃ vs, List.Forall₂ (Declares src) (loose 0 (steps t)) vs ∧ (∀ v ∈ vs, v ∈ s'.vars) ∧
      s'.scopes = ((vs.map fun v => (v.sourceName, v)).reverse ++ scope) :: outer) ∧
    (s'.scopes = s.scopes ↔ loose 0 (steps t) = []) ∧
    (t.kind ∈ ["compound_statement", "for_statement", "for_range_loop", "catch_clause"] →
      s'.scopes = s.scopes) ∧
    ((∀ d ∈ exposed t, d.kind ≠ "declaration") → s'.scopes = s.scopes) ∧
    (s'.scopes = s.scopes → ∀ xs r, performAll src xs s' = .ok r →
      ∃ r', performAll src xs s = .ok r' ∧ ∃ news, Parallel src [] xs s' r s r' news) := by
  rw [walk_eq] at h
  obtain ⟨vs, hvs, hmem, hscopes⟩ := (balanced_steps t).exists_scopes hopen h
  have hiff : s'.scopes = s.scopes ↔ loose 0 (steps t) = [] := by
    rw [hscopes, hopen, List.cons.injEq, List.append_left_eq_self, List.reverse_eq_nil_iff,
      List.map_eq_nil_iff, ← List.length_eq_zero_iff, ← hvs.length_eq, List.length_eq_zero_iff]
    exact and_iff_left rfl
  refine ⟨⟨vs, hvs, hmem, hscopes⟩, hiff, fun hkind => ?_, fun hexposed => ?_, ?_⟩
  · exact hiff.mpr (loose_of_isScope (by simpa [isScope, or_assoc] using hkind))
  · exact hiff.mpr (loose_of_exposed hexposed)
  · intro heq xs r hr
    obtain ⟨r', hr'⟩ := exists_performAll_iff.mpr (exists_performAll_iff.mp ⟨r, hr⟩)
    refine ⟨r', hr', parallel_performAll ?_ hr hr'⟩
    rw [heq]
    exact List.forall₂_same.mpr fun _ _ => List.forall₂_same.mpr fun _ _ => ⟨rfl, .inl rfl⟩

def guarded : Tree := ⟨true, "while_statement", "", 11, 31, [
  ⟨true, "condition_clause", "condition", 17, 20, [⟨true, "identifier", "value", 18, 19, []⟩]⟩,
  ⟨true, "compound_statement", "body", 21, 31, [
    ⟨true, "declaration", "", 23, 29, [⟨true, "identifier", "declarator", 27, 28, []⟩]⟩]⟩]⟩

def conditional : Tree := ⟨true, "if_statement", "", 32, 50, [
  ⟨true, "condition_clause", "condition", 35, 46, [
    ⟨true, "declaration", "value", 36, 45, [⟨true, "identifier", "declarator", 40, 41, []⟩,
      ⟨true, "number_literal", "value", 44, 45, []⟩]⟩]⟩,
  ⟨true, "compound_statement", "consequence", 47, 50, []⟩]⟩

def behindCondition : Tree := ⟨true, "identifier", "", 51, 52, []⟩

def headed : Source where
  bytes := "f(int x) \x7b while (x) \x7b int x; \x7d if (int x = 1) \x7b \x7d x; \x7d".toUTF8
  root := ⟨true, "function_definition", "", 0, 55, [
    ⟨true, "function_declarator", "declarator", 0, 8, [
      ⟨true, "parameter_list", "parameters", 1, 8, [
        ⟨true, "parameter_declaration", "", 2, 7, [parameter]⟩]⟩]⟩,
    ⟨true, "compound_statement", "body", 9, 55, [guarded, conditional,
      ⟨true, "expression_statement", "", 51, 53, [behindCondition]⟩]⟩]⟩
  damaged := false

def entered : Scoping where
  suffix := "#"
  vars := [⟨"x", "x", some 1, true⟩]
  bindings := [(parameter.key, ⟨"x", "x", some 1, true⟩)]
  scopes := [[], [("x", ⟨"x", "x", some 1, true⟩)]]

set_option maxRecDepth 10000 in
theorem walk_frame_guarded : ∃ s', entered.scopes = [] :: [[("x", ⟨"x", "x", some 1, true⟩)]] ∧
    walk headed guarded entered = .ok s' ∧ (∀ d ∈ exposed guarded, d.kind ≠ "declaration") ∧
    s'.vars ≠ entered.vars ∧ s'.scopes = entered.scopes := by
  have hok : (walk headed guarded entered).toOption.any (·.vars ≠ entered.vars) = true := by
    decide +kernel
  obtain ⟨s', hs', hvars⟩ := exists_of_any hok
  have hexposed : ∀ d ∈ exposed guarded, d.kind ≠ "declaration" := by decide +kernel
  exact ⟨s', rfl, hs', hexposed, of_decide_eq_true hvars,
    (walk_frame rfl hs').2.2.2.1 hexposed⟩

set_option maxRecDepth 10000 in
/-- A declaration in a condition stays behind its statement, and takes the place of the
parameter. -/
theorem condition_leaks :
    (∃ s', walk headed conditional entered = .ok s' ∧ s'.scopes ≠ entered.scopes) ∧
    ∃ s, ofFunction headed "#" headed.root = .ok s ∧
      s.lookup behindCondition = some ⟨"x#2", "x", some 1, false⟩ := by
  constructor
  · have hleaks : (walk headed conditional entered).toOption.any (·.scopes ≠ entered.scopes) =
      true := by decide +kernel
    obtain ⟨s', hs', hscopes⟩ := exists_of_any hleaks
    exact ⟨s', hs', of_decide_eq_true hscopes⟩
  · have hbound : (ofFunction headed "#" headed.root).toOption.any
      (·.lookup behindCondition = some ⟨"x#2", "x", some 1, false⟩) = true := by decide +kernel
    obtain ⟨s, hs, hlookup⟩ := exists_of_any hbound
    exact ⟨s, hs, of_decide_eq_true hlookup⟩

end Backslice.Scoping

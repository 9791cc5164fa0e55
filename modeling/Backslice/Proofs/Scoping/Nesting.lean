import Backslice.Proofs.Scoping

/-!
The steps of a walk follow the nesting of the scopes in the tree. Where all identifiers stand at
different places, every scope that is open at an identifier lies around it, every declaration is
made in the innermost scope around it, and a scope that was closed lies around nothing that comes
later.
-/

namespace Backslice.Scoping

open Backslice.Tree

def IsScopeIn (function n : Tree) : Prop :=
  n = function ∨ n ∈ function.nodes ∧ isScope n.kind = true

/-- The scope that a declaration belongs to, which for a parameter is the function. -/
inductive Home (function ident : Tree) : Bool → Tree → Prop
  | parameter : Home function ident true function
  | innermost {n : Tree} : IsScopeIn function n → ident ∈ n.nodes →
      (∀ m, IsScopeIn function m → ident ∈ m.nodes → n ∈ m.nodes) → Home function ident false n

variable {function t c d i o n m : Tree} {ts us : List Tree} {xs ys : List Step}

theorem Home.unique {isParameter : Bool} (h : Home function i isParameter n)
    (h' : Home function i isParameter m) : n = m := by
  cases h with
  | parameter =>
    cases h'
    rfl
  | innermost hn hin hleast =>
    cases h' with
    | innermost hm him hleast' =>
      exact mem_nodes_antisymm (hleast m hm him) (hleast' n hn hin)

structure Binder where
  ident : Tree
  isParameter : Bool
  home : Tree

structure Stand where
  opened : List Tree
  made : List Binder := []

namespace Stand

def next (p : Stand) : Step → Stand
  | .declare i isParameter => { p with made := p.made ++ [⟨i, isParameter, p.opened.headD i⟩] }
  | .use _ => p
  | .enter n => { p with opened := n :: p.opened }
  | .leave => { p with opened := p.opened.tail }

def run (p : Stand) (xs : List Step) : Stand := xs.foldl next p

variable {p : Stand}

@[simp] theorem run_nil : p.run [] = p := rfl

@[simp] theorem run_cons (x : Step) : p.run (x :: xs) = (p.next x).run xs := rfl

@[simp] theorem run_append : p.run (xs ++ ys) = (p.run xs).run ys := List.foldl_append

def Allows (function : Tree) (p : Stand) : Step → Prop
  | .declare i isParameter =>
    i.kind = "identifier" ∧ ∃ n ∈ p.opened.head?, Home function i isParameter n
  | .use o => (∀ n ∈ p.opened, o ∈ n.nodes) ∧ ∀ s ∈ p.made, o ∈ s.home.nodes → s.home ∈ p.opened
  | .enter n =>
    IsScopeIn function n ∧ (∀ m ∈ p.opened, n ∈ m.nodes ∧ n ≠ m) ∧ ∀ s ∈ p.made, s.home ≠ n
  | .leave => function ∈ p.opened.tail

def Proper (function : Tree) : Stand → List Step → Prop
  | _, [] => True
  | p, x :: xs => p.Allows function x ∧ Proper function (p.next x) xs

theorem proper_append : Proper function p (xs ++ ys) ↔
    Proper function p xs ∧ Proper function (p.run xs) ys := by
  induction xs generalizing p with
  | nil => simp [Proper]
  | cons x xs ih => simp only [List.cons_append, Proper, ih, run_cons, and_assoc]

structure Nested (function : Tree) (p : Stand) : Prop where
  bottom : function ∈ p.opened
  scope : ∀ n ∈ p.opened, IsScopeIn function n
  chain : p.opened.Pairwise fun n m => n ∈ m.nodes ∧ n ≠ m
  home : ∀ s ∈ p.made, s.ident.kind = "identifier" ∧ Home function s.ident s.isParameter s.home

theorem nested_start (function : Tree) : Nested function { opened := [function] } where
  bottom := List.mem_singleton_self function
  scope n hn := .inl (List.mem_singleton.mp hn)
  chain := List.pairwise_singleton ..
  home := by simp

theorem Nested.next {x : Step} (h : Nested function p) (hx : p.Allows function x) :
    Nested function (p.next x) := by
  cases x with
  | declare i isParameter =>
    obtain ⟨hkind, n, hn, hhome⟩ := hx
    refine ⟨h.bottom, h.scope, h.chain, fun s hs => ?_⟩
    rcases List.mem_append.mp hs with hs | hs
    · exact h.home s hs
    · rw [List.mem_singleton] at hs
      subst hs
      rw [List.headD_eq_head?_getD, Option.mem_def.mp hn]
      exact ⟨hkind, hhome⟩
  | use o => exact h
  | enter n =>
    obtain ⟨hscope, hinside, _⟩ := hx
    exact ⟨List.mem_cons_of_mem _ h.bottom, List.forall_mem_cons.mpr ⟨hscope, h.scope⟩,
      List.pairwise_cons.mpr ⟨hinside, h.chain⟩, h.home⟩
  | leave =>
    exact ⟨hx, fun n hn => h.scope n (List.mem_of_mem_tail hn), h.chain.tail, h.home⟩

theorem Nested.run (h : Nested function p) (hxs : Proper function p xs) :
    Nested function (p.run xs) := by
  induction xs generalizing p with
  | nil => exact h
  | cons x xs ih => exact ih (h.next hxs.1) hxs.2

/-- The walk is about to come to a node. Every scope around an identifier of the node is open or
lies in the node. -/
structure Before (function : Tree) (p : Stand) (t : Tree) : Prop extends Nested function p where
  inside : ∀ n ∈ p.opened, t ∈ n.nodes ∧ t ≠ n
  past : ∀ s ∈ p.made, ∀ o ∈ t.identifiers, o ∈ s.home.nodes → s.home ∈ p.opened
  around : ∀ m, IsScopeIn function m → ∀ i ∈ t.identifiers, i ∈ m.nodes →
    m ∈ p.opened ∨ m ∈ t.nodes
  distinct : t.Distinct

theorem Before.mem_nodes (h : Before function p t) (ho : o ∈ t.identifiers) :
    ∀ n ∈ p.opened, o ∈ n.nodes :=
  fun n hn => mem_nodes_trans (mem_identifiers.mp ho).1 (h.inside n hn).1

theorem Before.ne_function (h : Before function p t) : t ≠ function :=
  (h.inside function h.bottom).2

theorem inside_child (ht : t ∈ n.nodes) (hc : c ∈ t.children) : c ∈ n.nodes ∧ c ≠ n := by
  refine ⟨mem_nodes_trans (mem_nodes_of_child hc (self_mem_nodes c)) ht, ?_⟩
  rintro rfl
  exact ne_of_mem_nodes_child hc ht rfl

theorem Before.around_child (h : Before function p t) (hc : c ∈ t.children)
    (hm : IsScopeIn function m) (hi : i ∈ c.identifiers) (him : i ∈ m.nodes) :
    m ∈ p.opened ∨ m = t ∨ m ∈ c.nodes := by
  refine (h.around m hm i (mem_identifiers_of_child hc hi) him).imp_right ?_
  exact h.distinct.mem_child hc hi him

theorem Before.child (h : Before function p t) (ht : isScope t.kind = false)
    (hc : c ∈ t.children) : Before function p c where
  toNested := h.toNested
  inside n hn := inside_child (h.inside n hn).1 hc
  past s hs o ho := h.past s hs o (mem_identifiers_of_child hc ho)
  around m hm i hi him := by
    rcases h.around_child hc hm hi him with hopen | rfl | hmem
    · exact .inl hopen
    · rcases hm with rfl | ⟨_, hscope⟩
      · exact absurd rfl h.ne_function
      · rw [ht] at hscope
        cases hscope
    · exact .inr hmem
  distinct := h.distinct.child hc

theorem Before.allows_enter (h : Before function p t) (ht : isScope t.kind = true) :
    p.Allows function (.enter t) := by
  refine ⟨.inr ⟨(h.inside function h.bottom).1, ht⟩, h.inside, fun s hs heq => ?_⟩
  obtain ⟨hkind, hhome⟩ := h.home s hs
  generalize s.isParameter = isParameter at hhome
  cases hhome with
  | parameter => exact h.ne_function heq.symm
  | innermost _ hmem _ =>
    -- an identifier declared in this scope would come again
    have hident : s.ident ∈ t.identifiers := mem_identifiers.mpr ⟨heq ▸ hmem, hkind⟩
    have hopen := h.past s hs s.ident hident hmem
    rw [heq] at hopen
    exact (h.inside t hopen).2 rfl

theorem Before.enter (h : Before function p t) (ht : isScope t.kind = true)
    (hc : c ∈ t.children) : Before function (p.next (.enter t)) c where
  toNested := h.toNested.next (h.allows_enter ht)
  inside n hn := by
    rcases List.mem_cons.mp hn with rfl | hn
    · exact inside_child (self_mem_nodes n) hc
    · exact inside_child (h.inside n hn).1 hc
  past s hs o ho hmem :=
    List.mem_cons_of_mem _ (h.past s hs o (mem_identifiers_of_child hc ho) hmem)
  around m hm i hi him := by
    rcases h.around_child hc hm hi him with hopen | rfl | hmem
    · exact .inl (List.mem_cons_of_mem _ hopen)
    · exact .inl (List.mem_cons_self ..)
    · exact .inr hmem
  distinct := h.distinct.child hc

def idents (xs : List Step) : List Tree :=
  xs.filterMap fun
    | .declare i _ => some i
    | .use o => some o
    | _ => none

@[simp] theorem idents_append : idents (xs ++ ys) = idents xs ++ idents ys :=
  List.filterMap_append

/-- Steps that go through the nodes `ts`: they close what they open, declare in an open scope or in
one of these nodes, and come to no identifier twice. -/
structure Passes (function : Tree) (p : Stand) (ts : List Tree) (xs : List Step) : Prop where
  proper : Proper function p xs
  opened : (p.run xs).opened = p.opened
  made : ∀ s ∈ (p.run xs).made, s ∈ p.made ∨ s.home ∈ p.opened ∨ ∃ t ∈ ts, s.home ∈ t.nodes
  idents : ∀ o ∈ idents xs, ∃ t ∈ ts, o ∈ t.identifiers
  nodup : ((Stand.idents xs).map span).Nodup

theorem passes_nil (function : Tree) (p : Stand) : Passes function p [] [] where
  proper := trivial
  opened := rfl
  made s hs := .inl hs
  idents := by simp [Stand.idents]
  nodup := by simp [Stand.idents]

theorem Passes.mono (h : Passes function p ts xs) (hsub : ∀ t ∈ ts, ∃ u ∈ us, t ∈ u.nodes) :
    Passes function p us xs where
  proper := h.proper
  opened := h.opened
  made s hs := by
    rcases h.made s hs with hs | hs | ⟨t, ht, hs⟩
    · exact .inl hs
    · exact .inr (.inl hs)
    · obtain ⟨u, hu, htu⟩ := hsub t ht
      exact .inr (.inr ⟨u, hu, mem_nodes_trans hs htu⟩)
  idents o ho := by
    obtain ⟨t, ht, hot⟩ := h.idents o ho
    obtain ⟨u, hu, htu⟩ := hsub t ht
    rw [mem_identifiers] at hot
    exact ⟨u, hu, mem_identifiers.mpr ⟨mem_nodes_trans hot.1 htu, hot.2⟩⟩
  nodup := h.nodup

theorem Passes.append (h₁ : Passes function p ts xs) (h₂ : Passes function (p.run xs) us ys)
    (hapart : ∀ t ∈ ts, ∀ u ∈ us, Apart t u) : Passes function p (ts ++ us) (xs ++ ys) where
  proper := proper_append.mpr ⟨h₁.proper, h₂.proper⟩
  opened := by rw [run_append, h₂.opened, h₁.opened]
  made s hs := by
    rw [run_append] at hs
    rcases h₂.made s hs with hs | hs | ⟨u, hu, hs⟩
    · rcases h₁.made s hs with hs | hs | ⟨t, ht, hs⟩
      · exact .inl hs
      · exact .inr (.inl hs)
      · exact .inr (.inr ⟨t, List.mem_append_left _ ht, hs⟩)
    · rw [h₁.opened] at hs
      exact .inr (.inl hs)
    · exact .inr (.inr ⟨u, List.mem_append_right _ hu, hs⟩)
  idents o ho := by
    rw [idents_append, List.mem_append] at ho
    rcases ho with ho | ho
    · obtain ⟨t, ht, ho⟩ := h₁.idents o ho
      exact ⟨t, List.mem_append_left _ ht, ho⟩
    · obtain ⟨u, hu, ho⟩ := h₂.idents o ho
      exact ⟨u, List.mem_append_right _ hu, ho⟩
  nodup := by
    rw [idents_append, List.map_append]
    refine h₁.nodup.append h₂.nodup fun place hx hy => ?_
    obtain ⟨o, ho, rfl⟩ := List.mem_map.mp hx
    obtain ⟨o', ho', hspan⟩ := List.mem_map.mp hy
    obtain ⟨t, ht, hot⟩ := h₁.idents o ho
    obtain ⟨u, hu, hou⟩ := h₂.idents o' ho'
    exact hapart t ht u hu o hot o' hou hspan.symm

theorem Before.later (h : Before function p c) (hp : Passes function p ts xs)
    (hapart : ∀ t ∈ ts, Apart t c) : Before function (p.run xs) c where
  toNested := h.toNested.run hp.proper
  inside n hn := h.inside n (hp.opened ▸ hn)
  past s hs o ho hmem := by
    rw [hp.opened]
    rcases hp.made s hs with hs | hs | ⟨t, ht, hs⟩
    · exact h.past s hs o ho hmem
    · exact hs
    · have hot : o ∈ t.identifiers :=
        mem_identifiers.mpr ⟨mem_nodes_trans hmem hs, (mem_identifiers.mp ho).2⟩
      exact absurd rfl (hapart t ht o hot o ho)
  around m hm i hi him := by
    rw [hp.opened]
    exact h.around m hm i hi him
  distinct := h.distinct

theorem Before.passes_scope (h : Before function p t) (ht : isScope t.kind = true)
    (hp : Passes function (p.next (.enter t)) t.children xs) :
    Passes function p [t] (.enter t :: (xs ++ [.leave])) where
  proper := by
    refine ⟨h.allows_enter ht, proper_append.mpr ⟨hp.proper, ?_, trivial⟩⟩
    rw [Allows, hp.opened]
    exact h.bottom
  opened := by
    rw [run_cons, run_append]
    exact congrArg List.tail hp.opened
  made s hs := by
    rw [run_cons, run_append] at hs
    rcases hp.made s hs with hs | hs | ⟨c, hc, hs⟩
    · exact .inl hs
    · rcases List.mem_cons.mp hs with hs | hs
      · exact .inr (.inr ⟨t, List.mem_singleton_self t, hs ▸ self_mem_nodes t⟩)
      · exact .inr (.inl hs)
    · exact .inr (.inr ⟨t, List.mem_singleton_self t, mem_nodes_of_child hc hs⟩)
  idents o ho := by
    rw [← List.singleton_append, idents_append, idents_append] at ho
    obtain ⟨c, hc, ho⟩ := hp.idents o (by simpa [Stand.idents] using ho)
    exact ⟨t, List.mem_singleton_self t, mem_identifiers_of_child hc ho⟩
  nodup := by
    rw [← List.singleton_append, idents_append, idents_append]
    simpa [Stand.idents] using hp.nodup

theorem Before.passes_uses (h : Before function p t)
    (hxs : ∀ x ∈ xs, ∃ o ∈ t.identifiers, x = .use o)
    (hnodup : ((idents xs).map span).Nodup) : Passes function p [t] xs := by
  have hrun : p.run xs = p ∧ Proper function p xs := by
    clear hnodup
    induction xs with
    | nil => exact ⟨rfl, trivial⟩
    | cons x xs ih =>
      rw [List.forall_mem_cons] at hxs
      obtain ⟨⟨o, ho, rfl⟩, hxs⟩ := hxs
      obtain ⟨hrun, hproper⟩ := ih hxs
      exact ⟨hrun, ⟨h.mem_nodes ho, fun s hs => h.past s hs o ho⟩, hproper⟩
  refine ⟨hrun.2, by rw [hrun.1], fun s hs => .inl (hrun.1 ▸ hs), fun o ho => ?_, hnodup⟩
  obtain ⟨x, hx, hxo⟩ := List.mem_filterMap.mp ho
  obtain ⟨o', ho', rfl⟩ := hxs x hx
  cases hxo
  exact ⟨t, List.mem_singleton_self t, ho'⟩

theorem isScope_eq_false_of_declarator {kind : String} (h : kind = "identifier" ∨
    isWrappingDeclarator kind = true ∨ kind = "parenthesized_declarator") :
    isScope kind = false := by
  simp only [isWrappingDeclarator, Bool.or_eq_true, beq_iff_eq] at h
  rcases h with rfl | ((((rfl | rfl) | rfl) | rfl) | rfl) | rfl <;> decide

theorem Before.allows_declare (h : Before function p d) (hi : d.declared? = some i) :
    p.Allows function (.declare i false) := by
  obtain ⟨hmem, hkind⟩ := declared?_mem hi
  have hident : i ∈ d.identifiers := mem_identifiers.mpr ⟨hmem, hkind⟩
  obtain ⟨n, rest, hopened⟩ := List.exists_cons_of_ne_nil (List.ne_nil_of_mem h.bottom)
  have hn : n ∈ p.opened := hopened ▸ List.mem_cons_self ..
  have houter : ∀ m ∈ p.opened, n ∈ m.nodes := by
    have hchain := h.chain
    rw [hopened, List.pairwise_cons] at hchain
    intro m hm
    rcases List.mem_cons.mp (hopened ▸ hm) with rfl | hm
    · exact self_mem_nodes m
    · exact (hchain.1 m hm).1
  refine ⟨hkind, n, by rw [hopened]; rfl, .innermost (h.scope n hn) (h.mem_nodes hident n hn) ?_⟩
  intro m hm him
  rcases h.around m hm i hident him with hopen | hmd
  · exact houter m hopen
  -- between a declarator and what it declares are declarators, which open no scope
  · rcases hm with rfl | ⟨_, hscope⟩
    · exact houter m h.bottom
    · rw [isScope_eq_false_of_declarator (h.distinct.kind_of_declared hi hmd him)] at hscope
      cases hscope

theorem Before.made_declare (h : Before function p t) {e : Binder}
    (hs : e ∈ (p.next (.declare i false)).made) : e ∈ p.made ∨ e.home ∈ p.opened := by
  rcases List.mem_append.mp hs with hs | hs
  · exact .inl hs
  · right
    rw [List.mem_singleton.mp hs]
    obtain ⟨n, rest, hopened⟩ := List.exists_cons_of_ne_nil (List.ne_nil_of_mem h.bottom)
    rw [hopened]
    exact List.mem_cons_self ..

theorem Before.declared (h : Before function p d) (hi : d.declared? = some i) :
    Before function (p.next (.declare i false)) d where
  toNested := h.toNested.next (h.allows_declare hi)
  inside := h.inside
  past s hs o ho hmem := by
    rcases h.made_declare hs with hs | hs
    · exact h.past s hs o ho hmem
    · exact hs
  around := h.around
  distinct := h.distinct

theorem Before.passes_declare (h : Before function p d) (hi : d.declared? = some i)
    (hp : Passes function (p.next (.declare i false)) [d] xs)
    (hne : ∀ o ∈ idents xs, o.span ≠ i.span) : Passes function p [d] (.declare i false :: xs) where
  proper := ⟨h.allows_declare hi, hp.proper⟩
  opened := hp.opened
  made s hs := by
    rcases hp.made s hs with hs | hs | hs
    · exact (h.made_declare hs).imp_right .inl
    · exact .inr (.inl hs)
    · exact .inr (.inr hs)
  idents o ho := by
    rcases List.mem_cons.mp ho with rfl | ho
    · exact ⟨d, List.mem_singleton_self d, mem_identifiers.mpr (declared?_mem hi)⟩
    · exact hp.idents o ho
  nodup := by
    refine List.nodup_cons.mpr ⟨fun hmem => ?_, hp.nodup⟩
    obtain ⟨o, ho, hspan⟩ := List.mem_map.mp hmem
    exact hne o ho hspan

end Stand

section Around

variable {skipped : Tree.Key}

mutual

theorem uses_stepsAround : ∀ (t : Tree) (x : Step), x ∈ stepsAround skipped t →
    ∃ o ∈ t.identifiers, x = .use o ∧ o.key ≠ skipped
  | ⟨named, kind, field, start, stop, children⟩, x, hx => by
    rw [stepsAround] at hx
    split at hx
    · cases hx
    · rename_i hskip
      split at hx
      · rename_i hkind
        refine ⟨_, mem_identifiers.mpr ⟨self_mem_nodes _, hkind⟩, List.mem_singleton.mp hx, ?_⟩
        exact fun hkey => hskip (.inl hkey)
      · obtain ⟨c, hc, o, ho, hxo⟩ := uses_stepsAroundAll children x hx
        exact ⟨o, mem_identifiers_of_child hc ho, hxo⟩

theorem uses_stepsAroundAll : ∀ (ts : List Tree) (x : Step), x ∈ stepsAroundAll skipped ts →
    ∃ t ∈ ts, ∃ o ∈ t.identifiers, x = .use o ∧ o.key ≠ skipped
  | [], x, hx => by cases hx
  | t :: ts, x, hx => by
    rw [stepsAroundAll] at hx
    rcases List.mem_append.mp hx with hx | hx
    · exact ⟨t, List.mem_cons_self .., uses_stepsAround t x hx⟩
    · obtain ⟨t', ht', ho⟩ := uses_stepsAroundAll ts x hx
      exact ⟨t', List.mem_cons_of_mem _ ht', ho⟩

end

open Stand (idents idents_append)

mutual

theorem idents_stepsAround : ∀ t : Tree,
    (idents (stepsAround skipped t)).Sublist t.identifiers
  | ⟨named, kind, field, start, stop, children⟩ => by
    rw [stepsAround, identifiers, nodes]
    split
    · exact List.nil_sublist _
    · split
      · rename_i hkind
        rw [List.filter_cons_of_pos (by simpa using hkind)]
        exact List.Sublist.cons_cons _ (List.nil_sublist _)
      · rename_i hkind
        rw [List.filter_cons_of_neg (by simpa using hkind)]
        exact idents_stepsAroundAll children

theorem idents_stepsAroundAll : ∀ ts : List Tree,
    (idents (stepsAroundAll skipped ts)).Sublist ((nodesOf ts).filter (·.kind = "identifier"))
  | [] => List.nil_sublist _
  | t :: ts => by
    rw [stepsAroundAll, nodesOf, idents_append, List.filter_append]
    exact (idents_stepsAround t).append (idents_stepsAroundAll ts)

end

end Around

namespace Stand

variable {p : Stand}

theorem Before.passes_around (h : Before function p t) (skipped : Tree.Key) :
    Passes function p [t] (stepsAround skipped t) := by
  refine h.passes_uses (fun x hx => ?_) (h.distinct.sublist ((idents_stepsAround t).map span))
  obtain ⟨o, ho, hx, _⟩ := uses_stepsAround t x hx
  exact ⟨o, ho, hx⟩

theorem Before.passes_target (h : Before function p d) (hi : d.declared? = some i) :
    Passes function p [d] (.declare i false :: stepsAround i.key d) := by
  refine h.passes_declare hi ((h.declared hi).passes_around i.key) fun o ho hspan => ?_
  obtain ⟨x, hx, hxo⟩ := List.mem_filterMap.mp ho
  obtain ⟨o', ho', rfl, hkey⟩ := uses_stepsAround d x hx
  obtain rfl : o' = o := Option.some.inj hxo
  refine hkey ?_
  rw [key, key, (mem_identifiers.mp ho').2, (declared?_mem hi).2]
  rw [span, span, Prod.mk.injEq] at hspan
  rw [hspan.1, hspan.2]

def Through (function t : Tree) : Prop :=
  ∀ p : Stand, Before function p t → Passes function p [t] (steps t)

theorem passes_stepsAll (ht : ∀ t ∈ ts, Through function t) (hb : ∀ t ∈ ts, Before function p t)
    (hapart : ts.Pairwise Apart) : Passes function p ts (stepsAll ts) := by
  induction ts generalizing p with
  | nil =>
    rw [stepsAll]
    exact passes_nil function p
  | cons t ts ih =>
    rw [List.forall_mem_cons] at ht hb
    rw [List.pairwise_cons] at hapart
    rw [stepsAll]
    have hfirst := ht.1 p hb.1
    have hlater : ∀ t' ∈ ts, Before function (p.run (steps t)) t' := fun t' ht' =>
      (hb.2 t' ht').later hfirst (by simpa using hapart.1 t' ht')
    exact hfirst.append (ih ht.2 hlater hapart.2) (by simpa using hapart.1)

theorem passes_part (ht : ∀ c ∈ t.children, Through function c) {field : String}
    (hb : ∀ c ∈ t.child? field, Before function p c) :
    Passes function p (t.child? field).toList (stepsOf (t.child? field)) := by
  cases hc : t.child? field with
  | none => exact passes_nil function p
  | some c => exact ht c (mem_children_of_child? hc) p (hb c hc)

theorem apart_parts (ht : t.Distinct) {f f' : String} (hne : f ≠ f') :
    ∀ c ∈ (t.child? f).toList, ∀ c' ∈ (t.child? f').toList, Apart c c' := by
  intro c hc c' hc'
  rw [Option.mem_toList] at hc hc'
  exact ht.apart_of_field hc hc' hne

theorem passes_stepsRangeLoop (ht : ∀ c ∈ t.children, Through function c)
    (hb : ∀ c ∈ t.children, Before function p c) (hdistinct : t.Distinct) :
    Passes function p t.children (stepsRangeLoop t) := by
  have hbefore : ∀ field, ∀ c ∈ t.child? field, Before function p c :=
    fun field c hc => hb c (mem_children_of_child? hc)
  have hright := passes_part ht (hbefore "right")
  have hafter : ∀ field, "right" ≠ field → ∀ c ∈ t.child? field,
      Before function (p.run (stepsOf (t.child? "right"))) c := fun field hne c hc =>
    (hbefore field c hc).later hright fun b hb =>
      apart_parts hdistinct hne b hb c (Option.mem_toList.mpr hc)
  have hdeclared : Passes function (p.run (stepsOf (t.child? "right")))
      (t.child? "declarator").toList
      (((t.child? "declarator").bind (·.declared?)).toList.map (.declare · false)) := by
    cases hd : t.child? "declarator" with
    | none => exact passes_nil _ _
    | some d =>
      cases hi : d.declared? with
      | none =>
        rw [Option.bind_some, hi]
        exact (passes_nil _ _).mono (by simp)
      | some i =>
        rw [Option.bind_some, hi]
        have hd := hafter "declarator" (by decide) d hd
        exact hd.passes_declare hi ((passes_nil _ _).mono (by simp)) (by simp [idents])
  have hbody := passes_part ht fun c hc =>
    (hafter "body" (by decide) c hc).later hdeclared fun b hb =>
      apart_parts hdistinct (by decide) b hb c (Option.mem_toList.mpr hc)
  rw [stepsRangeLoop_eq]
  refine (hright.append (hdeclared.append hbody (apart_parts hdistinct (by decide))) ?_).mono ?_
  · intro b hb c hc
    rcases List.mem_append.mp hc with hc | hc
    · exact apart_parts hdistinct (by decide) b hb c hc
    · exact apart_parts hdistinct (by decide) b hb c hc
  · intro c hc
    refine ⟨c, ?_, self_mem_nodes c⟩
    simp only [List.mem_append, Option.mem_toList] at hc
    rcases hc with hc | hc | hc <;> exact mem_children_of_child? hc

theorem passes_stepsDeclarator (hd : Through function d) (hc : ∀ c ∈ d.children, Through function c)
    (hb : Before function p d) : Passes function p [d] (stepsDeclarator d) := by
  cases htarget : target? d with
  | none =>
    rw [stepsDeclarator_eq_of_none (by rw [htarget]; rfl)]
    exact hd p hb
  | some target =>
    cases hi : target.declared? with
    | none =>
      rw [stepsDeclarator_eq_of_none (by rw [htarget]; exact hi)]
      exact hd p hb
    | some i =>
      rw [stepsDeclarator_eq_of_declared htarget hi, ← List.cons_append]
      unfold target? at htarget
      unfold value?
      split at htarget
      · rename_i hkind
        have hchild : ∀ field, ∀ c ∈ d.child? field, Before function p c := fun field c hc =>
          hb.child (by rw [hkind]; decide) (mem_children_of_child? hc)
        rw [if_pos hkind]
        have hfirst := (hchild "declarator" target htarget).passes_target hi
        have hapart : ∀ b ∈ [target], ∀ c ∈ (d.child? "value").toList, Apart b c := by
          have := apart_parts hb.distinct (show "declarator" ≠ "value" by decide)
          rwa [htarget] at this
        have hvalue := passes_part hc fun c hc => (hchild "value" c hc).later hfirst fun b hb =>
          hapart b hb c (Option.mem_toList.mpr hc)
        refine (hfirst.append hvalue hapart).mono fun c hc => ⟨d, List.mem_singleton_self d, ?_⟩
        refine mem_nodes_of_child ?_ (self_mem_nodes c)
        rcases List.mem_append.mp hc with hc | hc
        · rw [List.mem_singleton.mp hc]
          exact mem_children_of_child? htarget
        · exact mem_children_of_child? (Option.mem_toList.mp hc)
      · rename_i hkind
        rw [if_neg hkind]
        obtain rfl := Option.some.inj htarget
        rw [stepsOf, Option.elim_none, List.append_nil]
        exact hb.passes_target hi

theorem passes_stepsDeclarators
    (ht : ∀ d ∈ ts, Through function d ∧ ∀ c ∈ d.children, Through function c)
    (hb : ∀ d ∈ ts, Before function p d) (hapart : ts.Pairwise Apart) :
    Passes function p ts (stepsDeclarators ts) := by
  induction ts generalizing p with
  | nil =>
    rw [stepsDeclarators]
    exact passes_nil function p
  | cons d ts ih =>
    rw [List.forall_mem_cons] at ht hb
    rw [List.pairwise_cons] at hapart
    rw [stepsDeclarators]
    split
    · refine (ih ht.2 hb.2 hapart.2).mono fun t' ht' => ?_
      exact ⟨t', List.mem_cons_of_mem _ ht', self_mem_nodes t'⟩
    · have hfirst := passes_stepsDeclarator ht.1.1 ht.1.2 hb.1
      have hlater : ∀ t' ∈ ts, Before function (p.run (stepsDeclarator d)) t' := fun t' ht' =>
        (hb.2 t' ht').later hfirst (by simpa using hapart.1 t' ht')
      exact hfirst.append (ih ht.2 hlater hapart.2) (by simpa using hapart.1)

theorem through (function t : Tree) : Through function t := by
  induction hn : sizeOf t using Nat.strongRecOn generalizing t with
  | ind n ih =>
  subst hn
  have ht : ∀ c ∈ t.children, Through function c :=
    fun c hc => ih _ (sizeOf_lt_of_mem hc) c rfl
  intro p hb
  have hwhole : ∀ xs, Passes function p t.children xs → Passes function p [t] xs := fun xs hp =>
    hp.mono fun c hc => ⟨t, List.mem_singleton_self t, mem_nodes_of_child hc (self_mem_nodes c)⟩
  have hapart := hb.distinct.children.2
  rw [steps]
  split
  · rename_i hscope
    have hinner : ∀ c ∈ t.children, Before function (p.next (.enter t)) c :=
      fun c hc => hb.enter hscope hc
    refine hb.passes_scope hscope ?_
    split
    · exact passes_stepsRangeLoop ht hinner hb.distinct
    · exact passes_stepsAll ht hinner hapart
  · rename_i hscope
    have hinner : ∀ c ∈ t.children, Before function p c :=
      fun c hc => hb.child (by simpa using hscope) hc
    split
    · refine hwhole _
        (passes_stepsDeclarators (fun d hd => ⟨ht d hd, fun c hc => ?_⟩) hinner hapart)
      exact ih _ (Nat.lt_trans (sizeOf_lt_of_mem hc) (sizeOf_lt_of_mem hd)) c rfl
    · split
      · rename_i hkind
        have hself : t ∈ t.identifiers := mem_identifiers.mpr ⟨self_mem_nodes t, hkind⟩
        refine hb.passes_uses (fun x hx => ⟨t, hself, List.mem_singleton.mp hx⟩) ?_
        exact List.nodup_singleton _
      · exact hwhole _ (passes_stepsAll ht hinner hapart)

theorem before_start (h : function.Distinct) (hc : c ∈ function.children) :
    Before function { opened := [function] } c where
  toNested := nested_start function
  inside n hn := by
    rw [List.mem_singleton.mp hn]
    exact inside_child (self_mem_nodes function) hc
  past := by simp
  around m hm i hi him := by
    rcases hm with rfl | ⟨hmem, _⟩
    · exact .inl (List.mem_singleton_self m)
    · refine (h.mem_child hc hi him hmem).imp_left ?_
      exact List.mem_singleton.mpr
  distinct := h.child hc

end Stand

theorem parameterIdents_spec (h : function.Distinct) :
    (∀ i ∈ parameterIdents function, ∃ d ∈ function.child? "declarator", i ∈ d.identifiers) ∧
      ((parameterIdents function).map span).Nodup := by
  unfold parameterIdents
  split
  · rename_i list hlist
    obtain ⟨f, hf, hlist⟩ := Option.bind_eq_some_iff.mp hlist
    obtain ⟨d, hd, hfd⟩ := functionDeclarator?_mem hf
    have hlistd : list ∈ d.nodes :=
      mem_nodes_trans (mem_nodes_of_child (mem_children_of_child? hlist) (self_mem_nodes list)) hfd
    have hin : ∀ {p i : Tree}, (p.child? "declarator").bind (·.declared?) = some i →
        i ∈ p.identifiers := by
      intro p i hi
      obtain ⟨c, hc, hi⟩ := Option.bind_eq_some_iff.mp hi
      exact mem_identifiers_of_child (mem_children_of_child? hc)
        (mem_identifiers.mpr (declared?_mem hi))
    constructor
    · intro i hi
      obtain ⟨p, hp, hpi⟩ := List.mem_filterMap.mp hi
      have hp : p ∈ list.children := (List.mem_filter.mp (List.mem_filter.mp hp).1).1
      have hil := mem_identifiers.mp (mem_identifiers_of_child hp (hin hpi))
      exact ⟨d, hd, mem_identifiers.mpr ⟨mem_nodes_trans hil.1 hlistd, hil.2⟩⟩
    · have hdistinct : list.Distinct := (h.child (mem_children_of_child? hd)).of_mem_nodes hlistd
      rw [List.Nodup, List.pairwise_map, List.pairwise_filterMap]
      refine ((hdistinct.children.2.filter _).filter _).imp ?_
      intro p p' hapart i hi i' hi'
      exact hapart i (hin hi) i' (hin hi')
  · simp

namespace Stand

theorem passes_parameters (h : function.Distinct) :
    Passes function { opened := [function] } (function.child? "declarator").toList
      ((parameterIdents function).map (.declare · true)) := by
  obtain ⟨hmem, hnodup⟩ := parameterIdents_spec h
  have hidents : idents ((parameterIdents function).map (.declare · true)) =
      parameterIdents function := by
    rw [idents, List.filterMap_map]
    exact List.filterMap_some
  have hkind : ∀ i ∈ parameterIdents function, i.kind = "identifier" := by
    intro i hi
    obtain ⟨d, _, hi⟩ := hmem i hi
    exact (mem_identifiers.mp hi).2
  have hrun : ∀ (is : List Tree) (p : Stand), (∀ i ∈ is, i.kind = "identifier") →
      p.opened = [function] → Proper function p (is.map (.declare · true)) ∧
        (p.run (is.map (.declare · true))).opened = [function] ∧
        ∀ s ∈ (p.run (is.map (.declare · true))).made, s ∈ p.made ∨ s.home = function := by
    intro is
    induction is with
    | nil => exact fun p _ hp => ⟨trivial, hp, fun s hs => .inl hs⟩
    | cons i is ih =>
      intro p hk hp
      rw [List.forall_mem_cons] at hk
      obtain ⟨hproper, hopened, hmade⟩ := ih (p.next (.declare i true)) hk.2 hp
      refine ⟨⟨⟨hk.1, function, by rw [hp]; rfl, .parameter⟩, hproper⟩, hopened, fun s hs => ?_⟩
      refine (hmade s hs).elim (fun hs => ?_) .inr
      refine (List.mem_append.mp hs).imp_right fun hs => ?_
      rw [List.mem_singleton.mp hs, hp]
      rfl
  obtain ⟨hproper, hopened, hmade⟩ :=
    hrun (parameterIdents function) { opened := [function] } hkind rfl
  refine ⟨hproper, hopened, fun s hs => ?_, fun o ho => ?_, hidents.symm ▸ hnodup⟩
  · refine (hmade s hs).imp_right fun hs => .inl ?_
    rw [hs]
    exact List.mem_singleton_self function
  · rw [hidents] at ho
    obtain ⟨d, hd, ho⟩ := hmem o ho
    exact ⟨d, Option.mem_toList.mpr hd, ho⟩

/-- The walk over a function follows its scopes. -/
theorem passes_function (h : function.Distinct) :
    Passes function { opened := [function] } function.children (stepsOfFunction function) := by
  have hparameters := passes_parameters h
  have hbody := passes_part (fun c _ => through function c) fun c hc =>
    (before_start h (mem_children_of_child? hc)).later hparameters fun d hd =>
      apart_parts h (show "declarator" ≠ "body" by decide) d hd c (Option.mem_toList.mpr hc)
  refine (hparameters.append hbody (apart_parts h (by decide))).mono fun c hc => ?_
  refine ⟨c, ?_, self_mem_nodes c⟩
  rcases List.mem_append.mp hc with hc | hc <;>
    exact mem_children_of_child? (Option.mem_toList.mp hc)

end Stand

end Backslice.Scoping

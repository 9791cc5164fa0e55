import Backslice.Proofs.Scoping.Nesting

namespace Backslice.Scoping

open Backslice.Tree

variable {src : Source} {s s' : Scoping} {function i n o : Tree} {xs : List Step} {p : Stand}

def declarations (xs : List Step) : List (Tree × Bool) :=
  xs.filterMap fun
    | .declare i isParameter => some (i, isParameter)
    | _ => none

theorem exists_of_declarations {before between : List (Tree × Bool)} {isParameter : Bool}
    (h : declarations xs = before ++ (i, isParameter) :: between) :
    ∃ l r, xs = l ++ .declare i isParameter :: r ∧ declarations l = before := by
  obtain ⟨l, r, rfl, hl, hr⟩ := List.filterMap_eq_append_iff.mp h
  obtain ⟨r₁, x, r₂, rfl, hr₁, hx, _⟩ := List.filterMap_eq_cons_iff.mp hr
  cases x with
  | declare =>
    cases hx
    refine ⟨l ++ r₁, r₂, by simp, ?_⟩
    rw [declarations, List.filterMap_append, hl, List.filterMap_eq_nil_iff.mpr hr₁, List.append_nil]
  | use => cases hx
  | enter => cases hx
  | leave => cases hx

def Binder.declaration (d : Binder) : Tree × Bool := (d.ident, d.isParameter)

theorem made_run (p : Stand) (xs : List Step) :
    (p.run xs).made.map Binder.declaration = p.made.map Binder.declaration ++ declarations xs := by
  induction xs generalizing p with
  | nil => simp [declarations]
  | cons x xs ih =>
    rw [Stand.run_cons, ih]
    cases x <;> simp [Stand.next, declarations, Binder.declaration]

/-- A declaration that an identifier can stand for: it has the same text, and its scope lies around
the identifier. -/
structure Visible (src : Source) (function o : Tree) (e : Tree × Bool) (n : Tree) : Prop where
  text : src.text e.1 = src.text o
  home : Home function e.1 e.2 n
  encloses : o ∈ n.nodes

/-- The declaration `e` is the latest one in the innermost scope, of those that are visible. -/
def Binds (src : Source) (function o : Tree) (before : List (Tree × Bool)) (e : Tree × Bool)
    (between : List (Tree × Bool)) : Prop :=
  ∃ n, Visible src function o e n ∧
    (∀ e' ∈ before, ∀ m, Visible src function o e' m → n ∈ m.nodes) ∧
    ∀ e' ∈ between, ∀ m, Visible src function o e' m → n ∈ m.nodes ∧ m ≠ n

theorem not_visible_of_scope {m : Tree} (hm : IsScopeIn function m) (hi : i ∈ m.nodes)
    (ho : o ∉ m.nodes) : ¬ Visible src function o (i, false) n := by
  rintro ⟨_, hhome, hon⟩
  cases hhome with
  | innermost _ _ hleast => exact ho (mem_nodes_trans hon (hleast m hm hi))

theorem Binds.not_later {before between after : List (Tree × Bool)} {e e' : Tree × Bool}
    (h : Binds src function o before e (between ++ e' :: after)) :
    ¬ Binds src function o (before ++ e :: between) e' after := by
  obtain ⟨n, hn, _, hlater⟩ := h
  rintro ⟨m, hm, hearlier, _⟩
  obtain ⟨hnm, hne⟩ := hlater e' (by simp) m hm
  exact hne (mem_nodes_antisymm (hearlier e (by simp) n hn) hnm)

theorem Binds.unique {before between before' between' : List (Tree × Bool)} {e e' : Tree × Bool}
    (h : Binds src function o before e between) (h' : Binds src function o before' e' between')
    (heq : before ++ e :: between = before' ++ e' :: between') : before = before' := by
  rcases List.append_eq_append_iff.mp heq with ⟨l, rfl, hl⟩ | ⟨l, rfl, hl⟩
  · cases l with
    | nil => rw [List.append_nil]
    | cons a l =>
      obtain ⟨rfl, rfl⟩ := List.cons.inj hl
      exact absurd h' h.not_later
  · cases l with
    | nil => rw [List.append_nil]
    | cons a l =>
      obtain ⟨rfl, rfl⟩ := List.cons.inj hl
      exact absurd h h'.not_later

def Latest (made : List (Binder × Variable)) (n : Tree) (name : String) : Option Variable → Prop
  | some v => ∃ l d r, made = l ++ (d, v) :: r ∧ d.home = n ∧ v.sourceName = name ∧
      ∀ e ∈ r, e.1.home = n → e.2.sourceName ≠ name
  | none => ∀ e ∈ made, e.1.home = n → e.2.sourceName ≠ name

/-- The scoping is where the walk stands: its variables are those of the declarations made, and its
scopes hold the latest ones. -/
structure Reflects (src : Source) (p : Stand) (made : List (Binder × Variable)) (s : Scoping) :
    Prop where
  sites : made.map (·.1) = p.made
  vars : made.map (·.2) = s.vars
  text : ∀ e ∈ made, src.text e.1.ident = .ok e.2.sourceName
  scopes : List.Forall₂ (fun n scope => ∀ name, Latest made n name (scope.lookup name))
    p.opened s.scopes

variable {made : List (Binder × Variable)} {d : Binder} {v : Variable} {name : String}

theorem Latest.append {latest : Option Variable} (h : Latest made n name latest)
    (hd : d.home = n → v.sourceName ≠ name) : Latest (made ++ [(d, v)]) n name latest := by
  cases latest with
  | none =>
    intro e he
    rcases List.mem_append.mp he with he | he
    · exact h e he
    · rw [List.mem_singleton.mp he]
      exact hd
  | some w =>
    obtain ⟨l, d', r, rfl, hhome, hname, hlast⟩ := h
    refine ⟨l, d', r ++ [(d, v)], by simp, hhome, hname, fun e he => ?_⟩
    rcases List.mem_append.mp he with he | he
    · exact hlast e he
    · rw [List.mem_singleton.mp he]
      exact hd

theorem latest_declared (made : List (Binder × Variable)) (hd : d.home = n) :
    Latest (made ++ [(d, v)]) n v.sourceName (some v) := ⟨made, d, [], rfl, hd, rfl, by simp⟩

theorem Reflects.declare (h : Reflects src p made s) (hp : p.Nested function)
    (hv : src.text i = .ok v.sourceName) {isParameter : Bool} {bindings : List (Key × Variable)} :
    ∃ d, Reflects src (p.next (.declare i isParameter)) (made ++ [(d, v)])
      { s with vars := s.vars ++ [v], bindings, scopes := bindName v.sourceName v s.scopes } := by
  obtain ⟨n, rest, hopened⟩ := List.exists_cons_of_ne_nil (List.ne_nil_of_mem hp.bottom)
  have hchain := hp.chain
  have hscopes := h.scopes
  rw [hopened] at hchain hscopes
  rw [List.pairwise_cons] at hchain
  cases hs : s.scopes with
  | nil =>
    rw [hs] at hscopes
    cases hscopes
  | cons scope outer =>
    rw [hs, List.forall₂_cons] at hscopes
    refine ⟨⟨i, isParameter, n⟩, ?_, by simp [h.vars], fun e he => ?_, ?_⟩
    · simp only [List.map_append, List.map_cons, List.map_nil, h.sites, Stand.next, hopened,
        List.headD_cons]
    · rcases List.mem_append.mp he with he | he
      · exact h.text e he
      · rw [List.mem_singleton.mp he]
        exact hv
    · rw [Stand.next, hopened, bindName, List.forall₂_cons]
      refine ⟨fun name => ?_, ?_⟩
      · rw [List.lookup_cons]
        split
        · rename_i heq
          rw [beq_iff_eq.mp heq]
          exact latest_declared made rfl
        · rename_i hne
          exact (hscopes.1 name).append fun _ heq => absurd heq.symm (by simpa using hne)
      · -- the other open scopes are not the one of this declaration
        have hothers := (List.forall₂_and_left rest outer).mpr
          ⟨fun m hm => (hchain.1 m hm).2, hscopes.2⟩
        exact hothers.imp fun m scope hm name => (hm.2 name).append fun heq => absurd heq hm.1

theorem Reflects.perform {x : Step} (h : Reflects src p made s) (hp : p.Nested function)
    (hx : p.Allows function x) (hs : perform src x s = .ok s') :
    ∃ made', Reflects src (p.next x) made' s' := by
  cases x with
  | declare i isParameter =>
    obtain ⟨v, hv, _, rfl⟩ := exists_of_declare hs
    obtain ⟨d, hd⟩ := h.declare hp hv
    exact ⟨_, hd⟩
  | use o =>
    obtain ⟨_, _, rfl⟩ := exists_of_resolve hs
    exact ⟨made, h.sites, h.vars, h.text, h.scopes⟩
  | enter n =>
    cases hs
    refine ⟨made, h.sites, h.vars, h.text, .cons (fun name e he => ?_) h.scopes⟩
    have hsite : e.1 ∈ p.made := h.sites ▸ List.mem_map_of_mem he
    exact fun heq => absurd heq (hx.2.2 e.1 hsite)
  | leave =>
    cases hs
    refine ⟨made, h.sites, h.vars, h.text, ?_⟩
    have hscopes := h.scopes
    unfold Stand.next closeScope
    generalize p.opened = opened at hscopes ⊢
    generalize s.scopes = scopes at hscopes ⊢
    cases hscopes with
    | nil => exact .nil
    | cons _ hrest => exact hrest

theorem Reflects.performAll (h : Reflects src p made s) (hp : p.Nested function)
    (hxs : Stand.Proper function p xs) (hs : performAll src xs s = .ok s') :
    ∃ made', Reflects src (p.run xs) made' s' := by
  induction xs generalizing p made s with
  | nil =>
    cases hs
    exact ⟨made, h⟩
  | cons x xs ih =>
    obtain ⟨s₁, hx, hs⟩ := exists_of_bind_eq_ok hs
    obtain ⟨made₁, h₁⟩ := h.perform hp hxs.1 hx
    exact ih h₁ (hp.next hxs.1) hxs.2 hs

theorem reflects_start (src : Source) (suffix : RawText) (function : Tree) :
    Reflects src { opened := [function] } [] { suffix } where
  sites := rfl
  vars := rfl
  text := by simp
  scopes := .cons (fun name => by simp [Latest]) .nil

theorem exists_of_findSome {opened : List Tree} {scopes : List Scope}
    (h : List.Forall₂ (fun n scope => ∀ name, Latest made n name (scope.lookup name)) opened scopes)
    (hv : scopes.findSome? (·.lookup name) = some v) : ∃ inner n outer,
      opened = inner ++ n :: outer ∧ Latest made n name (some v) ∧
      ∀ m ∈ inner, ∀ e ∈ made, e.1.home = m → e.2.sourceName ≠ name := by
  induction h with
  | nil => cases hv
  | @cons n scope opened scopes hn _ ih =>
    rw [List.findSome?_cons] at hv
    specialize hn name
    split at hv
    · rename_i w hw
      rw [hw, hv] at hn
      exact ⟨[], n, opened, rfl, hn, by simp⟩
    · rename_i hnone
      rw [hnone] at hn
      obtain ⟨inner, m, outer, rfl, hlatest, hinner⟩ := ih hv
      exact ⟨n :: inner, m, outer, rfl, hlatest, List.forall_mem_cons.mpr ⟨hn, hinner⟩⟩

theorem absent_of_findSome {opened : List Tree} {scopes : List Scope}
    (h : List.Forall₂ (fun n scope => ∀ name, Latest made n name (scope.lookup name)) opened scopes)
    (hv : scopes.findSome? (·.lookup name) = none) :
    ∀ n ∈ opened, ∀ e ∈ made, e.1.home = n → e.2.sourceName ≠ name := by
  induction h with
  | nil => simp
  | @cons n scope opened scopes hn _ ih =>
    rw [List.findSome?_cons] at hv
    specialize hn name
    split at hv
    · cases hv
    · rename_i hnone
      rw [hnone] at hn
      exact List.forall_mem_cons.mpr ⟨hn, ih hv⟩

theorem Reflects.seen {e : Binder × Variable} {m : Tree} (h : Reflects src p made s)
    (hp : p.Nested function) (ho : p.Allows function (.use o)) (hname : src.text o = .ok name)
    (he : e ∈ made) (hvisible : Visible src function o e.1.declaration m) :
    e.1.home = m ∧ m ∈ p.opened ∧ e.2.sourceName = name := by
  have hsite : e.1 ∈ p.made := h.sites ▸ List.mem_map_of_mem he
  have hhome : e.1.home = m := (hp.home e.1 hsite).2.unique hvisible.home
  refine ⟨hhome, hhome ▸ ho.2 e.1 hsite (hhome ▸ hvisible.encloses), ?_⟩
  have htext := (h.text e he).symm.trans (hvisible.text.trans hname)
  exact Except.ok.inj htext

theorem Reflects.binds (h : Reflects src p made s) (hp : p.Nested function)
    (ho : p.Allows function (.use o)) (hname : src.text o = .ok name)
    (hv : s.visible? name = some v) : ∃ before e between,
      p.made.map Binder.declaration = before ++ e :: between ∧
      Binds src function o before e between ∧ s.vars[before.length]? = some v := by
  obtain ⟨inner, n, outer, hopened, ⟨l, d, r, hmade, hhome, hsource, hlast⟩, hinner⟩ :=
    exists_of_findSome h.scopes hv
  have hdeclared : ∀ es : List (Binder × Variable), (es.map (·.1)).map Binder.declaration =
      es.map fun e => e.1.declaration := fun es => List.map_map
  have hd : (d, v) ∈ made := by simp [hmade]
  have hn : n ∈ p.opened := by simp [hopened]
  have houter : ∀ e ∈ made, ∀ m, Visible src function o e.1.declaration m → n ∈ m.nodes := by
    intro e he m hm
    obtain ⟨rfl, hopen, hsame⟩ := h.seen hp ho hname he hm
    have hchain := hp.chain
    rw [hopened] at hopen hchain
    rcases List.mem_append.mp hopen with hmem | hmem
    · exact absurd hsame (hinner _ hmem e he rfl)
    · rcases List.mem_cons.mp hmem with heq | hmem
      · rw [heq]
        exact self_mem_nodes n
      · exact ((List.pairwise_cons.mp (List.pairwise_append.mp hchain).2.1).1 _ hmem).1
  refine ⟨l.map fun e => e.1.declaration, d.declaration, r.map fun e => e.1.declaration, ?_,
    ⟨n, ⟨?_, ?_, ho.1 n hn⟩, ?_, ?_⟩, ?_⟩
  · rw [← h.sites, hdeclared, hmade, List.map_append, List.map_cons]
  · exact (h.text _ hd).trans (hsource ▸ hname.symm)
  · rw [← hhome]
    exact (hp.home d (h.sites ▸ List.mem_map_of_mem hd)).2
  · intro e' he' m hm
    obtain ⟨e, he, rfl⟩ := List.mem_map.mp he'
    exact houter e (by simp [hmade, he]) m hm
  · intro e' he' m hm
    obtain ⟨e, he, rfl⟩ := List.mem_map.mp he'
    have hmem : e ∈ made := by simp [hmade, he]
    refine ⟨houter e hmem m hm, fun heq => ?_⟩
    obtain ⟨hhome', _, hsame⟩ := h.seen hp ho hname hmem hm
    exact hlast e he (hhome'.trans heq) hsame
  · rw [← h.vars, hmade]
    simp

theorem Reflects.not_visible (h : Reflects src p made s) (hp : p.Nested function)
    (ho : p.Allows function (.use o)) (hname : src.text o = .ok name)
    (hnone : s.visible? name = none) :
    ∀ e ∈ p.made.map Binder.declaration, ∀ m, ¬ Visible src function o e m := by
  rw [← h.sites, List.map_map]
  intro e' he' m hm
  obtain ⟨e, he, rfl⟩ := List.mem_map.mp he'
  obtain ⟨hhome, hopen, hsame⟩ := h.seen hp ho hname he hm
  exact absent_of_findSome h.scopes hnone m hopen e he hhome hsame

theorem lookup_perform {x : Step} (h : perform src x s = .ok s')
    (hne : ∀ i ∈ Stand.idents [x], i.key ≠ o.key) : s'.lookup o = s.lookup o := by
  have hbeq : ∀ {i : Tree}, i.key ≠ o.key → (o.key == i.key) = false :=
    fun hi => beq_false_of_ne fun heq => hi heq.symm
  cases x with
  | declare i isParameter =>
    obtain ⟨v, _, _, rfl⟩ := exists_of_declare h
    rw [lookup, lookup, List.lookup_cons, hbeq (hne i (List.mem_singleton_self i))]
  | use i =>
    obtain ⟨name, _, rfl⟩ := exists_of_resolve h
    cases hv : s.visible? name with
    | none => rfl
    | some v =>
      rw [lookup, lookup, Option.toList_some, List.map_singleton, List.singleton_append,
        List.lookup_cons, hbeq (hne i (List.mem_singleton_self i))]
  | enter n =>
    cases h
    rfl
  | leave =>
    cases h
    rfl

theorem lookup_performAll (h : performAll src xs s = .ok s')
    (hne : ∀ i ∈ Stand.idents xs, i.key ≠ o.key) : s'.lookup o = s.lookup o := by
  induction xs generalizing s with
  | nil =>
    cases h
    rfl
  | cons x xs ih =>
    obtain ⟨s₁, hx, h⟩ := exists_of_bind_eq_ok h
    rw [← List.singleton_append, Stand.idents_append, List.forall_mem_append] at hne
    rw [ih h hne.2, lookup_perform hx hne.1]

structure Declares (src : Source) (e : Tree × Bool) (v : Variable) : Prop where
  text : src.text e.1 = .ok v.sourceName
  line : v.line = some (src.line e.1)
  isParameter : v.isParameter = e.2

theorem vars_performAll (h : performAll src xs s = .ok s') :
    ∃ vs, s'.vars = s.vars ++ vs ∧ List.Forall₂ (Declares src) (declarations xs) vs := by
  induction xs generalizing s with
  | nil =>
    cases h
    exact ⟨[], by simp, .nil⟩
  | cons x xs ih =>
    obtain ⟨s₁, hx, h⟩ := exists_of_bind_eq_ok h
    obtain ⟨vs, hvs, hdeclares⟩ := ih h
    cases x with
    | declare i isParameter =>
      obtain ⟨source, hsource, hx⟩ := exists_of_bind_eq_ok hx
      cases hx
      exact ⟨_ :: vs, by rw [hvs, List.append_assoc]; rfl, .cons ⟨hsource, rfl, rfl⟩ hdeclares⟩
    | use i =>
      obtain ⟨_, _, rfl⟩ := exists_of_resolve hx
      exact ⟨vs, hvs, hdeclares⟩
    | enter n =>
      cases hx
      exact ⟨vs, hvs, hdeclares⟩
    | leave =>
      cases hx
      exact ⟨vs, hvs, hdeclares⟩

section Function

variable {suffix : RawText} {past future : List Step} {x : Step}

theorem exists_of_stepsOfFunction (h : ofFunction src suffix function = .ok s)
    (hdistinct : function.Distinct) (hsteps : stepsOfFunction function = past ++ x :: future) :
    ∃ s₁ s₂, performAll src past { suffix } = .ok s₁ ∧ perform src x s₁ = .ok s₂ ∧
      performAll src future s₂ = .ok s ∧ ∀ o ∈ Stand.idents [x],
        (∀ i ∈ Stand.idents past, i.key ≠ o.key) ∧ ∀ i ∈ Stand.idents future, i.key ≠ o.key := by
  rw [ofFunction_eq, hsteps, performAll_append] at h
  obtain ⟨s₁, h₁, h⟩ := exists_of_bind_eq_ok h
  obtain ⟨s₂, h₂, h⟩ := exists_of_bind_eq_ok h
  refine ⟨s₁, s₂, h₁, h₂, h, fun o ho => ?_⟩
  have hnodup := (Stand.passes_function hdistinct).nodup
  rw [hsteps, ← List.singleton_append, Stand.idents_append, Stand.idents_append, List.map_append,
    List.map_append, List.nodup_append', List.nodup_append'] at hnodup
  obtain ⟨_, ⟨_, _, hfuture⟩, hpast⟩ := hnodup
  have hspan : ∀ {i : Tree}, i.key = o.key → i.span = o.span := by
    intro i hkey
    rw [key, key, Key.mk.injEq] at hkey
    rw [span, span, hkey.1, hkey.2.1]
  constructor
  · intro i hi hkey
    refine hpast (List.mem_map_of_mem hi) (List.mem_append_left _ ?_)
    rw [hspan hkey]
    exact List.mem_map_of_mem ho
  · intro i hi hkey
    refine hfuture (List.mem_map_of_mem ho) ?_
    rw [← hspan hkey]
    exact List.mem_map_of_mem hi

theorem lookup_declared {isParameter : Bool} (h : ofFunction src suffix function = .ok s)
    (hdistinct : function.Distinct)
    (hsteps : stepsOfFunction function = past ++ .declare i isParameter :: future) :
    ∃ v, s.lookup i = some v ∧ s.vars[(declarations past).length]? = some v := by
  obtain ⟨s₁, s₂, h₁, h₂, h₃, hkeys⟩ := exists_of_stepsOfFunction h hdistinct hsteps
  obtain ⟨v, _, _, rfl⟩ := exists_of_declare h₂
  refine ⟨v, ?_, ?_⟩
  · rw [lookup_performAll h₃ (hkeys i (List.mem_singleton_self i)).2, lookup]
    exact List.lookup_cons_self
  · obtain ⟨vs, hvs, hdeclares⟩ := vars_performAll h₁
    obtain ⟨ws, hws, _⟩ := vars_performAll h₃
    rw [List.nil_append] at hvs
    rw [hws, hdeclares.length_eq, ← hvs]
    simp

theorem lookup_use (h : ofFunction src suffix function = .ok s) (hdistinct : function.Distinct)
    (hsteps : stepsOfFunction function = past ++ .use o :: future) :
    (∀ v, s.lookup o = some v → ∃ before e between, declarations past = before ++ e :: between ∧
      Binds src function o before e between ∧ s.vars[before.length]? = some v) ∧
    (s.lookup o = none → ∀ e ∈ declarations past, ∀ n, ¬ Visible src function o e n) := by
  obtain ⟨s₁, s₂, h₁, h₂, h₃, hkeys⟩ := exists_of_stepsOfFunction h hdistinct hsteps
  obtain ⟨hpast, hfuture⟩ := hkeys o (List.mem_singleton_self o)
  have hproper := (Stand.passes_function hdistinct).proper
  rw [hsteps, Stand.proper_append] at hproper
  obtain ⟨hproper, hallows, _⟩ := hproper
  have hnested := (Stand.nested_start function).run hproper
  obtain ⟨made, hmade⟩ :=
    (reflects_start src suffix function).performAll (Stand.nested_start function) hproper h₁
  have hdeclarations := made_run { opened := [function] } past
  rw [List.map_nil, List.nil_append] at hdeclarations
  obtain ⟨name, hname, rfl⟩ := exists_of_resolve h₂
  have hlookup : s.lookup o = s₁.visible? name := by
    rw [lookup_performAll h₃ hfuture, lookup]
    cases s₁.visible? name with
    | none => exact lookup_performAll h₁ hpast
    | some v => exact List.lookup_cons_self
  obtain ⟨ws, hws, _⟩ := vars_performAll h₃
  rw [hlookup, ← hdeclarations]
  refine ⟨fun v hv => ?_, hmade.not_visible hnested hallows hname⟩
  obtain ⟨before, e, between, heq, hbinds, hvar⟩ := hmade.binds hnested hallows hname hv
  refine ⟨before, e, between, heq, hbinds, ?_⟩
  rw [hws, List.getElem?_append_left (List.getElem?_eq_some_iff.mp hvar).1, hvar]

/-- Lexical scoping. An identifier that is not declared where it stands is bound to the latest
declaration, in the innermost scope around it, of those made before under its text; a declaration in
a scope that does not lie around it is not among them. -/
theorem lookup_lexical (h : ofFunction src suffix function = .ok s) (hdistinct : function.Distinct)
    (hsteps : stepsOfFunction function = past ++ .use o :: future) :
    (∀ v, s.lookup o = some v ↔ ∃ before i isParameter between,
      declarations past = before ++ (i, isParameter) :: between ∧
      Binds src function o before (i, isParameter) between ∧
      s.lookup i = some v ∧ s.vars[before.length]? = some v) ∧
    (s.lookup o = none ↔ ∀ e ∈ declarations past, ∀ n, ¬ Visible src function o e n) ∧
    ∀ i m, m ∈ function.nodes → isScope m.kind = true → i ∈ m.nodes → o ∉ m.nodes →
      ∀ n, ¬ Visible src function o (i, false) n := by
  obtain ⟨hsome, hnone⟩ := lookup_use h hdistinct hsteps
  have hbound : (∃ e ∈ declarations past, ∃ n, Visible src function o e n) →
      ∃ v, s.lookup o = some v := by
    rintro ⟨e, he, n, hvisible⟩
    cases hv : s.lookup o with
    | none => exact absurd hvisible (hnone hv e he n)
    | some v => exact ⟨v, rfl⟩
  refine ⟨fun v => ⟨fun hv => ?_, ?_⟩, ⟨hnone, fun hall => ?_⟩, fun i m hm hscope hi ho n =>
    not_visible_of_scope (.inr ⟨hm, hscope⟩) hi ho⟩
  · obtain ⟨before, ⟨i, isParameter⟩, between, heq, hbinds, hvar⟩ := hsome v hv
    refine ⟨before, i, isParameter, between, heq, hbinds, ?_, hvar⟩
    obtain ⟨l, r, rfl, rfl⟩ := exists_of_declarations heq
    rw [List.append_assoc, List.cons_append] at hsteps
    obtain ⟨w, hw, hvar'⟩ := lookup_declared h hdistinct hsteps
    rw [hw, ← hvar', hvar]
  · rintro ⟨before, i, isParameter, between, heq, hbinds, _, hvar⟩
    have hmem : (i, isParameter) ∈ declarations past := by simp [heq]
    obtain ⟨w, hw⟩ := hbound ⟨_, hmem, hbinds.imp fun n hn => hn.1⟩
    obtain ⟨before', e', between', heq', hbinds', hvar'⟩ := hsome w hw
    rw [hbinds.unique hbinds' (heq.symm.trans heq'), hvar'] at hvar
    rw [hw, hvar]
  · cases hv : s.lookup o with
    | none => rfl
    | some v =>
      obtain ⟨before, e, between, heq, ⟨n, hvisible, _⟩, _⟩ := hsome v hv
      exact absurd hvisible (hall e (by simp [heq]) n)

end Function

def inBlock : Tree := ⟨true, "identifier", "", 20, 21, []⟩

def block : Tree := ⟨true, "compound_statement", "", 11, 24, [
  ⟨true, "declaration", "", 13, 19, [⟨true, "identifier", "declarator", 17, 18, []⟩]⟩,
  ⟨true, "expression_statement", "", 20, 22, [inBlock]⟩]⟩

def behindBlock : Tree := ⟨true, "identifier", "", 25, 26, []⟩

def aroundBlock : Tree := ⟨true, "compound_statement", "body", 9, 29, [block,
  ⟨true, "expression_statement", "", 25, 27, [behindBlock]⟩]⟩

def parameter : Tree := ⟨true, "identifier", "declarator", 6, 7, []⟩

def reused : Source where
  bytes := "f(int x) \x7b \x7b int x; x; \x7d x; \x7d".toUTF8
  root := ⟨true, "function_definition", "", 0, 29, [
    ⟨true, "function_declarator", "declarator", 0, 8, [
      ⟨true, "parameter_list", "parameters", 1, 8, [
        ⟨true, "parameter_declaration", "", 2, 7, [parameter]⟩]⟩]⟩, aroundBlock]⟩
  damaged := false

def beforeReuse : List Step := [.declare parameter true, .enter aroundBlock, .enter block,
  .declare ⟨true, "identifier", "declarator", 17, 18, []⟩ false,
  .use inBlock, .leave]

set_option maxRecDepth 10000 in
theorem lookup_lexical_reused : ∃ s, ofFunction reused "#" reused.root = .ok s ∧
    reused.root.Distinct ∧
    stepsOfFunction reused.root = beforeReuse ++ .use behindBlock :: [.leave] ∧
    (∀ v, s.lookup behindBlock = some v ↔ ∃ before i isParameter between,
      declarations beforeReuse = before ++ (i, isParameter) :: between ∧
      Binds reused reused.root behindBlock before (i, isParameter) between ∧
      s.lookup i = some v ∧ s.vars[before.length]? = some v) ∧
    (s.lookup behindBlock = none ↔
      ∀ e ∈ declarations beforeReuse, ∀ n, ¬ Visible reused reused.root behindBlock e n) ∧
    s.lookup behindBlock = some ⟨"x", "x", some 1, true⟩ ∧
    s.lookup inBlock = some ⟨"x#1", "x", some 1, false⟩ := by
  have hrun : ((ofFunction reused "#" reused.root).toOption.any fun s => decide (
      s.lookup behindBlock = some ⟨"x", "x", some 1, true⟩ ∧
      s.lookup inBlock = some ⟨"x#1", "x", some 1, false⟩)) = true := by decide +kernel
  have hdistinct : reused.root.Distinct := by decide +kernel
  have hsteps : stepsOfFunction reused.root = beforeReuse ++ .use behindBlock :: [.leave] := by
    decide +kernel
  obtain ⟨s, h, hrun⟩ := exists_of_any hrun
  obtain ⟨hsome, hnone, _⟩ := lookup_lexical h hdistinct hsteps
  exact ⟨s, h, hdistinct, hsteps, hsome, hnone, of_decide_eq_true hrun⟩

end Backslice.Scoping

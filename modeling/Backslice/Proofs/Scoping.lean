import Backslice.Proofs.Table
import Backslice.Proofs.Tree
import Backslice.Scoping

namespace Backslice.Scoping

inductive Step where
  | declare (ident : Tree) (isParameter : Bool)
  /-- An identifier that is not declared here stands for what is visible. -/
  | use (ident : Tree)
  | enter (scope : Tree)
  | leave
  deriving DecidableEq

variable {src : Source} {s s' : Scoping}

def perform (src : Source) : Step → Scoping → Except TreeError Scoping
  | .declare ident isParameter, s => s.declare src ident isParameter
  | .use ident, s => s.resolve src ident
  | .enter _, s => .ok s.openScope
  | .leave, s => .ok s.closeScope

def performAll (src : Source) : List Step → Scoping → Except TreeError Scoping
  | [], s => .ok s
  | x :: xs, s => do performAll src xs (← perform src x s)

theorem performAll_append (xs ys : List Step) (s : Scoping) :
    performAll src (xs ++ ys) s = performAll src xs s >>= performAll src ys := by
  induction xs generalizing s with
  | nil => rfl
  | cons x xs ih =>
    simp only [List.cons_append, performAll]
    cases perform src x s with
    | error e => rfl
    | ok s' => exact ih s'

theorem performAll_singleton (x : Step) (s : Scoping) :
    performAll src [x] s = perform src x s := by
  rw [performAll]
  cases perform src x s <;> rfl

mutual

def stepsAround (skipped : Tree.Key) : Tree → List Step
  | t@⟨_, kind, _, _, _, children⟩ =>
    if t.key = skipped ∨ kind = "parameter_list" then []
    else if kind = "identifier" then [.use t]
    else stepsAroundAll skipped children

def stepsAroundAll (skipped : Tree.Key) : List Tree → List Step
  | [] => []
  | t :: ts => stepsAround skipped t ++ stepsAroundAll skipped ts

end

mutual

def steps (t : Tree) : List Step :=
  if isScope t.kind then
    .enter t ::
      ((if t.kind = "for_range_loop" then stepsRangeLoop t else stepsAll t.children) ++ [.leave])
  else if t.kind = "declaration" then stepsDeclarators t.children
  else if t.kind = "identifier" then [.use t]
  else stepsAll t.children
termination_by 3 * sizeOf t + 1
decreasing_by
  all_goals have := t.sizeOf_children_lt; omega

def stepsAll (ts : List Tree) : List Step :=
  match ts with
  | [] => []
  | t :: ts => steps t ++ stepsAll ts
termination_by 3 * sizeOf ts
decreasing_by
  all_goals simp only [List.cons.sizeOf_spec]; omega

def stepsRangeLoop (t : Tree) : List Step :=
  (match _h : t.child? "right" with
    | some right => steps right
    | none => []) ++
  (((t.child? "declarator").bind (·.declared?)).toList.map (.declare · false) ++
  match _h : t.child? "body" with
    | some body => steps body
    | none => [])
termination_by 3 * sizeOf t
decreasing_by
  all_goals have := Tree.sizeOf_child?_lt _h; omega

def stepsDeclarator (d : Tree) : List Step :=
  let target := if d.kind = "init_declarator" then d.child? "declarator" else some d
  match target, target.bind (·.declared?) with
  | some target, some ident =>
    .declare ident false :: (stepsAround ident.key target ++
      if d.kind = "init_declarator" then
        match _h : d.child? "value" with
        | some value => steps value
        | none => []
      else [])
  | _, _ => steps d
termination_by 3 * sizeOf d + 2
decreasing_by
  · have := Tree.sizeOf_child?_lt _h
    omega
  · omega

def stepsDeclarators (ts : List Tree) : List Step :=
  match ts with
  | [] => []
  | d :: ts =>
    (if d.field ≠ "declarator" ∨ d.kind = "function_declarator" then [] else stepsDeclarator d) ++
      stepsDeclarators ts
termination_by 3 * sizeOf ts
decreasing_by
  all_goals simp only [List.cons.sizeOf_spec]; omega

end

def stepsOf (part : Option Tree) : List Step := part.elim [] steps

theorem steps_match_eq (o : Option Tree) :
    (match _h : o with
      | some c => steps c
      | none => []) = stepsOf o := by
  cases o <;> rfl

theorem stepsRangeLoop_eq (t : Tree) : stepsRangeLoop t = stepsOf (t.child? "right") ++
    (((t.child? "declarator").bind (·.declared?)).toList.map (.declare · false) ++
      stepsOf (t.child? "body")) := by
  rw [stepsRangeLoop, steps_match_eq, steps_match_eq]

def target? (d : Tree) : Option Tree :=
  if d.kind = "init_declarator" then d.child? "declarator" else some d

def value? (d : Tree) : Option Tree :=
  if d.kind = "init_declarator" then d.child? "value" else none

theorem stepsDeclarator_eq_of_declared {d target ident : Tree} (ht : target? d = some target)
    (hi : target.declared? = some ident) : stepsDeclarator d =
      .declare ident false :: (stepsAround ident.key target ++ stepsOf (value? d)) := by
  rw [stepsDeclarator]
  simp only [steps_match_eq]
  unfold target? at ht
  unfold value?
  simp only [ht, Option.bind_some, hi]
  split <;> rfl

theorem stepsDeclarator_eq_of_none {d : Tree} (h : (target? d).bind (·.declared?) = none) :
    stepsDeclarator d = steps d := by
  rw [stepsDeclarator]
  unfold target? at h
  simp only [h]
  cases (if d.kind = "init_declarator" then d.child? "declarator" else some d) <;> rfl

section Around

variable {skipped : Tree.Key}

mutual

theorem walkAround_eq : ∀ (t : Tree) (s : Scoping),
    walkAround src skipped t s = performAll src (stepsAround skipped t) s
  | ⟨named, kind, field, start, stop, children⟩, s => by
    rw [walkAround, stepsAround]
    split
    · rfl
    · split
      · exact (performAll_singleton (.use _) s).symm
      · exact walkAroundAll_eq children s

theorem walkAroundAll_eq : ∀ (ts : List Tree) (s : Scoping),
    walkAroundAll src skipped ts s = performAll src (stepsAroundAll skipped ts) s
  | [], s => rfl
  | t :: ts, s => by
    rw [walkAroundAll, stepsAroundAll, performAll_append, walkAround_eq t s]
    exact congrArg _ (funext (walkAroundAll_eq ts))

end

end Around

def Follows (src : Source) (t : Tree) : Prop := ∀ s, walk src t s = performAll src (steps t) s

variable {t : Tree} {ts : List Tree}

theorem walkAll_eq (ht : ∀ t ∈ ts, Follows src t) (s : Scoping) :
    walkAll src ts s = performAll src (stepsAll ts) s := by
  induction ts generalizing s with
  | nil => rw [walkAll, stepsAll, performAll]
  | cons t ts ih =>
    rw [List.forall_mem_cons] at ht
    rw [walkAll, stepsAll, performAll_append, ht.1 s]
    exact congrArg _ (funext fun s' => ih ht.2 s')

def walkPart (src : Source) : Option Tree → Scoping → Except TreeError Scoping
  | some t, s => walk src t s
  | none, s => .ok s

theorem walk_match_eq (o : Option Tree) (s : Scoping) :
    (match _h : o with
      | some c => walk src c s
      | none => .ok s) = walkPart src o s := by
  cases o <;> rfl

theorem walkPart_eq {field : String} (ht : ∀ c ∈ t.children, Follows src c) (s : Scoping) :
    walkPart src (t.child? field) s = performAll src (stepsOf (t.child? field)) s := by
  cases hc : t.child? field with
  | none => rfl
  | some c => exact ht c (Tree.mem_children_of_child? hc) s

theorem walkRangeLoop_eq (ht : ∀ c ∈ t.children, Follows src c) (s : Scoping) :
    walkRangeLoop src t s = performAll src (stepsRangeLoop t) s := by
  have hbody : ∀ (o : Option Tree) (s₁ : Scoping),
      o.elim (.ok s₁) (s₁.declare src · false) >>= walkPart src (t.child? "body") =
        performAll src (o.toList.map (.declare · false) ++ stepsOf (t.child? "body")) s₁ := by
    intro o s₁
    rw [performAll_append, funext (walkPart_eq ht)]
    cases o with
    | none => rfl
    | some ident =>
      rw [Option.toList_some, List.map_singleton, performAll_singleton]
      rfl
  rw [walkRangeLoop, stepsRangeLoop_eq, performAll_append]
  generalize (t.child? "declarator").bind (·.declared?) = o
  split
  case' h_1 right hright =>
    rw [hright]
    refine congr (congrArg _ (ht right (Tree.mem_children_of_child? hright) s)) (funext fun s₁ => ?_)
  case' h_2 hright =>
    rw [hright]
    refine congrArg (Except.ok s >>= ·) (funext fun s₁ => ?_)
  all_goals
    rw [← hbody]
    cases o with
    | none => exact walk_match_eq _ s₁
    | some ident => exact congrArg (s₁.declare src ident false >>= ·) (funext (walk_match_eq _))

theorem walkDeclarator_eq {d : Tree} (hd : Follows src d) (hc : ∀ c ∈ d.children, Follows src c)
    (s : Scoping) : walkDeclarator src d s = performAll src (stepsDeclarator d) s := by
  rw [walkDeclarator]
  split
  · rename_i target ident htarget hident
    rw [stepsDeclarator_eq_of_declared htarget (by simpa [htarget] using hident), performAll]
    refine congrArg _ (funext fun s₁ => ?_)
    rw [performAll_append, walkAround_eq]
    refine congrArg _ (funext fun s₂ => ?_)
    unfold value?
    split
    · exact (walk_match_eq _ s₂).trans (walkPart_eq hc s₂)
    · rfl
  · rename_i hnone
    rw [stepsDeclarator_eq_of_none, hd]
    cases htarget : target? d with
    | none => rfl
    | some target =>
      cases hident : target.declared? with
      | none => exact hident
      | some ident =>
        refine (hnone target ident htarget ?_).elim
        exact (congrArg (·.bind (·.declared?)) htarget).trans hident

theorem walkDeclarators_eq (ht : ∀ d ∈ ts, Follows src d ∧ ∀ c ∈ d.children, Follows src c)
    (s : Scoping) : walkDeclarators src ts s = performAll src (stepsDeclarators ts) s := by
  induction ts generalizing s with
  | nil => rw [walkDeclarators, stepsDeclarators, performAll]
  | cons d ts ih =>
    rw [List.forall_mem_cons] at ht
    rw [walkDeclarators, stepsDeclarators, performAll_append]
    split
    · exact ih ht.2 s
    · rw [walkDeclarator_eq ht.1.1 ht.1.2]
      exact congrArg _ (funext fun s' => ih ht.2 s')

theorem walk_eq (src : Source) (t : Tree) : Follows src t := by
  induction hn : sizeOf t using Nat.strongRecOn generalizing t with
  | ind n ih =>
  subst hn
  have ht : ∀ c ∈ t.children, Follows src c := fun c hc => ih _ (Tree.sizeOf_lt_of_mem hc) c rfl
  intro s
  rw [walk, steps]
  split
  · rw [performAll, perform, ok_bind, performAll_append]
    split
    · rw [walkRangeLoop_eq ht]
      exact congrArg _ (funext fun inner => (performAll_singleton .leave inner).symm)
    · rw [walkAll_eq ht]
      exact congrArg _ (funext fun inner => (performAll_singleton .leave inner).symm)
  · split
    · refine walkDeclarators_eq (fun d hd => ⟨ht d hd, fun c hc => ?_⟩) s
      exact ih _ (Nat.lt_trans (Tree.sizeOf_lt_of_mem hc) (Tree.sizeOf_lt_of_mem hd)) c rfl
    · split
      · exact (performAll_singleton (.use t) s).symm
      · exact walkAll_eq ht s

def stepsOfFunction (function : Tree) : List Step :=
  (parameterIdents function).map (.declare · true) ++ stepsOf (function.child? "body")

theorem declareParameters_eq (idents : List Tree) (s : Scoping) :
    declareParameters src idents s = performAll src (idents.map (.declare · true)) s := by
  induction idents generalizing s with
  | nil => rfl
  | cons ident idents ih =>
    rw [declareParameters, List.map_cons, performAll]
    exact congrArg _ (funext ih)

theorem ofFunction_eq (src : Source) (suffix : RawText) (function : Tree) :
    ofFunction src suffix function = performAll src (stepsOfFunction function) { suffix } := by
  rw [ofFunction, stepsOfFunction, performAll_append, declareParameters_eq]
  refine congrArg _ (funext fun s => ?_)
  cases function.child? "body" with
  | none => rfl
  | some body => exact walk_eq src body s

theorem exists_of_declare {ident : Tree} {isParameter : Bool}
    (h : s.declare src ident isParameter = .ok s') :
    ∃ v : Variable, src.text ident = .ok v.sourceName ∧ v.name = s.freshName v.sourceName ∧
      s' = { s with
        vars := s.vars ++ [v]
        bindings := (ident.key, v) :: s.bindings
        scopes := bindName v.sourceName v s.scopes } := by
  unfold declare at h
  obtain ⟨source, hsource, h⟩ := exists_of_bind_eq_ok h
  cases h
  exact ⟨_, hsource, rfl, rfl⟩

theorem exists_of_resolve {ident : Tree} (h : s.resolve src ident = .ok s') :
    ∃ name, src.text ident = .ok name ∧
      s' = { s with bindings := (s.visible? name).toList.map (ident.key, ·) ++ s.bindings } := by
  unfold resolve at h
  obtain ⟨name, hname, h⟩ := exists_of_bind_eq_ok h
  refine ⟨name, hname, ?_⟩
  split at h
  · rename_i hv
    cases h
    rw [hv]
    rfl
  · rename_i hv
    cases h
    rw [hv]
    rfl

def nameOf (suffix : RawText) (source : String) : Nat → RawText
  | 0 => source
  | n => (source : RawText) ++ suffix ++ (toString n : RawText)

/-- Each variable has the name that the declarations before it give it. -/
def Numbered (s : Scoping) : Prop :=
  ∀ l v r, s.vars = l ++ v :: r →
    v.name = nameOf s.suffix v.sourceName (l.countP (·.sourceName == v.sourceName))

theorem freshName_eq (source : String) : s.freshName source =
    nameOf s.suffix source (s.vars.countP (·.sourceName == source)) := by
  unfold freshName
  split
  · simp [nameOf, *]
  · simp [nameOf]

theorem Numbered.declared {v : Variable} (h : s.Numbered) (hsuffix : s'.suffix = s.suffix)
    (hvars : s'.vars = s.vars ++ [v]) (hv : v.name = s.freshName v.sourceName) :
    s'.Numbered := by
  intro l u r heq
  rw [hsuffix]
  rw [hvars] at heq
  rcases List.eq_nil_or_concat r with rfl | ⟨r, w, rfl⟩
  · obtain ⟨rfl, hlast⟩ := List.append_inj' heq rfl
    obtain rfl : v = u := by simpa using hlast
    exact hv.trans (freshName_eq _)
  · rw [List.concat_eq_append, ← List.cons_append, ← List.append_assoc] at heq
    exact h l u r (List.append_inj' heq rfl).1

theorem Numbered.perform {x : Step} (h : s.Numbered) (hx : perform src x s = .ok s') :
    s'.suffix = s.suffix ∧ s'.Numbered := by
  cases x with
  | declare ident isParameter =>
    obtain ⟨v, _, hv, rfl⟩ := exists_of_declare hx
    exact ⟨rfl, h.declared rfl rfl hv⟩
  | use ident =>
    obtain ⟨_, _, rfl⟩ := exists_of_resolve hx
    exact ⟨rfl, h⟩
  | enter =>
    cases hx
    exact ⟨rfl, h⟩
  | leave =>
    cases hx
    exact ⟨rfl, h⟩

theorem Numbered.performAll {xs : List Step} (h : s.Numbered)
    (hxs : performAll src xs s = .ok s') : s'.suffix = s.suffix ∧ s'.Numbered := by
  induction xs generalizing s with
  | nil =>
    cases hxs
    exact ⟨rfl, h⟩
  | cons x xs ih =>
    obtain ⟨s₁, hx, hxs⟩ := exists_of_bind_eq_ok hxs
    obtain ⟨hsuffix, hnumbered⟩ := h.perform hx
    rw [← hsuffix]
    exact ih hnumbered hxs

theorem numbered_ofFunction {suffix : RawText} {function : Tree}
    (h : ofFunction src suffix function = .ok s) : s.suffix = suffix ∧ s.Numbered := by
  rw [ofFunction_eq] at h
  refine Numbered.performAll (fun l v r heq => ?_) h
  simp at heq

end Backslice.Scoping

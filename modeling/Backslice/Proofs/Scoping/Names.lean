import Backslice.Proofs.Label
import Backslice.Proofs.Scoping.Lexical

namespace Backslice.Scoping

variable {src : Source} {s : Scoping} {suffix : RawText} {function : Tree} {xs : List Step}
  {c : CodePoint} {rest : List CodePoint} {a b : String}

theorem mem_points_nameOf (hmark : suffix.points = c :: rest) (a : String) (n : Nat) :
    c ∈ (nameOf suffix a (n + 1)).points := by
  simp [nameOf, hmark]

theorem nameOf_inj (hmark : suffix.points = c :: rest) (ha : c ∉ (a : RawText).points)
    (hb : c ∉ (b : RawText).points) {m n : Nat} (h : nameOf suffix a m = nameOf suffix b n) :
    a = b ∧ m = n := by
  match m, n with
  | 0, 0 => exact ⟨RawText.ofString_injective h, rfl⟩
  | 0, n + 1 =>
    refine absurd (mem_points_nameOf hmark b n) ?_
    rwa [← h]
  | m + 1, 0 =>
    refine absurd (mem_points_nameOf hmark a m) ?_
    rwa [h]
  | m + 1, n + 1 =>
    have hpoints := congrArg RawText.points h
    simp only [nameOf, RawText.points_append, hmark, List.append_assoc, List.cons_append]
      at hpoints
    obtain ⟨hsource, htail⟩ := append_cons_inj_of_fresh ha hb hpoints
    have hnumber : (toString (m + 1) : RawText) = (toString (n + 1) : RawText) :=
      congrArg RawText.mk (List.append_cancel_left htail)
    refine ⟨RawText.ofString_injective (congrArg RawText.mk hsource), ?_⟩
    exact Text.toString_nat_injective (RawText.ofString_injective hnumber)

theorem Numbered.nodup_names (h : s.Numbered) (hmark : s.suffix.points = c :: rest)
    (hfree : ∀ v ∈ s.vars, c ∉ (v.sourceName : RawText).points) :
    (s.vars.map (·.name)).Nodup := by
  rw [List.Nodup, List.pairwise_map, List.pairwise_iff_forall_sublist]
  intro u v hsub hname
  obtain ⟨before, after, hvars, hu, hv⟩ := List.cons_sublist_iff.mp hsub
  rw [List.singleton_sublist] at hv
  obtain ⟨l, m, rfl⟩ := List.append_of_mem hu
  obtain ⟨m', r, rfl⟩ := List.append_of_mem hv
  have hfirst := h l u (m ++ (m' ++ v :: r)) (by rw [hvars, List.append_assoc]; rfl)
  have hsecond := h (l ++ u :: m ++ m') v r (by rw [hvars, List.append_assoc (l ++ u :: m)])
  rw [hfirst, hsecond] at hname
  obtain ⟨hsource, hcount⟩ :=
    nameOf_inj hmark (hfree u (by simp [hvars])) (hfree v (by simp [hvars])) hname
  -- the first of the two counts for the second
  rw [hsource, List.countP_append, List.countP_append, List.countP_cons_of_pos (by simp [hsource])]
    at hcount
  omega

theorem exists_perform_iff {x : Step} : (∃ s', perform src x s = .ok s') ↔
    ∀ o ∈ Stand.idents [x], ∃ name, src.text o = .ok name := by
  cases x with
  | declare i isParameter =>
    cases hi : src.text i with
    | error e => simp [perform, declare, hi, Stand.idents, bind, Except.bind]
    | ok name => simp [perform, declare, hi, Stand.idents, bind, Except.bind, pure, Except.pure]
  | use o =>
    cases ho : src.text o with
    | error e => simp [perform, resolve, ho, Stand.idents, bind, Except.bind]
    | ok name =>
      cases hv : s.visible? name <;>
        simp [perform, resolve, ho, hv, Stand.idents, bind, Except.bind, pure, Except.pure]
  | enter n => simp [perform, Stand.idents]
  | leave => simp [perform, Stand.idents]

theorem exists_performAll_iff : (∃ s', performAll src xs s = .ok s') ↔
    ∀ o ∈ Stand.idents xs, ∃ name, src.text o = .ok name := by
  induction xs generalizing s with
  | nil => simp [performAll, Stand.idents]
  | cons x xs ih =>
    rw [← List.singleton_append, Stand.idents_append, List.forall_mem_append,
      ← exists_perform_iff (s := s)]
    constructor
    · rintro ⟨s', h⟩
      obtain ⟨s₁, hx, h⟩ := exists_of_bind_eq_ok h
      exact ⟨⟨s₁, hx⟩, ih.mp ⟨s', h⟩⟩
    · rintro ⟨⟨s₁, hx⟩, h⟩
      obtain ⟨s', h⟩ := ih.mpr h
      exact ⟨s', by rw [List.singleton_append, performAll, hx]; exact h⟩

def declarationsOf (function : Tree) : List (Tree × Bool) :=
  (parameterIdents function).map (·, true) ++ declarations (stepsOf (function.child? "body"))

theorem declarations_stepsOfFunction (function : Tree) :
    declarations (stepsOfFunction function) = declarationsOf function := by
  rw [stepsOfFunction, declarations, List.filterMap_append, List.filterMap_map, declarationsOf,
    ← List.filterMap_eq_map]
  rfl

theorem declares_ofFunction (h : ofFunction src suffix function = .ok s) :
    List.Forall₂ (Declares src) (declarationsOf function) s.vars := by
  rw [ofFunction_eq] at h
  obtain ⟨vs, hvs, hdeclares⟩ := vars_performAll h
  rw [← declarations_stepsOfFunction, hvs]
  exact hdeclares

theorem exists_of_declares {ds : List (Tree × Bool)} {vs : List Variable}
    (h : List.Forall₂ (Declares src) ds vs) {e : Tree × Bool} (he : e ∈ ds) :
    ∃ v ∈ vs, Declares src e v := by
  induction h with
  | nil => cases he
  | @cons _ v _ _ hv _ ih =>
    rcases List.mem_cons.mp he with rfl | he
    · exact ⟨v, List.mem_cons_self .., hv⟩
    · exact (ih he).imp fun w hw => ⟨List.mem_cons_of_mem _ hw.1, hw.2⟩

theorem free_of_declares {ds : List (Tree × Bool)} {vs : List Variable}
    (h : List.Forall₂ (Declares src) ds vs) (hfree : ∀ e ∈ ds, ∀ name, src.text e.1 = .ok name →
      c ∉ (name : RawText).points) : ∀ v ∈ vs, c ∉ (v.sourceName : RawText).points := by
  induction h with
  | nil => simp
  | cons hv _ ih =>
    rw [List.forall_mem_cons] at hfree ⊢
    exact ⟨hfree.1 _ hv.text, ih hfree.2⟩

/-- A character that stands in no identifier that the function declares. -/
def Foreign (src : Source) (function : Tree) (c : CodePoint) : Prop :=
  ∀ e ∈ declarationsOf function, ∀ name, src.text e.1 = .ok name → c ∉ (name : RawText).points

/-- Internal names. Every declaration of a function makes a variable; the first variable of an
identifier bears its name, the others a number behind the mark, whatever scopes they are in; and no
two variables have one name. -/
theorem names_unique (hmark : suffix.points = c :: rest) (hfree : Foreign src function c) :
    ((∃ s, ofFunction src suffix function = .ok s) ↔
      ∀ o ∈ Stand.idents (stepsOfFunction function), ∃ name, src.text o = .ok name) ∧
    ∀ s, ofFunction src suffix function = .ok s →
      List.Forall₂ (Declares src) (declarationsOf function) s.vars ∧
      (s.vars.map (·.name)).Nodup ∧
      ∀ before v after, s.vars = before ++ v :: after →
        ((∀ u ∈ before, u.sourceName ≠ v.sourceName) → v.name = v.sourceName) ∧
        ∀ k, 1 ≤ k → before.countP (·.sourceName == v.sourceName) = k →
          v.name = (v.sourceName : RawText) ++ suffix ++ (toString k : RawText) := by
  refine ⟨by rw [ofFunction_eq]; exact exists_performAll_iff, fun s h => ?_⟩
  obtain ⟨rfl, hnumbered⟩ := numbered_ofFunction h
  have hdeclares := declares_ofFunction h
  refine ⟨hdeclares, hnumbered.nodup_names hmark (free_of_declares hdeclares hfree),
    fun before v after hvars => ?_⟩
  rw [hnumbered before v after hvars]
  refine ⟨fun hfirst => ?_, fun k hk hcount => ?_⟩
  · rw [List.countP_eq_zero.mpr (by simpa using hfirst)]
    rfl
  · rw [hcount]
    obtain ⟨k, rfl⟩ := Nat.exists_eq_succ_of_ne_zero (Nat.ne_of_gt hk)
    rfl

def recurring : Source where
  bytes := "f(int x) \x7b \x7b int x; \x7d \x7b int x, x1; \x7d \x7d".toUTF8
  root := ⟨true, "function_definition", "", 0, 38, [
    ⟨true, "function_declarator", "declarator", 0, 8, [
      ⟨true, "parameter_list", "parameters", 1, 8, [
        ⟨true, "parameter_declaration", "", 2, 7, [
          ⟨true, "identifier", "declarator", 6, 7, []⟩]⟩]⟩]⟩,
    ⟨true, "compound_statement", "body", 9, 38, [
      ⟨true, "compound_statement", "", 11, 21, [
        ⟨true, "declaration", "", 13, 19, [⟨true, "identifier", "declarator", 17, 18, []⟩]⟩]⟩,
      ⟨true, "compound_statement", "", 22, 36, [
        ⟨true, "declaration", "", 24, 34, [⟨true, "identifier", "declarator", 28, 29, []⟩,
          ⟨true, "identifier", "declarator", 31, 33, []⟩]⟩]⟩]⟩]⟩
  damaged := false

set_option maxRecDepth 10000 in
theorem foreign_recurring (hc : ∀ name ∈ ["x", "x1"], c ∉ (name : RawText).points) :
    Foreign recurring recurring.root c := by
  have htexts : (declarationsOf recurring.root).map (recurring.text ·.1) =
      ["x", "x", "x", "x1"].map .ok := by decide +kernel
  intro e he name hname
  have hmem : .ok name ∈ (declarationsOf recurring.root).map (recurring.text ·.1) :=
    hname ▸ List.mem_map_of_mem he
  rw [htexts] at hmem
  refine hc name ?_
  simpa using hmem

set_option maxRecDepth 10000 in
theorem names_unique_recurring :
    Foreign recurring recurring.root (.char '#') ∧
    ∃ s, ofFunction recurring "#1" recurring.root = .ok s ∧
      s.vars.map (·.name) = ["x", "x#11", "x#12", "x1"] ∧ (s.vars.map (·.name)).Nodup := by
  have hfree : Foreign recurring recurring.root (.char '#') := foreign_recurring (by decide)
  have hmark : ("#1" : RawText).points = .char '#' :: [.char '1'] := rfl
  have hnames : (ofFunction recurring "#1" recurring.root).toOption.map (·.vars.map (·.name)) =
      some (["x", "x#11", "x#12", "x1"] : List RawText) := by decide +kernel
  obtain ⟨s, h, hvars⟩ := exists_of_map_toOption hnames
  have hunique := (names_unique hmark hfree).2 s h
  exact ⟨hfree, s, h, hvars, hunique.2.1⟩

end Backslice.Scoping

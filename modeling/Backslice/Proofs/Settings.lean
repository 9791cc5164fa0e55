import Backslice.Proofs.Naming
import Backslice.Settings

namespace Backslice

namespace Settings

variable {s st : Settings} {fields : List (RawText × Json)} {v : Json}

theorem eq_of_validated (h : s.validated = .ok st) : s = st ∧ st.fault? = none := by
  unfold validated at h
  split at h
  · cases h
  · rename_i hfault
    cases h
    exact ⟨rfl, hfault⟩

theorem fault?_eq_none_of_override (h : s.override fields = .ok st) : st.fault? = none := by
  simp only [override] at h
  split at h
  · exact (eq_of_validated h).2
  · cases h

theorem fault?_eq_none_of_merged (h : s.merged fields = .ok st) : st.fault? = none := by
  unfold merged at h
  split at h
  · cases h
  · exact fault?_eq_none_of_override h

theorem checks_of_fault?_eq_none (h : st.fault? = none) : isLanguage st.language = true ∧
    st.suffixMark.isTrue = true ∧ isBudget st.stepBudget = true := by
  unfold fault? at h
  repeat' split at h
  all_goals simp_all

theorem languageName_mem (h : st.fault? = none) : st.languageName ∈ languages := by
  have hlanguage := (checks_of_fault?_eq_none h).1
  unfold isLanguage at hlanguage
  split at hlanguage
  · rename_i text heq
    rw [languageName, heq]
    exact List.contains_iff_mem.mp hlanguage
  · cases hlanguage

theorem budget_eq_some_iff {b : Int} : st.budget = some b ↔ st.stepBudget = .int b := by
  unfold budget
  split <;> simp_all

theorem exists_budget (h : st.fault? = none) : ∃ b : Option Nat, st.budget = b.map Int.ofNat := by
  have hbudget := (checks_of_fault?_eq_none h).2.2
  unfold isBudget at hbudget
  split at hbudget
  · rename_i heq
    exact ⟨none, by simp only [budget, heq, Option.map_none]⟩
  · rename_i n heq
    refine ⟨some n.toNat, ?_⟩
    have hn : Int.ofNat n.toNat = n := Int.toNat_of_nonneg (Int.le_of_lt (by simpa using hbudget))
    simp only [budget, heq, Option.map_some, hn]
  · cases hbudget

theorem isDepth_of_fault? {e : SettingsError} (h : s.fault? = some e) : e.isDepth = false := by
  unfold fault? at h
  repeat' split at h
  all_goals cases h
  all_goals rfl

theorem isDepth_of_merged {e : SettingsError} (h : s.merged fields = .error e) :
    e.isDepth = false := by
  unfold merged at h
  split at h
  · cases h
    rfl
  · simp only [override] at h
    split at h
    · unfold validated at h
      split at h
      · rename_i hfault
        cases h
        exact isDepth_of_fault? hfault
      · cases h
    · cases h
      rfl

def KeepsMarks (name : String) : Prop := name ≠ "prefix_marker" ∧ name ≠ "suffix_marker"

theorem scheme_withField {name : String} (h : KeepsMarks name) (v : Json) :
    (s.withField name v).scheme = s.scheme := by
  unfold withField
  split
  · rfl
  · rfl
  · exact absurd rfl h.1
  · exact absurd rfl h.2
  · rfl
  · rfl
  · rfl

theorem scheme_foldl (h : ∀ f ∈ fields, KeepsMarks f.1.shown) :
    (fields.foldl (fun s f => s.withField f.1.shown f.2) s).scheme = s.scheme := by
  induction fields generalizing s with
  | nil => rfl
  | cons f fs ih =>
    rw [List.forall_mem_cons] at h
    rw [List.foldl_cons, ih h.2, scheme_withField h.1]

theorem scheme_merged (h : s.merged fields = .ok st)
    (hnames : ∀ f ∈ fields, KeepsMarks f.1.shown) : st.scheme = s.scheme := by
  unfold merged at h
  split at h
  · cases h
  · simp only [override] at h
    split at h
    · obtain ⟨rfl, _⟩ := eq_of_validated h
      exact scheme_foldl fun f hf => hnames f (List.mem_filter.mp hf).1
    · cases h

theorem points_ne_nil_of_given {text : RawText} (h : given v = .text text)
    (htrue : v.isTrue = true) : text.points ≠ [] := by
  unfold given at h
  split at h
  · cases h
    simpa [Json.isTrue, RawText.isEmpty] using htrue
  · simp [htrue] at h

end Settings

theorem keepIf_notText {α : Type} {test : α → Except NameError Bool} {a : α} {as : List α}
    (ha : a ∈ as) (h : test a = .error .notText) : keepIf test as = .error .notText := by
  induction as with
  | nil => cases ha
  | cons b as ih =>
    rw [keepIf]
    cases hb : test b with
    | error e =>
      cases e
      rfl
    | ok kept =>
      have hrest : a ∈ as := by
        refine (List.mem_cons.mp ha).resolve_left ?_
        rintro rfl
        cases h.symm.trans hb
      rw [ih hrest]
      rfl

namespace NameScheme

def HasAlien (scheme : NameScheme) : Prop :=
  ∃ written, scheme.versionMark = .alien written ∨ scheme.suffixMark = .alien written

def Spares (scheme : NameScheme) (text : RawText) : Prop :=
  ∀ mark : RawText, scheme.versionMark = .text mark ∨ scheme.suffixMark = .text mark →
    mark.points ≠ [] → ¬ mark.points <:+: text.points

variable {scheme : NameScheme} {raw name : RawText}

theorem isMangled_notText (halien : scheme.HasAlien) (hraw : scheme.Spares raw) :
    scheme.isMangled raw = .error .notText := by
  cases hv : scheme.versionMark with
  | alien => simp only [isMangled, hv, Marker.occursIn]; rfl
  | text version =>
    have hfree : (!version.isEmpty && Text.occurs version.points raw.points) = false := by
      refine Bool.eq_false_iff.mpr fun hocc => ?_
      rw [Bool.and_eq_true, Text.occurs_iff] at hocc
      exact hraw version (.inl hv) (by simpa [RawText.isEmpty] using hocc.1) hocc.2
    obtain ⟨written, hmark | hmark⟩ := halien
    · cases hv.symm.trans hmark
    · simp only [isMangled, hv, hmark, Marker.occursIn, hfree]
      rfl

theorem resolves_notText (halien : scheme.HasAlien) (hraw : scheme.Spares raw)
    (hne : raw ≠ name) : scheme.resolves raw (.text name) = .error .notText := by
  rw [resolves, if_neg (by simpa using hne.symm), isMangled_notText halien hraw]
  rfl

end NameScheme

namespace Scoping

open NameScheme

theorem Numbered.exists_first {s : Scoping} (h : s.Numbered) {v : Variable} (hv : v ∈ s.vars) :
    ∃ u ∈ s.vars, u.name = (v.sourceName : RawText) := by
  have hsome : (s.vars.find? (·.sourceName == v.sourceName)).isSome := by
    rw [List.find?_isSome]
    exact ⟨v, hv, by simp⟩
  obtain ⟨u, hu⟩ := Option.isSome_iff_exists.mp hsome
  obtain ⟨hsource, l, r, heq, hfirst⟩ := List.find?_eq_some_iff_append.mp hu
  replace hsource : u.sourceName = v.sourceName := by simpa using hsource
  have hcount : l.countP (·.sourceName == u.sourceName) = 0 := by
    rw [List.countP_eq_zero, hsource]
    simpa using hfirst
  refine ⟨u, heq ▸ by simp, ?_⟩
  rw [h l u r heq, hcount, hsource]
  rfl

variable {υ : Type} {src : Source} {function : Tree} {s : Scoping} {f : Facts υ} {st : Settings}
  {fields : List (RawText × Json)} {version suffix : RawText} {scheme : NameScheme}

theorem Numbered.exists_resolve (h : s.Numbered) (hf : ∀ v, v ∈ f.declared ↔ v ∈ s.vars)
    (hfree : ∀ v ∈ s.vars, (ofTexts version suffix).Spares v.sourceName) (name : RawText) :
    ∃ vs, f.resolve (ofTexts version suffix) (.text name) = .ok vs ∧
      ∀ v ∈ s.vars, (v.sourceName : RawText) = name →
        (v ∈ vs ↔ base version suffix v.name = v.sourceName) := by
  obtain ⟨vs, hvs, hresolved⟩ := Slice.resolve_ok f version suffix name
  refine ⟨vs, hvs, fun v hv hname => ?_⟩
  obtain ⟨n, hn⟩ := h.exists_name hv
  have hpart : (v.sourceName : RawText).points <:+: v.name.points :=
    hn ▸ sourceName_infix_nameOf s.suffix v.sourceName n
  rw [hresolved, Slice.Resolved, hf, NameScheme.resolves_iff, ← hname]
  constructor
  · rintro ⟨-, heq | ⟨-, heq⟩⟩
    · rw [heq]
      exact base_of_free (hfree v hv version (.inl rfl)) (hfree v hv suffix (.inr rfl))
    · exact heq
  · exact fun heq => ⟨hv, .inr ⟨hpart, heq⟩⟩

theorem Numbered.resolve_notText (h : s.Numbered) (hf : ∀ v, v ∈ f.declared ↔ v ∈ s.vars)
    (hfree : ∀ v ∈ s.vars, scheme.Spares v.sourceName) (halien : scheme.HasAlien)
    {u v : Variable} (hv : v ∈ s.vars) (hne : u.sourceName ≠ v.sourceName) :
    f.resolve scheme (.text u.sourceName) = .error .notText := by
  -- the first variable of the other name bears it unmarked, so a mark is looked for in it
  obtain ⟨w, hw, hname⟩ := h.exists_first hv
  refine keepIf_notText (List.mem_eraseDups.mpr ((hf w).mpr hw)) ?_
  rw [hname]
  exact resolves_notText halien (hfree v hv) fun heq => hne (RawText.ofString_injective heq).symm

structure Served (st : Settings) (vars : List Variable) (f : Facts υ) : Prop where
  /-- With texts for marks no name is refused, and a variable is found under its source name if
  just that name is left of its own without the marks. -/
  found : ∀ version suffix, st.scheme = ofTexts version suffix → ∀ name, ∃ vs,
    f.resolve st.scheme (.text name) = .ok vs ∧
      ∀ v ∈ vars, (v.sourceName : RawText) = name →
        (v ∈ vs ↔ base version suffix v.name = v.sourceName)
  /-- It is left if the suffix mark shares no letter with the version mark and the identifier. -/
  kept : ∀ version suffix, st.scheme = ofTexts version suffix → ∀ v ∈ vars,
    (∀ c ∈ suffix.points, c ∉ version.points ∧ c ∉ (v.sourceName : RawText).points) →
      base version suffix v.name = v.sourceName
  /-- With any other mark, of two source names neither can be asked for. -/
  refused : st.scheme.HasAlien → ∀ u ∈ vars, ∀ v ∈ vars, u.sourceName ≠ v.sourceName →
    f.resolve st.scheme (.text u.sourceName) = .error .notText

/-- Accepted settings serve every variable that a function declares, if no mark stands in its
identifiers. -/
theorem served_of_accepted (hst : Settings.ofFields fields = .ok st)
    (hs : ofFunction src st.scheme.suffixMark.written function = .ok s)
    (hf : ∀ v, v ∈ f.declared ↔ v ∈ s.vars)
    (hfree : ∀ v ∈ s.vars, st.scheme.Spares v.sourceName) :
    List.Forall₂ (Declares src) (declarationsOf function) s.vars ∧ Served st s.vars f := by
  obtain ⟨hsuffix, hnumbered⟩ := numbered_ofFunction hs
  refine ⟨declares_ofFunction hs, ?_⟩
  constructor
  · intro version suffix hmarks name
    rw [hmarks] at hfree ⊢
    exact hnumbered.exists_resolve hf hfree name
  · intro version suffix hmarks v hv hletters
    have htext : Settings.given st.suffixMark = .text suffix :=
      congrArg NameScheme.suffixMark hmarks
    have hne : suffix.points ≠ [] := Settings.points_ne_nil_of_given htext
      (Settings.checks_of_fault?_eq_none (Settings.fault?_eq_none_of_override hst)).2.1
    rw [hmarks] at hfree hsuffix
    have hfits : Fits version suffix v.sourceName := {
      apart c hc := (hletters c hc).1
      version := hfree v hv version (.inl rfl)
      suffix := Text.not_infix_append_dropLast hne fun c hc => (hletters c hc).2 }
    obtain ⟨n, hn⟩ := hnumbered.exists_name hv
    rw [hn, hsuffix]
    exact hfits.base_nameOf n
  · intro halien u _ v hv hne
    exact hnumbered.resolve_notText hf hfree halien hv hne

def shadowed : Source where
  bytes := "f() \x7b int x; \x7b int x; \x7d \x7d".toUTF8
  root := ⟨true, "function_definition", "", 0, 25, [⟨true, "compound_statement", "body", 4, 25, [
    ⟨true, "declaration", "", 6, 12, [⟨true, "identifier", "declarator", 10, 11, []⟩]⟩,
    ⟨true, "compound_statement", "", 13, 23, [
      ⟨true, "declaration", "", 15, 21, [⟨true, "identifier", "declarator", 19, 20, []⟩]⟩]⟩]⟩]⟩
  damaged := false

theorem exists_ofFunction_shadowed : ∃ s, ofFunction shadowed "#" shadowed.root = .ok s ∧
    s.vars = [⟨"x", "x", some 1, false⟩, ⟨"x#1", "x", some 1, false⟩] :=
  exists_of_map_toOption (by decide +kernel)

set_option maxRecDepth 10000 in
theorem served_of_accepted_shadowed :
    ∃ st s, Settings.ofFields [("prefix_marker", .text "@")] = .ok st ∧
      ofFunction shadowed st.scheme.suffixMark.written shadowed.root = .ok s ∧
      (∀ v ∈ s.vars, st.scheme.Spares v.sourceName) ∧ Served st s.vars (factsOf s.vars) ∧
      s.vars.map (·.name) = ["x", "x#1"] ∧
      (factsOf s.vars).resolve st.scheme (.text "x") = .ok s.vars := by
  obtain ⟨s, hs, hvars⟩ := exists_ofFunction_shadowed
  have hst : Settings.ofFields [("prefix_marker", .text "@")] =
    .ok { versionMark := .text "@" } := rfl
  have hfree : ∀ v ∈ s.vars, (ofTexts "@" "#").Spares v.sourceName := by
    rw [hvars]
    rintro v hv mark (hmark | hmark) <;> cases hmark <;> revert v hv <;> decide
  have hserved := served_of_accepted (f := factsOf s.vars) hst hs (fun v => Iff.rfl) hfree
  refine ⟨_, s, hst, hs, hfree, hserved.2, ?_, ?_⟩
  · rw [hvars]
    rfl
  · rw [hvars]
    decide

def paired : Source where
  bytes := "f(int x, int y) \x7b \x7d".toUTF8
  root := ⟨true, "function_definition", "", 0, 19, [
    ⟨true, "function_declarator", "declarator", 0, 15, [
      ⟨true, "identifier", "declarator", 0, 1, []⟩,
      ⟨true, "parameter_list", "parameters", 1, 15, [
        ⟨true, "parameter_declaration", "", 2, 7, [⟨true, "identifier", "declarator", 6, 7, []⟩]⟩,
        ⟨true, "parameter_declaration", "", 9, 14, [
          ⟨true, "identifier", "declarator", 13, 14, []⟩]⟩]⟩]⟩,
    ⟨true, "compound_statement", "body", 16, 19, []⟩]⟩
  damaged := false

set_option maxRecDepth 10000 in
/-- Accepted settings may hold a number for a mark, and then no variable can be asked for. Or they
may hold one text for both marks, and then a variable is lost. -/
theorem accepted_not_served :
    (∃ st s, Settings.ofFields [("suffix_marker", .int 5)] = .ok st ∧
      ofFunction paired st.scheme.suffixMark.written paired.root = .ok s ∧
      (∀ v ∈ s.vars, st.scheme.Spares v.sourceName) ∧
      (factsOf s.vars).resolve st.scheme (.text "x") = .error .notText) ∧
    ∃ st s, Settings.ofFields [("prefix_marker", .text "#")] = .ok st ∧
      ofFunction shadowed st.scheme.suffixMark.written shadowed.root = .ok s ∧
      (∀ v ∈ s.vars, st.scheme.Spares v.sourceName) ∧
      ∃ v ∈ s.vars, ∃ vs, (factsOf s.vars).resolve st.scheme (.text v.sourceName) = .ok vs ∧
        v ∉ vs := by
  constructor
  · have hpaired : (ofFunction paired "5" paired.root).toOption.map (·.vars) =
        some [⟨"x", "x", some 1, true⟩, ⟨"y", "y", some 1, true⟩] := by decide +kernel
    obtain ⟨s, hs, hvars⟩ := exists_of_map_toOption hpaired
    refine ⟨{ suffixMark := .int 5 }, s, rfl, hs, ?_, ?_⟩
    · rw [hvars]
      rintro v hv mark (hmark | hmark) <;> cases hmark
      revert v hv
      decide
    · rw [hvars]
      decide
  · obtain ⟨s, hs, hvars⟩ := exists_ofFunction_shadowed
    refine ⟨{ versionMark := .text "#" }, s, rfl, hs, ?_, ⟨"x#1", "x", some 1, false⟩, ?_,
      [⟨"x", "x", some 1, false⟩], ?_, by decide⟩
    · rw [hvars]
      rintro v hv mark (hmark | hmark) <;> cases hmark <;> revert v hv <;> decide
    · rw [hvars]
      decide
    · rw [hvars]
      decide

end Scoping

end Backslice

import Backslice.Command.Run
import Backslice.Proofs.Command.Arguments
import Backslice.Proofs.Command.Workspace
import Backslice.Proofs.Lines
import Backslice.Proofs.Settings
import Backslice.Proofs.Slice.Paths

/-!
How a run of the command ends. Settings, source, function, name and budget are checked in this
order, the first check that fails gives the status, and the output is written only if none fails.
-/

namespace Backslice

namespace Source

variable {src : Source} {wanted : GivenText} {t t' : Tree} {ts : List Tree}

def Named (src : Source) (wanted : GivenText) (t : Tree) : Prop :=
  ∃ name : String, src.functionName? t = .ok (some name) ∧ wanted = .text name

def Defines (src : Source) (wanted : GivenText) (t : Tree) : Prop :=
  t.kind = "function_definition" ∧ src.Named wanted t

/-- The first definition of a function with the name. -/
def Finds (src : Source) (wanted : GivenText) (t : Tree) : Prop :=
  src.Defines wanted t ∧ ∃ before after, src.root.nodes = before ++ t :: after ∧
    ∀ u ∈ before, ¬ src.Defines wanted u

theorem named_iff : src.Named wanted t ↔ ((src.functionName? t).toOption.any fun name? =>
    name?.any fun name => wanted.is name) = true := by
  unfold Named
  cases src.functionName? t with
  | error e => simp [Except.toOption]
  | ok name? =>
    cases name? with
    | none => simp [Except.toOption]
    | some name => cases wanted <;> simp [Except.toOption, GivenText.is]

instance : DecidablePred (src.Named wanted) := fun _ => decidable_of_iff _ named_iff.symm

instance : DecidablePred (src.Defines wanted) := fun t =>
  inferInstanceAs (Decidable (t.kind = "function_definition" ∧ src.Named wanted t))

theorem finds_iff : src.Finds wanted t ↔ src.root.nodes.find? (src.Defines wanted ·) = some t := by
  simp [List.find?_eq_some_iff_append, Finds]

theorem Finds.unique (h : src.Finds wanted t) (h' : src.Finds wanted t') : t = t' :=
  Option.some.inj ((finds_iff.mp h).symm.trans (finds_iff.mp h'))

theorem findFunction?_eq {found : Option Tree} (h : src.findFunction? wanted ts = .ok found) :
    found = ts.find? (src.Named wanted ·) := by
  induction ts with
  | nil =>
    cases h
    rfl
  | cons t ts ih =>
    rw [findFunction?] at h
    obtain ⟨name?, hname, h⟩ := exists_of_bind_eq_ok h
    have hnamed : src.Named wanted t ↔ (name?.any fun name => wanted.is name) = true := by
      rw [named_iff, hname]
      rfl
    rw [List.find?_cons]
    split at h
    · rename_i hany
      cases h
      rw [decide_eq_true (hnamed.mpr hany)]
    · rename_i hany
      rw [decide_eq_false (mt hnamed.mp hany)]
      exact ih h

theorem find?_defines_eq (src : Source) (wanted : GivenText) :
    src.root.nodes.find? (src.Defines wanted ·) =
      src.root.functions.find? (src.Named wanted ·) := by
  rw [Tree.functions_eq_filter, List.find?_filter]
  congr 1
  funext u
  rw [Bool.eq_iff_iff]
  simp only [decide_eq_true_iff]
  exact .rfl

end Source

namespace Analysis

variable {src : Source} {language : String} {wanted : GivenText} {suffix : RawText} {a : Analysis}

theorem outcome_accept (h : language ∈ languages) : (accept src language).outcome = .ok ⟨⟩ := by
  unfold accept
  rw [if_neg (not_not_intro h)]
  split
  · rfl
  · rfl

theorem outcome_ofSource (src : Source) (wanted : GivenText) (suffix : RawText)
    (h : language ∈ languages) :
    (ofSource src language wanted suffix).outcome =
      findFunction src wanted >>= fun function =>
        (flowOf src suffix function).mapError .tree >>= fun flow =>
          (ofGraph flow.2.graph flow.1.vars).mapError .flow := by
  simp only [ofSource, Traced.outcome_bind, outcome_accept h, Traced.outcome_lift, ok_bind]
  cases findFunction src wanted with
  | error e => simp only [Except.mapError, error_bind, id]
  | ok function =>
    simp only [Except.mapError, ok_bind]
    cases flowOf src suffix function with
    | error e => simp only [error_bind]
    | ok flow =>
      obtain ⟨scoping, draft⟩ := flow
      simp only [ok_bind, Traced.outcome_reportAll, Traced.outcome_report, Traced.outcome_pure]
      cases ofGraph draft.graph scoping.vars with
      | error e => simp only [error_bind]
      | ok a => simp only [ok_bind]

theorem finds_of_findFunction {t : Tree} (h : findFunction src wanted = .ok t) :
    src.Finds wanted t := by
  unfold findFunction at h
  split at h
  · cases h
  · cases h
  · rename_i t' hfound
    cases h
    rw [Source.finds_iff, Source.find?_defines_eq, ← Source.findFunction?_eq hfound]

theorem not_defines_of_findFunction {name : String} {t : Tree}
    (h : findFunction src wanted = .error (.functionNotFound name)) (ht : t ∈ src.root.nodes) :
    ¬ src.Defines wanted t := by
  unfold findFunction at h
  split at h
  · cases h
  · rename_i hnone
    have hfind := Source.find?_defines_eq src wanted
    rw [← Source.findFunction?_eq hnone, List.find?_eq_none] at hfind
    simpa using hfind t ht
  · cases h

theorem eq_of_ofGraph {g : Graph} {vars : List Variable} (h : ofGraph g vars = .ok a) :
    a.graph = g ∧ a.vars = vars := by
  obtain ⟨_, _, h⟩ := exists_of_bind_eq_ok h
  obtain ⟨_, _, h⟩ := exists_of_bind_eq_ok h
  cases h
  exact ⟨rfl, rfl⟩

theorem ofGraph_ok_of_flowOf {function : Tree} {scoping : Scoping} {draft : Flow.Draft}
    (h : flowOf src suffix function = .ok (scoping, draft)) :
    ∃ a, ofGraph draft.graph scoping.vars = .ok a ∧ a.graph = draft.graph ∧
      Exact a.graph a.vars a.facts ∧ DependenceGraph.Closed a.facts := by
  obtain ⟨body, _, rfl⟩ := exists_body_of_flowOf h
  obtain ⟨hfit, _⟩ := Flow.build_ok scoping.parameters body
  obtain ⟨a, ha, hexact⟩ := ofGraph_ok hfit.built.sound hfit.successors_exit scoping.vars
  obtain ⟨hgraph, hvars⟩ := eq_of_ofGraph ha
  refine ⟨a, ha, hgraph, ?_, hexact.closed hfit.built.sound⟩
  rw [hgraph, hvars]
  exact hexact

end Analysis

namespace Command

open NameScheme

def code? (c : Command) (w : Workspace) : Option String :=
  match c.file with
  | .filled path => (w.read path).toOption.bind fun content =>
    (String.fromUTF8? content).map fun text => String.ofList (unifyLines text.toList)
  | .blank => none

def sourceOf (treeOf : String → Tree × Bool) (code : String) : Source :=
  ⟨code.toUTF8, (treeOf code).1, (treeOf code).2⟩

/-- The settings of a run: those of its file are accepted, and still are with the options over
them. -/
def Configured (c : Command) (w : Workspace) (s : Settings) : Prop :=
  ∃ base, c.fileSettings w = .ok (.ok base) ∧ base.merged c.overrides = .ok s

/-- The analysis of the first function with the name that is asked for. -/
def Analysed (treeOf : String → Tree × Bool) (s : Settings) (code : String) (a : Analysis) :
    Prop :=
  ∃ t flow, (sourceOf treeOf code).Finds s.functionName t ∧
    Analysis.flowOf (sourceOf treeOf code) s.scheme.suffixMark.written t = .ok flow ∧
    Analysis.ofGraph flow.2.graph flow.1.vars = .ok a

def Known (c : Command) (a : Analysis) (s : Settings) : Prop :=
  ∃ name y, c.name = .filled name ∧ Slice.Resolved a.vars s.scheme name y

/-- The units of the slice are more than the budget admits. -/
def Exceeds (c : Command) (a : Analysis) (s : Settings) : Prop :=
  ∃ (name : String) (l b : Int) (units : List NodeId), c.name = .filled name ∧
    c.line = .filled l ∧ units.Nodup ∧
    (∀ u, u ∈ units ↔ Slice.Member a.graph a.vars s.scheme l name u) ∧
    s.stepBudget = .int b ∧ b < units.length

inductive Answers (c : Command) (a : Analysis) (s : Settings) : Nat → Option (List Label) → Prop
  | unknownName : ¬ Known c a s → Answers c a s 2 none
  | overBudget : Known c a s → Exceeds c a s → Answers c a s 3 none
  | sliced {labels : List Label} : Known c a s → ¬ Exceeds c a s →
      (Slice.query a.facts s.scheme s.budget c.criterion).outcome = .ok labels →
      Answers c a s 0 (some labels)

/-- How a run ends: at the first check that fails, or with its answer. -/
inductive Ends (c : Command) (treeOf : String → Tree × Bool) (w : Workspace) :
    Nat → Option (List Label) → Prop
  | badSettings : (∀ s, ¬ Configured c w s) → Ends c treeOf w 1 none
  | unreadable {s : Settings} : Configured c w s → c.code? w = none → Ends c treeOf w 1 none
  | noFunction {s : Settings} {code : String} : Configured c w s → c.code? w = some code →
      (∀ t ∈ (sourceOf treeOf code).root.nodes,
        ¬ (sourceOf treeOf code).Defines s.functionName t) →
      Ends c treeOf w 1 none
  | answered {s : Settings} {code : String} {a : Analysis} {n : Nat}
      {labels : Option (List Label)} : Configured c w s → c.code? w = some code →
      Analysed treeOf s code a → Answers c a s n labels →
      Ends c treeOf w n labels

/-- What the output holds after a run: the labels in order, a tab behind each, or what it held
before. -/
inductive Held (before : Option ByteArray) : Option (List Label) → Option ByteArray → Prop
  | kept : Held before none before
  | saved {labels ordered : List Label} : ordered.Perm labels → ordered.Pairwise Label.Higher →
      Held before (some labels) (some (Label.tabbed ordered).toUTF8)

variable {c : Command} {treeOf : String → Tree × Bool} {w : Workspace} {s s' : Settings}
  {code : String} {a : Analysis} {f : Facts NodeId} {n n' : Nat}
  {labels labels' : Option (List Label)} {place : Place}

theorem Configured.unique (h : Configured c w s) (h' : Configured c w s') : s = s' := by
  obtain ⟨base, hbase, hs⟩ := h
  obtain ⟨base', hbase', hs'⟩ := h'
  cases hbase.symm.trans hbase'
  exact Except.ok.inj (hs.symm.trans hs')

theorem Configured.fault?_eq_none (h : Configured c w s) : s.fault? = none := by
  obtain ⟨base, _, hs⟩ := h
  exact Settings.fault?_eq_none_of_merged hs

theorem Answers.unique (h : Answers c a s n labels) (h' : Answers c a s n' labels') :
    n = n' ∧ labels = labels' := by
  cases h with
  | unknownName hnone =>
    cases h' with
    | unknownName => exact ⟨rfl, rfl⟩
    | overBudget hknown => exact absurd hknown hnone
    | sliced hknown => exact absurd hknown hnone
  | overBudget hknown hexceeds =>
    cases h' with
    | unknownName hnone => exact absurd hknown hnone
    | overBudget => exact ⟨rfl, rfl⟩
    | sliced _ hfits => exact absurd hexceeds hfits
  | sliced hknown hfits hout =>
    cases h' with
    | unknownName hnone => exact absurd hknown hnone
    | overBudget _ hexceeds => exact absurd hexceeds hfits
    | sliced _ _ hout' =>
      cases hout.symm.trans hout'
      exact ⟨rfl, rfl⟩

theorem Analysed.unique {a' : Analysis} (h : Analysed treeOf s code a)
    (h' : Analysed treeOf s code a') : a = a' := by
  obtain ⟨t, flow, ht, hflow, ha⟩ := h
  obtain ⟨t', flow', ht', hflow', ha'⟩ := h'
  obtain rfl := ht.unique ht'
  cases hflow.symm.trans hflow'
  exact Except.ok.inj (ha.symm.trans ha')

theorem Analysed.exists_defines (h : Analysed treeOf s code a) :
    ∃ t ∈ (sourceOf treeOf code).root.nodes, (sourceOf treeOf code).Defines s.functionName t := by
  obtain ⟨t, _, ⟨hdefines, before, after, hnodes, _⟩, _⟩ := h
  exact ⟨t, by rw [hnodes]; simp, hdefines⟩

theorem Ends.unique (h : Ends c treeOf w n labels) (h' : Ends c treeOf w n' labels') :
    n = n' ∧ labels = labels' := by
  cases h with
  | badSettings hnone =>
    cases h' with
    | badSettings => exact ⟨rfl, rfl⟩
    | unreadable hs => exact absurd hs (hnone _)
    | noFunction hs => exact absurd hs (hnone _)
    | answered hs => exact absurd hs (hnone _)
  | unreadable hs hcode =>
    cases h' with
    | badSettings hnone => exact absurd hs (hnone _)
    | unreadable => exact ⟨rfl, rfl⟩
    | noFunction _ hcode' => cases hcode.symm.trans hcode'
    | answered _ hcode' => cases hcode.symm.trans hcode'
  | noFunction hs hcode hfunction =>
    cases h' with
    | badSettings hnone => exact absurd hs (hnone _)
    | unreadable _ hcode' => cases hcode.symm.trans hcode'
    | noFunction => exact ⟨rfl, rfl⟩
    | answered hs' hcode' ha =>
      obtain rfl := hs.unique hs'
      cases hcode.symm.trans hcode'
      obtain ⟨t, ht, hdefines⟩ := ha.exists_defines
      exact absurd hdefines (hfunction t ht)
  | answered hs hcode ha hanswer =>
    cases h' with
    | badSettings hnone => exact absurd hs (hnone _)
    | unreadable _ hcode' => cases hcode.symm.trans hcode'
    | noFunction hs' hcode' hfunction =>
      obtain rfl := hs.unique hs'
      cases hcode.symm.trans hcode'
      obtain ⟨t, ht, hdefines⟩ := ha.exists_defines
      exact absurd hdefines (hfunction t ht)
    | answered hs' hcode' ha' hanswer' =>
      obtain rfl := hs.unique hs'
      cases hcode.symm.trans hcode'
      obtain rfl := ha.unique ha'
      exact hanswer.unique hanswer'

structure Writable (c : Command) (w : Workspace) (place : Place) : Prop where
  output : ∃ path, c.output = .filled path ∧ w.locateNew path = .ok place
  kept : place ≠ .nullDevice
  picture : ∀ path, path? c.picture = some path →
    ∃ p, w.locateNew (path ++ ".dot") = .ok p ∧ p ≠ place

section Slice

variable {g : DependenceGraph NodeId}

theorem writePicture_ok (hg : DependenceGraph.ofFacts f = .ok g) (h : Writable c w place) :
    ∃ w' pictured, c.writePicture f w = .ok (w', pictured) ∧
      w'.contentOf? place = w.contentOf? place ∧
      ∀ path, w.locateNew path = .ok place → w'.locateNew path = .ok place := by
  unfold writePicture
  split
  · exact ⟨w, [], rfl, rfl, fun _ => id⟩
  · rename_i path hpath
    obtain ⟨p, hp, hne⟩ := h.picture path hpath
    obtain ⟨w', hw', hwrites⟩ := Workspace.write_ok hp (Dot.picture f g path)
    simp only [hg, hw']
    exact ⟨w', _, rfl, hwrites.contentOf?_of_ne place hne.symm,
      fun path hplace => hwrites.locateNew path place hplace⟩

theorem printEdges_ok (hg : DependenceGraph.ofFacts f = .ok g) :
    ∃ edges, c.printEdges f = .ok edges := by
  unfold printEdges
  split
  · simp only [hg]
    exact ⟨_, rfl⟩
  · exact ⟨[], rfl⟩

theorem save_ok {path : String} {ls : List Label} (hpath : c.output = .filled path)
    (hplace : w.locateNew path = .ok place) (hkept : place ≠ .nullDevice)
    (hnodup : ls.Nodup) (hshort : ∀ n, Label.line n ∈ ls → Text.Short n) (code : String) :
    ∃ w' saved, c.save code ls w = .ok (w', saved) ∧
      Held (w.contentOf? place) (some ls) (w'.contentOf? place) := by
  obtain ⟨w', hw', hwrites⟩ := Workspace.write_ok hplace
    (Label.saved ((sortBy Label.precedes ls).map Label.text))
  obtain ⟨shown, hshown⟩ := Label.exists_listing_text hshort code
  have hheld : Held (w.contentOf? place) (some ls) (w'.contentOf? place) := by
    rw [hwrites.contentOf?_self hkept, Label.saved_map_text]
    exact .saved (sortBy_perm _ ls) (Label.pairwise_higher_sortBy hnodup)
  refine ⟨w', ?_⟩
  simp only [save, Label.sort_text hshort, hpath, requiredPath, hw', hshown, Except.mapError,
    ok_bind]
  split
  · exact ⟨_, rfl, hheld⟩
  · exact ⟨_, rfl, hheld⟩

theorem criterion_of_line {l : Int} {name : String} (hline : c.line = .filled l)
    (hname : c.name = .filled name) : c.criterion = ⟨some l, .text name⟩ := by
  simp only [criterion, hline, hname]

theorem criterion_of_blank {name : String} (hline : c.line = .blank)
    (hname : c.name = .filled name) : c.criterion = ⟨none, .text name⟩ := by
  simp only [criterion, hline, hname]

theorem line_of_criterion {n : Int} (h : c.criterion.line = some n) : c.line = .filled n := by
  unfold criterion at h
  cases hl : c.line with
  | filled m =>
    rw [hl] at h
    cases h
    rfl
  | blank =>
    rw [hl] at h
    cases h

theorem short_of_mem {n : Int} (hline : c.LineShort)
    (hlines : ∀ u n, f.line u = some n → Text.Short n)
    (h : (∃ m, c.criterion.line = some m ∧ Label.line n = .line m) ∨
      ∃ u, Label.line n = .ofLine (f.line u)) : Text.Short n := by
  rcases h with ⟨m, hm, heq⟩ | ⟨u, hu⟩
  · cases heq
    exact hline n (line_of_criterion hm)
  · cases hl : f.line u with
    | none =>
      rw [hl] at hu
      cases hu
    | some m =>
      rw [hl] at hu
      cases hu
      exact hlines u n hl

theorem known_iff {name : String} (hname : c.name = .filled name) :
    Known c a s ↔ ∃ y, Slice.Resolved a.vars s.scheme name y := by
  constructor
  · rintro ⟨name', y, hname', hy⟩
    cases hname.symm.trans hname'
    exact ⟨y, hy⟩
  · rintro ⟨y, hy⟩
    exact ⟨name, y, hname, hy⟩

theorem not_exceeds {name : String} {l : Int} {units : List NodeId} (hname : c.name = .filled name)
    (hline : c.line = .filled l) (hnodup : units.Nodup)
    (hmem : ∀ u, u ∈ units ↔ Slice.Member a.graph a.vars s.scheme l name u)
    (hfits : ∀ b, s.budget = some b → units.length ≤ b) : ¬ Exceeds c a s := by
  rintro ⟨name', l', b, units', hname', hline', hnodup', hmem', hb, hexceeds⟩
  cases hname.symm.trans hname'
  cases hline.symm.trans hline'
  have hperm : units.Perm units' := (List.perm_ext_iff_of_nodup hnodup hnodup').mpr fun u =>
    (hmem u).trans (hmem' u).symm
  have hle := hfits b (Settings.budget_eq_some_iff.mpr hb)
  rw [hperm.length_eq] at hle
  omega

inductive Settles (c : Command) (a : Analysis) (s : Settings) :
    Except (SliceError NodeId) (List Label) → Prop
  | unknown {name : GivenText} : ¬ Known c a s → Settles c a s (.error (.unknownVariable name))
  | truncated {b : Int} {visited : Nat} : Known c a s → Exceeds c a s →
      Settles c a s (.error (.truncated b visited))
  | sliced {labels : List Label} : Known c a s → ¬ Exceeds c a s → labels.Nodup →
      Settles c a s (.ok labels)

theorem query_settles {version suffix : RawText} {name : String}
    (hexact : Analysis.Exact a.graph a.vars a.facts) (hclosed : DependenceGraph.Closed a.facts)
    (hs : s.fault? = none) (hmarks : s.scheme = ofTexts version suffix)
    (hname : c.name = .filled name) :
    Settles c a s (Slice.query a.facts s.scheme s.budget c.criterion).outcome := by
  obtain ⟨budget, hbudget⟩ := Settings.exists_budget hs
  cases hline : c.line with
  | blank =>
    -- no unit is on a line that is not given, so the slice is empty
    have hfits : ¬ Exceeds c a s := by
      rintro ⟨_, _, _, _, _, hline', _⟩
      cases hline.symm.trans hline'
    rw [criterion_of_blank hline hname, hmarks]
    by_cases hknown : Known c a s
    · obtain ⟨y, hy⟩ := (known_iff hname).mp hknown
      rw [Slice.outcome_no_line hclosed ⟨y, (Slice.resolved_iff hexact).mpr (hmarks ▸ hy)⟩]
      exact .sliced hknown hfits .nil
    · rw [Slice.outcome_unknown _ fun y hy => hknown ((known_iff hname).mpr
        ⟨y, hmarks ▸ (Slice.resolved_iff hexact).mp hy⟩)]
      exact .unknown hknown
  | filled l =>
    have hanswer := Slice.answer_of_exact hexact hclosed version suffix name l budget
    rw [← hmarks, ← hbudget, ← criterion_of_line hline hname] at hanswer
    generalize (Slice.query a.facts s.scheme s.budget c.criterion).outcome = out at hanswer
    cases hanswer with
    | unknown hnone =>
      refine .unknown fun hknown => ?_
      obtain ⟨y, hy⟩ := (known_iff hname).mp hknown
      exact hnone y hy
    | vacuous hname' hnone =>
      have hempty : ∀ u, u ∈ [] ↔ Slice.Member a.graph a.vars s.scheme l name u := fun u =>
        ⟨nofun, fun hu => by
          obtain ⟨p, hp⟩ := hu.exists_start
          exact absurd hp (hnone p)⟩
      refine .sliced ((known_iff hname).mpr hname') (not_exceeds hname hline .nil hempty ?_) .nil
      intro b hb
      rw [hbudget] at hb
      obtain ⟨k, _, rfl⟩ := Option.map_eq_some_iff.mp hb
      exact Int.natCast_nonneg k
    | @truncated units b hname' _ hnodup hmem hb hexceeds =>
      refine .truncated ((known_iff hname).mpr hname')
        ⟨name, l, b, units, hname, hline, hnodup, hmem, ?_, Int.ofNat_lt.mpr hexceeds⟩
      rw [← Settings.budget_eq_some_iff, hbudget, hb]
      rfl
    | @complete units labels hname' _ hnodup hmem hfits hlabels _ =>
      refine .sliced ((known_iff hname).mpr hname')
        (not_exceeds hname hline hnodup hmem fun b hb => ?_) hlabels
      rw [hbudget] at hb
      obtain ⟨k, hk, rfl⟩ := Option.map_eq_some_iff.mp hb
      exact Int.ofNat_le.mpr (hfits k hk)

theorem slice_answers {version suffix : RawText} {name : String}
    (hexact : Analysis.Exact a.graph a.vars a.facts) (hclosed : DependenceGraph.Closed a.facts)
    (hs : s.fault? = none) (hmarks : s.scheme = ofTexts version suffix)
    (hname : c.name = .filled name) (hline : c.LineShort)
    (hlines : ∀ u n, a.facts.line u = some n → Text.Short n) (hw : Writable c w place)
    (code : String) (before : List Output) :
    ∃ report labels, c.slice s code a.facts w before = .ok report ∧
      Answers c a s report.status labels ∧
      Held (w.contentOf? place) labels (report.workspace.contentOf? place) := by
  obtain ⟨g, hg, _⟩ := DependenceGraph.ofFacts_ok hclosed
  obtain ⟨w', pictured, hpicture, hcontent, hplace⟩ := writePicture_ok hg hw
  obtain ⟨edges, hedges⟩ := printEdges_ok (c := c) hg
  have hkept : Held (w.contentOf? place) none (w'.contentOf? place) := hcontent ▸ .kept
  have hsettles := query_settles hexact hclosed hs hmarks hname
  simp only [slice, hpicture, hedges, ok_bind]
  generalize hout : (Slice.query a.facts s.scheme s.budget c.criterion).outcome = out at hsettles
  cases hsettles with
  | unknown hnone => exact ⟨_, none, rfl, .unknownName hnone, hkept⟩
  | truncated hknown hexceeds => exact ⟨_, none, rfl, .overBudget hknown hexceeds, hkept⟩
  | @sliced ls hknown hfits hnodup =>
    have hshort : ∀ n, Label.line n ∈ ls → Text.Short n := by
      have hcriterion : c.criterion = ⟨c.criterion.line, .text name⟩ := by
        simp only [criterion, hname]
      rw [hmarks, hcriterion] at hout
      exact fun n hn => short_of_mem hline hlines (Slice.query_labels hclosed hout hn)
    obtain ⟨path, hpath, hlocate⟩ := hw.output
    obtain ⟨w'', saved, hsave, hheld⟩ :=
      save_ok hpath (hplace path hlocate) hw.kept hnodup hshort code
    rw [hcontent] at hheld
    simp only [hsave, ok_bind]
    exact ⟨_, some ls, rfl, .sliced hknown hfits hout, hheld⟩

end Slice

/-- What a run may rely on. Its arguments leave neither the source nor the name blank. A file of
settings is missing or can be read, does not nest too deep, and gives texts for marks. The source is
text, it has no more lines than can be counted, and its tree follows the grammar. -/
structure Fair (c : Command) (treeOf : String → Tree × Bool) (w : Workspace) (place : Place) : Prop
    extends Writable c w place where
  config : ∀ path, path? c.config = some path → ∀ e, w.read path = .error e →
    e.fault = .absent ∨ e.fault = .nullByte
  shallow : ∀ e, c.fileSettings w = .ok (.error e) → e.isDepth = false
  marks : ∀ base, c.fileSettings w = .ok (.ok base) →
    ∃ version suffix, base.scheme = ofTexts version suffix
  file : ∃ path, c.file = .filled path ∧ (∀ e, w.read path = .error e → e.fault ≠ .nullByte) ∧
    ∀ content, w.read path = .ok content → ∃ text, String.fromUTF8? content = some text
  size : ∀ code, c.code? w = some code → Text.Short ↑(code.toUTF8.size + 1)
  name : ∃ name, c.name = .filled name
  found : ∀ s code e, Configured c w s → c.code? w = some code →
    Analysis.findFunction (sourceOf treeOf code) s.functionName = .error e →
      ∃ name, e = .functionNotFound name
  flow : ∀ s code t, Configured c w s → c.code? w = some code →
    Analysis.findFunction (sourceOf treeOf code) s.functionName = .ok t →
      ∃ r, Analysis.flowOf (sourceOf treeOf code) s.scheme.suffixMark.written t = .ok r

theorem fileSettings_ok (h : Fair c treeOf w place) : ∃ r, c.fileSettings w = .ok r := by
  unfold fileSettings
  split
  · exact ⟨_, rfl⟩
  · rename_i path hpath
    split
    · exact ⟨_, rfl⟩
    · exact ⟨_, rfl⟩
    · exact ⟨_, rfl⟩
    · rename_i e habsent hnull hread
      obtain ⟨fault, given⟩ := e
      rcases h.config path hpath _ hread with rfl | rfl
      · exact (habsent given rfl).elim
      · exact (hnull given rfl).elim

theorem settings_cases (h : Fair c treeOf w place) :
    (∃ s, Configured c w s ∧ c.settings w = .ok (.ok s)) ∨
      ∃ e, c.settings w = .ok (.error e) ∧ e.isDepth = false ∧ ∀ s, ¬ Configured c w s := by
  obtain ⟨r, hr⟩ := fileSettings_ok h
  cases r with
  | error e =>
    right
    refine ⟨e, by simp only [settings, hr, ok_bind]; rfl, h.shallow e hr, ?_⟩
    rintro s ⟨base, hbase, _⟩
    cases hr.symm.trans hbase
  | ok base =>
    have hsettings : c.settings w = .ok (base.merged c.overrides) := by
      simp only [settings, hr, ok_bind]
      rfl
    cases hm : base.merged c.overrides with
    | ok s => exact .inl ⟨s, ⟨base, hr, hm⟩, hm ▸ hsettings⟩
    | error e =>
      right
      refine ⟨e, hm ▸ hsettings, Settings.isDepth_of_merged hm, ?_⟩
      rintro s ⟨base', hbase, hs⟩
      cases hr.symm.trans hbase
      cases hm.symm.trans hs

theorem keepsMarks_overrides (c : Command) :
    ∀ f ∈ c.overrides, Settings.KeepsMarks f.1.shown := by
  intro f hf
  simp only [overrides, List.mem_cons, List.not_mem_nil, or_false] at hf
  rcases hf with rfl | rfl | rfl | rfl <;>
  · rw [RawText.shown_ofString]
    exact ⟨by decide, by decide⟩

theorem Configured.scheme_eq (hs : Configured c w s) (h : Fair c treeOf w place) :
    ∃ version suffix, s.scheme = ofTexts version suffix := by
  obtain ⟨base, hbase, hs⟩ := hs
  obtain ⟨version, suffix, hmarks⟩ := h.marks base hbase
  exact ⟨version, suffix, (Settings.scheme_merged hs (keepsMarks_overrides c)).trans hmarks⟩

theorem run_of_error {e : SettingsError} (h : c.settings w = .ok (.error e))
    (hdepth : e.isDepth = false) :
    c.run treeOf w =
      .ok { status := 1, complaint := "错误：" ++ e.message ++ "\n", workspace := w } := by
  simp only [run, h, Except.mapError, ok_bind, hdepth, Bool.false_eq_true, if_false]
  rfl

theorem run_of_unreadable (treeOf : String → Tree × Bool) {path : String} {e : FileError}
    (h : c.settings w = .ok (.ok s)) (hpath : c.file = .filled path)
    (hread : w.read path = .error e) (hnull : e.fault ≠ .nullByte) :
    ∃ report, c.run treeOf w = .ok report ∧ report.status = 1 ∧ report.workspace = w := by
  simp only [run, h, hpath, requiredPath, hread, Except.mapError, ok_bind, hnull, if_false]
  exact ⟨_, rfl, rfl, rfl⟩

theorem run_of_code {path text : String} {content : ByteArray} (h : c.settings w = .ok (.ok s))
    (hpath : c.file = .filled path) (hread : w.read path = .ok content)
    (htext : String.fromUTF8? content = some text) :
    c.run treeOf w = c.analyze s (String.ofList (unifyLines text.toList))
      (sourceOf treeOf (String.ofList (unifyLines text.toList))) w := by
  simp only [run, h, hpath, requiredPath, hread, Except.mapError, ok_bind, htext]
  rfl

theorem analyze_of_error {name : String}
    (h : (Analysis.ofSource (sourceOf treeOf code) s.languageName s.functionName
      s.scheme.suffixMark.written).outcome = .error (.functionNotFound name)) :
    ∃ report, c.analyze s code (sourceOf treeOf code) w = .ok report ∧ report.status = 1 ∧
      report.workspace = w := by
  simp only [analyze, h]
  exact ⟨_, rfl, rfl, rfl⟩

theorem analyze_of_ok (h : (Analysis.ofSource (sourceOf treeOf code) s.languageName
      s.functionName s.scheme.suffixMark.written).outcome = .ok a) :
    ∃ before, c.analyze s code (sourceOf treeOf code) w = c.slice s code a.facts w before := by
  simp only [analyze, h]
  exact ⟨_, rfl⟩

theorem analyze_ends (hs : Configured c w s) (hcode : c.code? w = some code)
    (hline : c.LineShort) (h : Fair c treeOf w place) :
    ∃ report labels, c.analyze s code (sourceOf treeOf code) w = .ok report ∧
      Ends c treeOf w report.status labels ∧
      Held (w.contentOf? place) labels (report.workspace.contentOf? place) := by
  have hstages := Analysis.outcome_ofSource (sourceOf treeOf code) s.functionName
    s.scheme.suffixMark.written (Settings.languageName_mem hs.fault?_eq_none)
  cases ht : Analysis.findFunction (sourceOf treeOf code) s.functionName with
  | error e =>
    obtain ⟨name, rfl⟩ := h.found s code e hs hcode ht
    rw [ht, error_bind] at hstages
    obtain ⟨report, hreport, hstatus, hw⟩ := analyze_of_error (c := c) (w := w) hstages
    refine ⟨report, none, hreport, ?_, hw ▸ .kept⟩
    rw [hstatus]
    exact .noFunction hs hcode fun t => Analysis.not_defines_of_findFunction ht
  | ok t =>
    obtain ⟨⟨scoping, draft⟩, hflow⟩ := h.flow s code t hs hcode ht
    obtain ⟨a, ha, hgraph, hexact, hclosed⟩ := Analysis.ofGraph_ok_of_flowOf hflow
    simp only [ht, hflow, ha, Except.mapError, ok_bind] at hstages
    have hanalysed : Analysed treeOf s code a :=
      ⟨t, _, Analysis.finds_of_findFunction ht, hflow, ha⟩
    have hlines : ∀ u n, a.facts.line u = some n → Text.Short n := by
      intro u n hn
      obtain ⟨k, rfl, hk⟩ := Analysis.line_le_of_mem_units hflow hgraph hn
      exact Text.short_of_le hk (h.size code hcode)
    obtain ⟨version, suffix, hmarks⟩ := hs.scheme_eq h
    obtain ⟨name, hname⟩ := h.name
    obtain ⟨before, hbefore⟩ := analyze_of_ok (c := c) (w := w) hstages
    obtain ⟨report, labels, hreport, hanswer, hheld⟩ := slice_answers hexact hclosed
      hs.fault?_eq_none hmarks hname hline hlines h.toWritable code before
    exact ⟨report, labels, hbefore.trans hreport, .answered hs hcode hanalysed hanswer, hheld⟩

/-- A run ends at the first check that fails, and saves the slice if none does. -/
theorem run_ends {arguments : List String} (hc : parse arguments = .ok c)
    (h : Fair c treeOf w place) :
    ∃ report labels, c.run treeOf w = .ok report ∧
      (∀ n ls, Ends c treeOf w n ls ↔ n = report.status ∧ ls = labels) ∧
      Held (w.contentOf? place) labels (report.workspace.contentOf? place) := by
  suffices hends : ∃ report labels, c.run treeOf w = .ok report ∧
      Ends c treeOf w report.status labels ∧
      Held (w.contentOf? place) labels (report.workspace.contentOf? place) by
    obtain ⟨report, labels, hrun, hends, hheld⟩ := hends
    refine ⟨report, labels, hrun, fun n ls => ⟨fun h => h.unique hends, ?_⟩, hheld⟩
    rintro ⟨rfl, rfl⟩
    exact hends
  rcases settings_cases h with ⟨s, hs, hsettings⟩ | ⟨e, hsettings, hdepth, hnone⟩
  · obtain ⟨path, hpath, hnull, htext⟩ := h.file
    cases hread : w.read path with
    | error e =>
      obtain ⟨report, hrun, hstatus, hw⟩ :=
        run_of_unreadable treeOf hsettings hpath hread (hnull e hread)
      have hcode : c.code? w = none := by simp only [code?, hpath, hread]; rfl
      exact ⟨report, none, hrun, hstatus ▸ .unreadable hs hcode, hw ▸ .kept⟩
    | ok content =>
      obtain ⟨text, htext⟩ := htext content hread
      have hcode : c.code? w = some (String.ofList (unifyLines text.toList)) := by
        simp only [code?, hpath, hread, Except.toOption, Option.bind_some, htext, Option.map_some]
      obtain ⟨report, labels, hreport, hends⟩ := analyze_ends hs hcode (lineShort_parse hc) h
      exact ⟨report, labels, (run_of_code hsettings hpath hread htext).trans hreport, hends⟩
  · exact ⟨_, none, run_of_error hsettings hdepth, .badSettings hnone, .kept⟩

def passing : Source where
  bytes := "f(int x, int y) \x7b\n y = x;\n x = y;\n x; \x7d".toUTF8
  root := ⟨true, "function_definition", "", 0, 39, [
    ⟨true, "function_declarator", "declarator", 0, 15, [
      ⟨true, "identifier", "declarator", 0, 1, []⟩,
      ⟨true, "parameter_list", "parameters", 1, 15, [
        ⟨true, "parameter_declaration", "", 2, 7, [⟨true, "identifier", "declarator", 6, 7, []⟩]⟩,
        ⟨true, "parameter_declaration", "", 9, 14, [
          ⟨true, "identifier", "declarator", 13, 14, []⟩]⟩]⟩]⟩,
    ⟨true, "compound_statement", "body", 16, 39, [
      ⟨true, "expression_statement", "", 19, 25, [⟨true, "assignment_expression", "", 19, 24, [
        ⟨true, "identifier", "left", 19, 20, []⟩, ⟨false, "=", "operator", 21, 22, []⟩,
        ⟨true, "identifier", "right", 23, 24, []⟩]⟩]⟩,
      ⟨true, "expression_statement", "", 27, 33, [⟨true, "assignment_expression", "", 27, 32, [
        ⟨true, "identifier", "left", 27, 28, []⟩, ⟨false, "=", "operator", 29, 30, []⟩,
        ⟨true, "identifier", "right", 31, 32, []⟩]⟩]⟩,
      ⟨true, "expression_statement", "", 35, 37, [⟨true, "identifier", "", 35, 36, []⟩]⟩]⟩]⟩
  damaged := false

def sheet : Workspace where
  files := .ofList [(["a.c"], passing.bytes), (["o"], "old".toUTF8)]

def treeOfSheet : String → Tree × Bool := fun _ => (passing.root, false)

def question : Command where
  file := .filled "a.c"
  output := .filled "o"
  line := .filled 4
  name := .filled "x"
  function := some (.filled "f")

theorem configured_question : Configured question sheet { function := .text "f" } :=
  ⟨{}, rfl, rfl⟩

def sheetCode : String := "f(int x, int y) \x7b\n y = x;\n x = y;\n x; \x7d"

set_option maxRecDepth 10000 in
theorem code?_question : question.code? sheet = some sheetCode := by decide +kernel

set_option maxRecDepth 10000 in
theorem exists_flow_question :
    ∃ t r, Analysis.findFunction (sourceOf treeOfSheet sheetCode) (.text "f") = .ok t ∧
      Analysis.flowOf (sourceOf treeOfSheet sheetCode) "#" t = .ok r := by
  have hok : ((Analysis.findFunction (sourceOf treeOfSheet sheetCode) (.text "f")).toOption.any
      fun t => (Analysis.flowOf (sourceOf treeOfSheet sheetCode) "#" t).toOption.isSome) = true := by
    decide +kernel
  obtain ⟨t, ht, hok⟩ := exists_of_any hok
  obtain ⟨r, hr⟩ := exists_of_isSome hok
  exact ⟨t, r, ht, hr⟩

theorem fair_question : Fair question treeOfSheet sheet ["o"] where
  output := ⟨"o", rfl, rfl⟩
  kept := by decide
  picture _ h := by cases h
  config _ h := by cases h
  shallow _ h := by cases h
  marks _ h := by
    cases h
    exact ⟨"$", "#", rfl⟩
  file := by
    have htext : (String.fromUTF8? passing.bytes).isSome = true := by decide +kernel
    refine ⟨"a.c", rfl, fun _ h => (by cases h), fun _ h => ?_⟩
    cases h
    exact Option.isSome_iff_exists.mp htext
  size code h := by
    cases code?_question.symm.trans h
    show _ ≤ _
    decide +kernel
  name := ⟨"x", rfl⟩
  found s code e hs hcode h := by
    obtain rfl := configured_question.unique hs
    cases code?_question.symm.trans hcode
    obtain ⟨t, _, ht, _⟩ := exists_flow_question
    cases ht.symm.trans h
  flow s code t hs hcode h := by
    obtain rfl := configured_question.unique hs
    cases code?_question.symm.trans hcode
    obtain ⟨t', r, ht, hr⟩ := exists_flow_question
    cases ht.symm.trans h
    exact ⟨r, hr⟩

set_option maxRecDepth 10000 in
theorem run_ends_question :
    parse ["a.c", "o", "4", "x", "--function", "f"] = .ok question ∧
      Fair question treeOfSheet sheet ["o"] ∧
      ∃ report labels, question.run treeOfSheet sheet = .ok report ∧
        (∀ n ls, Ends question treeOfSheet sheet n ls ↔ n = report.status ∧ ls = labels) ∧
        Held (sheet.contentOf? ["o"]) labels (report.workspace.contentOf? ["o"]) ∧
        report.status = 0 ∧
        report.workspace.contentOf? ["o"] = some "entry\t2\t3\t4\t".toUTF8 := by
  have hparse : parse ["a.c", "o", "4", "x", "--function", "f"] = .ok question := by decide +kernel
  have hrun : ((question.run treeOfSheet sheet).toOption.any fun r => decide (r.status = 0 ∧
      r.workspace.contentOf? ["o"] = some "entry\t2\t3\t4\t".toUTF8)) = true := by decide +kernel
  obtain ⟨report, hreport, hrun⟩ := exists_of_any hrun
  obtain ⟨report', labels, hreport', hends, hheld⟩ := run_ends hparse fair_question
  cases hreport.symm.trans hreport'
  exact ⟨hparse, fair_question, report, labels, hreport, hends, hheld, of_decide_eq_true hrun⟩

/-- A file of settings that is there but cannot be opened ends a run without a status. -/
theorem run_of_unopened {path : String} {e : FileError} (hpath : path? c.config = some path)
    (hread : w.read path = .error e) (habsent : e.fault ≠ .absent)
    (hnull : e.fault ≠ .nullByte) (treeOf : String → Tree × Bool) :
    c.run treeOf w = .error (.file e) := by
  have hfile : c.fileSettings w = .error e := by
    obtain ⟨fault, given⟩ := e
    cases fault with
    | absent => exact absurd rfl habsent
    | nullByte => exact absurd rfl hnull
    | notFolder | isFolder | tooLong => simp only [fileSettings, hpath, hread]
  simp only [run, settings, hfile, error_bind, Except.mapError]

theorem run_config_folder : ∃ c, parse ["a.c", "o", "1", "x", "--config", "."] = .ok c ∧
    ∀ treeOf w, c.run treeOf w = .error (.file ⟨.isFolder, "."⟩) := by
  refine ⟨_, rfl, fun treeOf w => ?_⟩
  have hfolder : w.isFolder [] = true := Workspace.isFolder_of_isAbove rfl
  have hlocate : w.locate "." = .ok [] := by
    show w.follow [] ["."] = .ok []
    simp only [Workspace.follow, hfolder]
    rfl
  have hread : w.read "." = .error ⟨.isFolder, "."⟩ := by
    simp only [Workspace.read, Workspace.contentAt, hlocate, ok_bind, hfolder, if_true,
      Except.mapError]
  exact run_of_unopened rfl hread (by decide) (by decide) treeOf

end Command

end Backslice

import Backslice.FactTable
import Backslice.Proofs.Label
import Backslice.Proofs.Slice.Query
import Mathlib.Data.List.Perm.Basic

namespace Backslice

namespace Text

variable {separator : Char} {texts : List String}

theorem pieces_join (h : ∀ t ∈ texts, separator ∉ t.toList) :
    pieces separator (String.join (texts.map (· ++ String.singleton separator))) =
      texts ++ [""] := by
  unfold pieces
  induction texts with
  | nil => rfl
  | cons t ts ih =>
    rw [List.forall_mem_cons] at h
    have hcons : (String.join ((t :: ts).map (· ++ String.singleton separator))).toList =
        t.toList ++ separator ::
          (String.join (ts.map (· ++ String.singleton separator))).toList := by
      simp
    rw [hcons, split_append_separator h.1, List.map_cons, String.ofList_toList, ih h.2]
    rfl

end Text

namespace Label

variable {labels labels' : List Label}

def ordered (labels : List Label) : List String := (sortBy precedes labels).map text

theorem mem_ordered {t : String} : t ∈ ordered labels ↔ ∃ l ∈ labels, l.text = t := by
  simp [ordered]

theorem text_mem_ordered {l : Label} : l.text ∈ ordered labels ↔ l ∈ labels := by
  rw [mem_ordered]
  constructor
  · rintro ⟨l', hl', htext⟩
    exact text_injective htext ▸ hl'
  · exact fun hl => ⟨l, hl, rfl⟩

theorem nodup_map_text (h : labels.Nodup) : (labels.map text).Nodup :=
  h.map fun _ _ => text_injective

theorem nodup_ordered (h : labels.Nodup) : (ordered labels).Nodup :=
  nodup_map_text ((sortBy_perm precedes labels).nodup_iff.mpr h)

theorem sort_iff_ordered (h : labels.Nodup) {order : List String} (hnodup : order.Nodup)
    (hmem : ∀ t, t ∈ order ↔ ∃ l ∈ labels, l.text = t) {texts : List String} :
    sort order = .ok texts ↔
      texts = ordered labels ∧ ∀ n, line n ∈ labels → Text.Short n := by
  have hperm : order.Perm (labels.map text) := by
    rw [List.perm_ext_iff_of_nodup hnodup (nodup_map_text h)]
    simpa using hmem
  obtain ⟨labels', rfl, hlabels⟩ :=
    (congrFun (congrFun (List.eq_map_comp_perm text) order) labels).mpr hperm
  rw [sort_text_iff, ordered,
    sortBy_eq_of_perm precedes_total precedes_trans precedes_antisymm hlabels]
  simp only [hlabels.mem_iff]

theorem exists_map_line (h : entry ∉ labels) : ∃ ns : List Int, labels = ns.map line := by
  induction labels with
  | nil => exact ⟨[], rfl⟩
  | cons l ls ih =>
    rw [List.mem_cons, not_or] at h
    obtain ⟨ns, rfl⟩ := ih h.2
    cases l with
    | entry => exact absurd rfl h.1
    | line n => exact ⟨n :: ns, rfl⟩

theorem exists_rising (h : labels.Pairwise Higher) : ∃ ns : List Int, ns.Pairwise (· < ·) ∧
    labels = (if entry ∈ labels then [entry] else []) ++ ns.map line := by
  have hlines : ∀ ls : List Label, ls.Pairwise Higher → entry ∉ ls →
      ∃ ns : List Int, ns.Pairwise (· < ·) ∧ ls = ns.map line := by
    intro ls hls hentry
    obtain ⟨ns, rfl⟩ := exists_map_line hentry
    exact ⟨ns, (List.pairwise_map.mp hls).imp Higher.lt, rfl⟩
  cases labels with
  | nil => exact ⟨[], .nil, rfl⟩
  | cons l ls =>
    obtain ⟨hl, hls⟩ := List.pairwise_cons.mp h
    -- nothing is above the entry
    have hentry : entry ∉ ls := fun hmem => nomatch hl entry hmem
    cases l with
    | entry =>
      obtain ⟨ns, hrising, rfl⟩ := hlines ls hls hentry
      exact ⟨ns, hrising, by simp⟩
    | line n =>
      have hnone : entry ∉ line n :: ls := List.not_mem_cons_of_ne_of_not_mem nofun hentry
      obtain ⟨ns, hrising, heq⟩ := hlines (line n :: ls) h hnone
      exact ⟨ns, hrising, by rw [if_neg hnone, ← heq]; rfl⟩

theorem exists_ordered_eq (h : labels.Nodup) : ∃ ns : List Int, ns.Pairwise (· < ·) ∧
    (∀ n, n ∈ ns ↔ line n ∈ labels) ∧
    ordered labels = (if entry ∈ labels then [entryText] else []) ++ ns.map toString := by
  obtain ⟨ns, hrising, heq⟩ := exists_rising (pairwise_higher_sortBy h)
  simp only [mem_sortBy] at heq
  refine ⟨ns, hrising, fun n => ?_, ?_⟩
  · rw [← (sortBy_perm precedes labels).mem_iff, heq]
    split <;> simp
  · rw [ordered, heq]
    split <;> simp [text, Function.comp_def]

theorem pieces_saved (labels : List Label) :
    Text.pieces '\t' (saved (ordered labels)) = ordered labels ++ [""] := by
  refine Text.pieces_join fun t ht => ?_
  obtain ⟨l, _, rfl⟩ := mem_ordered.mp ht
  exact tab_notMem_text l

theorem mem_iff_of_saved_eq (h : saved (ordered labels) = saved (ordered labels')) (l : Label) :
    l ∈ labels ↔ l ∈ labels' := by
  have hpieces := congrArg (Text.pieces '\t') h
  rw [pieces_saved, pieces_saved] at hpieces
  rw [← text_mem_ordered, List.append_cancel_right hpieces, text_mem_ordered]

end Label

namespace Slice

open Label (ordered)

variable {υ : Type} [DecidableEq υ] {f : Facts υ} {scheme : NameScheme} {budget : Option Int}
  {c : Criterion} {labels : List Label}

theorem exists_project_of_query (h : (query f scheme budget c).outcome = .ok labels) :
    labels = [] ∨ ∃ units, project f c.line units = .ok labels := by
  unfold query at h
  simp only [Traced.outcome_bind, Traced.outcome_report, Traced.outcome_lift, ok_bind] at h
  obtain ⟨vs, _, h⟩ := exists_of_bind_eq_ok h
  split at h
  · cases h
  simp only [Traced.outcome_bind, Traced.outcome_report, Traced.outcome_lift, ok_bind] at h
  obtain ⟨g, _, h⟩ := exists_of_bind_eq_ok h
  obtain ⟨seeds, _, h⟩ := exists_of_bind_eq_ok h
  split at h
  · exact .inl (Except.ok.inj h).symm
  rw [outcome_reportIf] at h
  simp only [Traced.outcome_bind, Traced.outcome_report, Traced.outcome_lift, ok_bind] at h
  obtain ⟨narrowed, _, h⟩ := exists_of_bind_eq_ok h
  split at h
  · exact .inl (Except.ok.inj h).symm
  simp only [Traced.outcome_bind, Traced.outcome_report, Traced.outcome_lift, ok_bind] at h
  obtain ⟨units, _, h⟩ := exists_of_bind_eq_ok h
  obtain ⟨labels', hproject, h⟩ := exists_of_bind_eq_ok h
  cases h
  exact .inr ⟨units, eq_ok_of_mapError_eq_ok hproject⟩

theorem nodup_of_query (h : (query f scheme budget c).outcome = .ok labels) : labels.Nodup := by
  rcases exists_project_of_query h with rfl | ⟨units, h⟩
  · exact List.nodup_nil
  · unfold project at h
    split at h
    · cases h
    · cases h
      exact nodup_eraseDups _

/-- The saved form of a slice. However the labels of a slice are enumerated, they are sorted into
one list, that holds each once: the entry first, then the lines, rising. Only a line with too many
digits keeps them from being sorted; a number that long has no text to begin with. What is saved is
read back into the list, so it tells which labels the slice has. -/
theorem query_artifact (h : (query f scheme budget c).outcome = .ok labels) :
    (∃ ns : List Int, ns.Pairwise (· < ·) ∧ (∀ n, n ∈ ns ↔ .line n ∈ labels) ∧
      ordered labels = (if .entry ∈ labels then [Label.entryText] else []) ++ ns.map toString) ∧
    (ordered labels).Nodup ∧ (∀ t, t ∈ ordered labels ↔ ∃ l ∈ labels, l.text = t) ∧
    (∀ order : List String, order.Nodup → (∀ t, t ∈ order ↔ ∃ l ∈ labels, l.text = t) →
      ∀ texts, Label.sort order = .ok texts ↔
        texts = ordered labels ∧ ∀ n, .line n ∈ labels → Text.Short n) ∧
    (Text.pieces '\t' (Label.saved (ordered labels))).dropLast = ordered labels ∧
    ∀ labels', Label.saved (ordered labels') = Label.saved (ordered labels) →
      ∀ l, l ∈ labels' ↔ l ∈ labels := by
  have hnodup := nodup_of_query h
  refine ⟨Label.exists_ordered_eq hnodup, Label.nodup_ordered hnodup, fun t => Label.mem_ordered,
    fun order horder hmem texts => Label.sort_iff_ordered hnodup horder hmem, ?_,
    fun labels' hsaved => Label.mem_iff_of_saved_eq hsaved⟩
  rw [Label.pieces_saved, List.dropLast_concat]

def mixed : FactTable where
  lines := ⟨[("e", none), ("p", some 9), ("q", some (-3)), ("s", some 10)]⟩
  uses := ⟨[("s", ["x"])]⟩
  defUses := ⟨[("e", ["s"]), ("p", ["s"]), ("q", ["p"])]⟩
  reaching := ⟨[(("x", "s"), ["e", "p"])]⟩
  vars := ["x"]

set_option maxRecDepth 10000 in
theorem query_artifact_mixed : ∃ labels,
    (query mixed.facts (NameScheme.ofTexts "$" "#") none ⟨some 10, .text "x"⟩).outcome =
      .ok labels ∧
    ordered labels = ["entry", "-3", "9", "10"] ∧
    Label.sort ["9", "10", "-3", "entry"] = .ok (ordered labels) ∧
    (Text.pieces '\t' (Label.saved (ordered labels))).dropLast = ordered labels := by
  have houtcome : (query mixed.facts (NameScheme.ofTexts "$" "#") none
      ⟨some 10, .text "x"⟩).outcome = .ok [.line 10, .entry, .line (-3), .line 9] := by
    decide +kernel
  have hordered : ordered [.line 10, .entry, .line (-3), .line 9] = ["entry", "-3", "9", "10"] := by
    decide +kernel
  have horder : ["9", "10", "-3", "entry"].Perm ["entry", "-3", "9", "10"] := by decide
  have hshort : ∀ l ∈ [Label.line 10, .entry, .line (-3), .line 9], ∀ n, l = .line n →
      Text.Short n := by
    simp only [Text.Short, List.forall_mem_cons, Label.line.injEq, forall_eq', reduceCtorEq,
      false_implies, implies_true, List.not_mem_nil]
    decide
  obtain ⟨_, _, hmem, hsort, hpieces, _⟩ := query_artifact houtcome
  refine ⟨_, houtcome, hordered, (hsort _ (by decide) (fun t => ?_) _).mpr ⟨rfl, ?_⟩, hpieces⟩
  · exact (horder.mem_iff.trans (by rw [hordered])).trans (hmem t)
  · exact fun n hn => hshort _ hn n rfl

end Slice

end Backslice

import Backslice.NameScheme
import Backslice.Slice.Seeds

namespace Backslice

namespace Text

variable {α : Type} [DecidableEq α] {mark cs : List α}

theorem removeFrom_eq_self (h : occurs mark cs = false) : removeFrom mark 0 cs = cs := by
  induction cs with
  | nil => rfl
  | cons c cs ih =>
    simp only [occurs, Bool.or_eq_false_iff] at h
    rw [removeFrom, h.1, ih h.2]
    rfl

theorem without_eq_self (h : (!mark.isEmpty && occurs mark cs) = false) :
    without mark cs = cs := by
  unfold without
  split
  · rfl
  · rename_i hmark
    refine removeFrom_eq_self ?_
    simpa [hmark] using h

theorem occurs_iff : occurs mark cs = true ↔ mark <:+: cs := by
  induction cs with
  | nil => simp [occurs]
  | cons c cs ih => simp [occurs, ih, List.infix_cons_iff]

omit [DecidableEq α] in
theorem prefix_of_prefix_append {a b : List α} {c : α} (hc : c ∉ mark)
    (h : mark <+: a ++ c :: b) : mark <+: a := by
  rcases List.prefix_or_prefix_of_prefix h (List.prefix_append a (c :: b)) with hle | ⟨r, rfl⟩
  · exact hle
  · cases r with
    | nil => simp
    | cons d r =>
      obtain ⟨rfl, -⟩ : d = c ∧ r <+: b := by simpa using h
      exact absurd (by simp) hc

theorem removeFrom_append {a b : List α} {c : α} (hne : mark ≠ []) (hc : c ∉ mark)
    (ha : ¬ mark <:+: a) : removeFrom mark 0 (a ++ c :: b) = a ++ c :: removeFrom mark 0 b := by
  induction a with
  | nil =>
    have hstart : ¬ mark <+: c :: b := by
      intro h
      exact hne (List.prefix_nil.mp (prefix_of_prefix_append (a := []) hc h))
    simp [removeFrom, hstart]
  | cons d a ih =>
    have hstart : ¬ mark <+: d :: (a ++ c :: b) := fun h =>
      ha (prefix_of_prefix_append (a := d :: a) hc h).isInfix
    have hrest := ih fun h => ha (h.trans (List.suffix_cons d a).isInfix)
    simp [removeFrom, hstart, hrest]

theorem removeFrom_append_left {t b : List α} (hne : mark ≠ []) (ht : ∀ c ∈ t, c ∉ mark) :
    removeFrom mark 0 (t ++ b) = t ++ removeFrom mark 0 b := by
  induction t with
  | nil => rfl
  | cons c t ih =>
    have hnil : ¬ mark <:+: [] := by simpa using hne
    have hc := removeFrom_append (a := []) (b := t ++ b) hne (ht c (by simp)) hnil
    rw [List.nil_append] at hc
    rw [List.cons_append, hc, ih fun d hd => ht d (by simp [hd])]
    rfl

theorem without_append {a t b : List α} (hne : t ≠ []) (ht : ∀ c ∈ t, c ∉ mark)
    (ha : mark ≠ [] → ¬ mark <:+: a) :
    without mark (a ++ t ++ b) = a ++ t ++ without mark b := by
  unfold without
  split
  · rfl
  · rename_i hmark
    rw [List.isEmpty_iff] at hmark
    obtain ⟨c, t, rfl⟩ := List.exists_cons_of_ne_nil hne
    rw [List.append_assoc, List.cons_append, removeFrom_append hmark (ht c (by simp)) (ha hmark),
      removeFrom_append_left hmark fun d hd => ht d (by simp [hd])]
    simp

theorem before_append_mark {a b : List α} (hne : mark ≠ [])
    (ha : ¬ mark <:+: a ++ mark.dropLast) : before mark (a ++ mark ++ b) = a := by
  induction a with
  | nil =>
    obtain ⟨c, t, rfl⟩ := List.exists_cons_of_ne_nil hne
    simp [before]
  | cons d a ih =>
    -- an occurrence that begins before the mark ends before the mark does
    have hstart : ¬ mark <+: d :: (a ++ mark ++ b) := by
      intro h
      have hwhole : d :: a ++ mark.dropLast <+: d :: (a ++ mark ++ b) := by
        rw [List.cons_append, List.cons_prefix_cons, List.append_assoc]
        exact ⟨rfl, (List.prefix_append_right_inj a).mpr
          ((List.dropLast_prefix mark).trans (List.prefix_append mark b))⟩
      refine ha (List.prefix_of_prefix_length_le h hwhole ?_).isInfix
      simp only [List.length_append, List.length_cons, List.length_dropLast]
      omega
    have hrest := ih fun h => ha (h.trans (List.suffix_cons d _).isInfix)
    rw [List.cons_append, List.cons_append, before, if_neg (by simpa using hstart), hrest]

omit [DecidableEq α] in
theorem not_infix_append_dropLast {a : List α} (hne : mark ≠ []) (ha : ∀ c ∈ mark, c ∉ a) :
    ¬ mark <:+: a ++ mark.dropLast := by
  induction a with
  | nil =>
    intro h
    have hlength := h.length_le
    have := List.length_pos_iff.mpr hne
    simp only [List.nil_append, List.length_dropLast] at hlength
    omega
  | cons d a ih =>
    rw [List.cons_append, List.infix_cons_iff, not_or]
    refine ⟨fun h => ?_, ih fun c hc hca => ha c hc (by simp [hca])⟩
    obtain ⟨c, t, rfl⟩ := List.exists_cons_of_ne_nil hne
    rw [List.cons_prefix_cons] at h
    exact ha c (by simp) (by simp [h.1])

end Text

namespace NameScheme

abbrev ofTexts (version suffix : RawText) : NameScheme := ⟨.text version, .text suffix⟩

variable (version suffix raw name : RawText)

theorem exists_matchesName_ok :
    ∃ b, (ofTexts version suffix).matchesName raw (.text name) = .ok b := by
  unfold matchesName
  split
  · rename_i h
    cases h
  · split
    · exact ⟨_, rfl⟩
    · split
      · exact ⟨_, rfl⟩
      · exact ⟨_, rfl⟩

variable {version suffix raw name}

theorem normalize_eq_self (h : (ofTexts version suffix).isMangled raw = .ok false) :
    (ofTexts version suffix).normalize raw = .ok raw := by
  have hversion : (!version.isEmpty && Text.occurs version.points raw.points) = false := by
    cases hv : !version.isEmpty && Text.occurs version.points raw.points with
    | false => rfl
    | true =>
      simp only [isMangled, Marker.occursIn, hv, bind, Except.bind] at h
      cases h
  have hsuffix : (!suffix.isEmpty && Text.occurs suffix.points raw.points) = false := by
    simp only [isMangled, Marker.occursIn, hversion, bind, Except.bind] at h
    exact Except.ok.inj h
  have hbare : Text.without version.points raw.points = raw.points :=
    Text.without_eq_self hversion
  simp only [normalize, Marker.removedFrom, Marker.cutFrom, bind, Except.bind, hbare]
  split
  · rfl
  · rename_i hs
    rw [Text.before_eq_self]
    simpa [hs] using hsuffix

theorem resolves_eq_matchesName :
    (ofTexts version suffix).resolves raw (.text name) =
      (ofTexts version suffix).matchesName raw (.text name) := by
  unfold resolves
  split
  · rename_i h
    rw [GivenText.text.inj h, matchesName_self]
  · rename_i hne
    have hraw : raw ≠ name := fun h => hne (h ▸ rfl)
    cases hm : (ofTexts version suffix).isMangled raw with
    | error e =>
      simp only [isMangled, Marker.occursIn, bind, Except.bind] at hm
      split at hm <;> cases hm
    | ok mangled =>
      cases mangled with
      | true => rfl
      | false =>
        simp only [bind, Except.bind, matchesName, normalize_eq_self hm, hraw, decide_false,
          Bool.false_eq_true, if_false]
        split <;> rfl

def base (version suffix raw : RawText) : RawText :=
  let bare : RawText := ⟨Text.without version.points raw.points⟩
  if suffix.isEmpty then bare else ⟨Text.before suffix.points bare.points⟩

theorem normalize_ofTexts :
    (ofTexts version suffix).normalize raw = .ok (base version suffix raw) := rfl

theorem resolves_iff : (ofTexts version suffix).resolves raw (.text name) = .ok true ↔
    raw = name ∨ (name.points <:+: raw.points ∧ base version suffix raw = name) := by
  rw [resolves_eq_matchesName, matchesName, normalize_ofTexts, ← Text.occurs_iff]
  split
  · simp [*]
  · split
    · simp [*, bind, Except.bind, pure, Except.pure]
    · simp [*]

theorem base_of_free {text : RawText}
    (hversion : version.points ≠ [] → ¬ version.points <:+: text.points)
    (hsuffix : suffix.points ≠ [] → ¬ suffix.points <:+: text.points) :
    base version suffix text = text := by
  have hbare : Text.without version.points text.points = text.points := by
    refine Text.without_eq_self (Bool.eq_false_iff.mpr fun hocc => ?_)
    rw [Bool.and_eq_true, Text.occurs_iff] at hocc
    exact hversion (by simpa using hocc.1) hocc.2
  simp only [base, hbare]
  split
  · rfl
  · rename_i hs
    have hne : suffix.points ≠ [] := by simpa [RawText.isEmpty] using hs
    have hocc : Text.occurs suffix.points text.points = false :=
      Bool.eq_false_iff.mpr fun hocc => hsuffix hne (Text.occurs_iff.mp hocc)
    rw [Text.before_eq_self hocc]

/-- The marks can be taken off again from a text with the suffix mark and more behind it. -/
structure Fits (version suffix text : RawText) : Prop where
  apart : ∀ c ∈ suffix.points, c ∉ version.points
  version : version.points ≠ [] → ¬ version.points <:+: text.points
  suffix : ¬ suffix.points <:+: text.points ++ suffix.points.dropLast

namespace Fits

variable {text : RawText}

theorem suffix_ne_nil (h : Fits version suffix text) : suffix.points ≠ [] := by
  intro hnil
  exact h.suffix (by simp [hnil])

theorem base_eq_self (h : Fits version suffix text) : base version suffix text = text :=
  base_of_free h.version fun _ hocc => h.suffix (hocc.trans (List.prefix_append _ _).isInfix)

theorem base_append (h : Fits version suffix text) (more : RawText) :
    base version suffix (text ++ suffix ++ more) = text := by
  have hempty : suffix.isEmpty = false := by simpa [RawText.isEmpty] using h.suffix_ne_nil
  simp only [base, RawText.points_append, hempty, Bool.false_eq_true, if_false,
    Text.without_append h.suffix_ne_nil h.apart h.version,
    Text.before_append_mark h.suffix_ne_nil h.suffix]

theorem of_disjoint (hne : suffix.points ≠ []) (hapart : ∀ c ∈ suffix.points, c ∉ version.points)
    (hversion : ∀ c ∈ version.points, c ∉ text.points)
    (hsuffix : ∀ c ∈ suffix.points, c ∉ text.points) : Fits version suffix text where
  apart := hapart
  version hne h := by
    obtain ⟨c, rest, hcons⟩ := List.exists_cons_of_ne_nil hne
    have hc : c ∈ version.points := by simp [hcons]
    exact hversion c hc (h.subset hc)
  suffix := Text.not_infix_append_dropLast hne hsuffix

end Fits

end NameScheme

theorem anyOf_ok {ε α : Type} {test : α → Except ε Bool} {p : α → Bool} {as : List α}
    (h : ∀ a ∈ as, test a = .ok (p a)) : anyOf test as = .ok (as.any p) := by
  induction as with
  | nil => rfl
  | cons a as ih =>
    have ha := h a (List.mem_cons_self ..)
    have has := ih fun b hb => h b (List.mem_cons_of_mem _ hb)
    simp only [anyOf, ha, has, bind, Except.bind, List.any_cons]
    cases p a <;> rfl

end Backslice

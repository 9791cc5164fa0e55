import Backslice.Label

namespace Backslice

namespace Text

def Short (n : Int) : Prop := (Nat.toDigits 10 n.natAbs).length ≤ maxDigits

variable {s : String} {c : Char} {cs rest : List Char} {ds : List Nat} {d : Nat} {n : Int}

theorem short_of_le {k m : Nat} (h : k ≤ m) (hm : Short m) : Short k := by
  rw [Short, Int.natAbs_natCast, Nat.length_toDigits_le_iff (by decide) (by decide)] at hm ⊢
  exact Nat.lt_of_le_of_lt h hm

theorem digitValue?_of_isDigit (h : c.isDigit = true) : digitValue? c = some (c.toNat - 48) := by
  have hrange : 48 ≤ c.toNat ∧ c.toNat < 58 := by
    obtain ⟨hlow, hhigh⟩ := Char.isDigit_iff_toNat.mp h
    exact ⟨hlow, Nat.lt_succ_of_le hhigh⟩
  simp [digitValue?, zeroDigits, hrange]

theorem moreDigits_of_isDigit (h : ∀ c ∈ cs, c.isDigit = true) :
    moreDigits cs = some (cs.map (·.toNat - 48), []) := by
  induction cs with
  | nil => rfl
  | cons c cs ih =>
    rw [List.forall_mem_cons] at h
    have hc : c ≠ '_' := by
      rintro rfl
      cases h.1
    rw [moreDigits, digitValue?_of_isDigit h.1, ih h.2]
    · rfl
    · exact fun heq => absurd heq hc
    · exact fun _ _ heq => absurd heq hc

theorem leadingDigits_toDigits (n : Nat) : leadingDigits (Nat.toDigits 10 n) =
    some ((Nat.toDigits 10 n).map (·.toNat - 48), []) := by
  have hdigit : ∀ c ∈ Nat.toDigits 10 n, c.isDigit = true := fun c hc =>
    Nat.isDigit_of_mem_toDigits (by decide) (by decide) hc
  obtain ⟨c, cs, heq⟩ := List.exists_cons_of_ne_nil (Nat.toDigits_ne_nil (n := n) (b := 10))
  rw [heq, List.forall_mem_cons] at hdigit
  rw [heq, leadingDigits, digitValue?_of_isDigit hdigit.1, moreDigits_of_isDigit hdigit.2]
  rfl

theorem foldl_toDigits (n : Nat) :
    ((Nat.toDigits 10 n).map (·.toNat - 48)).foldl (fun n d => 10 * n + d) 0 = n := by
  have h := Nat.ofDigitChars_toDigits (b := 10) (n := n) (by decide) (by decide)
  rw [Nat.ofDigitChars_eq_foldl] at h
  rw [List.foldl_map]
  exact h

theorem readInt_of_split {sign : Int} {m : Nat}
    (h : splitSign (s.toList.dropWhile isPadding) = (sign, Nat.toDigits 10 m)) :
    readInt s = if maxDigits < (Nat.toDigits 10 m).length then
      .error (.tooManyDigits (Nat.toDigits 10 m).length) else .ok (sign * m) := by
  simp only [readInt, h, leadingDigits_toDigits, List.length_map, List.all_nil, if_true,
    foldl_toDigits]

theorem not_isBlank_of_isDigit (h : c.isDigit = true) : isBlank c = false := by
  obtain ⟨hlow, hhigh⟩ := Char.isDigit_iff_toNat.mp h
  rw [show '0'.toNat = 48 from rfl] at hlow
  rw [show '9'.toNat = 57 from rfl] at hhigh
  simp only [isBlank, Bool.or_eq_false_iff, Bool.and_eq_false_iff, decide_eq_false_iff_not,
    beq_eq_false_iff_ne]
  omega

theorem splitSign_toDigits (m : Nat) :
    splitSign ((Nat.toDigits 10 m).dropWhile isPadding) = (1, Nat.toDigits 10 m) := by
  obtain ⟨c, cs, heq⟩ := List.exists_cons_of_ne_nil (Nat.toDigits_ne_nil (n := m) (b := 10))
  have hdigit : c.isDigit = true :=
    Nat.isDigit_of_mem_toDigits (by decide) (by decide) (heq ▸ List.mem_cons_self ..)
  rw [heq, List.dropWhile_cons_of_neg (by simp [isPadding, not_isBlank_of_isDigit hdigit])]
  unfold splitSign
  split
  · rename_i hsign
    cases hsign
    exact absurd hdigit (by decide)
  · rename_i hsign
    cases hsign
    exact absurd hdigit (by decide)
  · rfl

theorem toList_toString_ofNat (m : Nat) : (toString (Int.ofNat m)).toList = Nat.toDigits 10 m :=
  Nat.toList_repr

theorem toList_toString_negSucc (m : Nat) :
    (toString (Int.negSucc m)).toList = '-' :: Nat.toDigits 10 (m + 1) := by
  rw [show toString (Int.negSucc m) = "-" ++ (m + 1).repr from rfl, String.toList_append,
    Nat.toList_repr]
  rfl

theorem readInt_toString_eq (n : Int) : readInt (toString n) =
    if maxDigits < (Nat.toDigits 10 n.natAbs).length then
      .error (.tooManyDigits (Nat.toDigits 10 n.natAbs).length) else .ok n := by
  cases n with
  | ofNat m =>
    have hsplit : splitSign ((toString (Int.ofNat m)).toList.dropWhile isPadding) =
        (1, Nat.toDigits 10 m) := by
      rw [toList_toString_ofNat]
      exact splitSign_toDigits m
    rw [readInt_of_split hsplit, Int.one_mul]
    rfl
  | negSucc m =>
    have hsplit : splitSign ((toString (Int.negSucc m)).toList.dropWhile isPadding) =
        (-1, Nat.toDigits 10 (m + 1)) := by
      rw [toList_toString_negSucc]
      rfl
    rw [readInt_of_split hsplit, Int.neg_one_mul]
    rfl

theorem readInt_toString (h : Short n) : readInt (toString n) = .ok n := by
  rw [readInt_toString_eq, if_neg (Nat.not_lt.mpr h)]

theorem toDigits_inj {m k : Nat} (h : Nat.toDigits 10 m = Nat.toDigits 10 k) : m = k := by
  have hread := congrArg (Nat.ofDigitChars 10 · 0) h
  simpa only [Nat.ofDigitChars_ten_toDigits] using hread

theorem toString_nat_injective {m k : Nat} (h : toString m = toString k) : m = k := by
  refine toDigits_inj ?_
  rw [← Nat.toList_repr, ← Nat.toList_repr]
  exact congrArg String.toList h

theorem minus_notMem_toDigits (m : Nat) : '-' ∉ Nat.toDigits 10 m := fun hmem =>
  absurd (Nat.isDigit_of_mem_toDigits (by decide) (by decide) hmem) (by decide)

theorem toString_injective {m k : Int} (h : toString m = toString k) : m = k := by
  replace h := congrArg String.toList h
  cases m with
  | ofNat m =>
    cases k with
    | ofNat k =>
      rw [toList_toString_ofNat, toList_toString_ofNat] at h
      rw [toDigits_inj h]
    | negSucc k =>
      rw [toList_toString_ofNat, toList_toString_negSucc] at h
      exact absurd (h ▸ List.mem_cons_self ..) (minus_notMem_toDigits m)
  | negSucc m =>
    cases k with
    | ofNat k =>
      rw [toList_toString_ofNat, toList_toString_negSucc] at h
      exact absurd (h ▸ List.mem_cons_self ..) (minus_notMem_toDigits k)
    | negSucc k =>
      rw [toList_toString_negSucc, toList_toString_negSucc] at h
      rw [Nat.succ.inj (toDigits_inj (List.cons.inj h).2)]

theorem isDigit_of_mem_toString (h : c ∈ (toString n).toList) : c = '-' ∨ c.isDigit = true := by
  cases n with
  | ofNat m =>
    rw [toList_toString_ofNat] at h
    exact .inr (Nat.isDigit_of_mem_toDigits (by decide) (by decide) h)
  | negSucc m =>
    rw [toList_toString_negSucc, List.mem_cons] at h
    exact h.imp_right (Nat.isDigit_of_mem_toDigits (by decide) (by decide))

theorem lt_ten_of_digitValue? (h : digitValue? c = some d) : d < 10 := by
  obtain ⟨z, hz, rfl⟩ := Option.map_eq_some_iff.mp h
  have hrange := List.find?_some hz
  simp only [Bool.and_eq_true, decide_eq_true_eq] at hrange
  omega

theorem lt_ten_of_moreDigits (h : moreDigits cs = some (ds, rest)) : ∀ d ∈ ds, d < 10 := by
  fun_induction moreDigits cs generalizing ds rest with
  | case1 => simp_all
  | case2 => cases h
  | case3 c cs ih =>
    obtain ⟨d, hd, h⟩ := Option.bind_eq_some_iff.mp h
    obtain ⟨⟨ds', rest'⟩, hrest, h⟩ := Option.bind_eq_some_iff.mp h
    cases h
    exact List.forall_mem_cons.mpr ⟨lt_ten_of_digitValue? hd, ih hrest⟩
  | case4 c cs _ _ d hd ih =>
    obtain ⟨⟨ds', rest'⟩, hrest, h⟩ := Option.map_eq_some_iff.mp h
    cases h
    exact List.forall_mem_cons.mpr ⟨lt_ten_of_digitValue? hd, ih hrest⟩
  | case5 => simp_all

theorem exists_of_leadingDigits (h : leadingDigits cs = some (ds, rest)) :
    ∃ d ds', ds = d :: ds' ∧ d < 10 ∧ ∀ d ∈ ds', d < 10 := by
  cases cs with
  | nil => cases h
  | cons c cs =>
    obtain ⟨d, hd, h⟩ := Option.bind_eq_some_iff.mp h
    obtain ⟨⟨ds', rest'⟩, hrest, h⟩ := Option.bind_eq_some_iff.mp h
    cases h
    exact ⟨d, ds', rfl, lt_ten_of_digitValue? hd, lt_ten_of_moreDigits hrest⟩

theorem length_toDigits_le {m : Nat} (hd : d < 10) :
    (Nat.toDigits 10 (10 * m + d)).length ≤ (Nat.toDigits 10 m).length + 1 := by
  rcases Nat.eq_zero_or_pos m with rfl | hm
  · rw [Nat.mul_zero, Nat.zero_add, Nat.toDigits_of_lt_base hd]
    exact Nat.le_add_left 1 _
  · rw [← Nat.toDigits_append_toDigits (by decide) hm hd, List.length_append,
      Nat.toDigits_of_lt_base hd]
    exact Nat.le_refl _

theorem length_toDigits_foldl (h : ∀ d ∈ ds, d < 10) (m : Nat) :
    (Nat.toDigits 10 (ds.foldl (fun n d => 10 * n + d) m)).length ≤
      (Nat.toDigits 10 m).length + ds.length := by
  induction ds generalizing m with
  | nil => exact Nat.le_refl _
  | cons d ds ih =>
    rw [List.forall_mem_cons] at h
    have hstep := length_toDigits_le (m := m) h.1
    have hrest := ih h.2 (10 * m + d)
    rw [List.foldl_cons, List.length_cons]
    omega

theorem natAbs_splitSign (cs : List Char) : (splitSign cs).1.natAbs = 1 := by
  unfold splitSign
  split <;> rfl

theorem short_of_readInt (h : readInt s = .ok n) : Short n := by
  simp only [readInt] at h
  split at h
  · cases h
  · rename_i ds rest hds
    split at h
    · cases h
    · rename_i hlength
      split at h
      · cases h
        obtain ⟨d, ds, rfl, hd, hrest⟩ := exists_of_leadingDigits hds
        have hle := length_toDigits_foldl hrest d
        rw [Nat.toDigits_of_lt_base hd, List.length_singleton] at hle
        rw [List.length_cons] at hlength
        rw [Short, Int.natAbs_mul, natAbs_splitSign, Nat.one_mul, Int.natAbs_natCast,
          List.foldl_cons, Nat.mul_zero, Nat.zero_add]
        omega
      · cases h

end Text

theorem sortBy_map {α β : Type} {le : α → α → Bool} {le' : β → β → Bool} {f : α → β}
    (h : ∀ a b, le' (f a) (f b) = le a b) (as : List α) :
    sortBy le' (as.map f) = (sortBy le as).map f := by
  have hinsert : ∀ a bs, insertBy le' (f a) (bs.map f) = (insertBy le a bs).map f := by
    intro a bs
    induction bs with
    | nil => rfl
    | cons b bs ih =>
      simp only [List.map_cons, insertBy, h, ih]
      split <;> rfl
  induction as with
  | nil => rfl
  | cons a as ih => rw [List.map_cons, sortBy, ih, hinsert, sortBy]

theorem sortBy_eq_of_perm {α : Type} {le : α → α → Bool} (total : ∀ a b, le a b || le b a)
    (trans : ∀ a b c, le a b → le b c → le a c) (antisymm : ∀ a b, le a b → le b a → a = b)
    {as bs : List α} (h : as.Perm bs) : sortBy le as = sortBy le bs := by
  refine List.Perm.eq_of_pairwise (fun a b _ _ => antisymm a b) (pairwise_sortBy total trans as)
    (pairwise_sortBy total trans bs) ?_
  exact (sortBy_perm le as).trans (h.trans (sortBy_perm le bs).symm)

theorem append_cons_inj_of_fresh {α : Type} {c : α} {l l' r r' : List α} (hl : c ∉ l)
    (hl' : c ∉ l') (h : l ++ c :: r = l' ++ c :: r') : l = l' ∧ r = r' := by
  rcases List.append_eq_append_iff.mp h with ⟨m, rfl, hm⟩ | ⟨m, rfl, hm⟩
  · cases m with
    | nil => exact ⟨(List.append_nil l).symm, (List.cons.inj hm).2⟩
    | cons d m =>
      obtain ⟨rfl, _⟩ := List.cons.inj hm
      simp at hl'
  · cases m with
    | nil => exact ⟨List.append_nil l', (List.cons.inj hm).2.symm⟩
    | cons d m =>
      obtain ⟨rfl, _⟩ := List.cons.inj hm
      simp at hl

namespace Label

variable {labels : List Label} {l l' : Label}

theorem precedes_total (l l' : Label) : (l.precedes l' || l'.precedes l) = true := by
  cases l <;> cases l' <;> simp [precedes, Int.le_total]

theorem precedes_trans (l l' l'' : Label) (h : l.precedes l' = true)
    (h' : l'.precedes l'' = true) : l.precedes l'' = true := by
  cases l <;> cases l' <;> cases l'' <;> simp_all [precedes]
  omega

theorem precedes_antisymm (l l' : Label) (h : l.precedes l' = true) (h' : l'.precedes l = true) :
    l = l' := by
  cases l <;> cases l' <;> simp_all [precedes]
  omega

/-- The entry comes before all lines, and a line before those below it. -/
inductive Higher : Label → Label → Prop
  | entry {n : Int} : Higher .entry (.line n)
  | line {m n : Int} : m < n → Higher (.line m) (.line n)

def tabbed : List Label → String
  | [] => ""
  | .entry :: ls => "entry\t" ++ tabbed ls
  | .line n :: ls => toString n ++ "\t" ++ tabbed ls

theorem Higher.lt {m n : Int} (h : Higher (.line m) (.line n)) : m < n := by
  cases h with
  | line hmn => exact hmn

theorem higher_of_precedes (h : l.precedes l' = true) (hne : l ≠ l') : Higher l l' := by
  cases l with
  | entry =>
    cases l' with
    | entry => exact absurd rfl hne
    | line n => exact .entry
  | line m =>
    cases l' with
    | entry => cases h
    | line n =>
      exact .line (Int.lt_iff_le_and_ne.mpr
        ⟨of_decide_eq_true h, fun heq => hne (congrArg line heq)⟩)

theorem pairwise_higher_sortBy (h : labels.Nodup) : (sortBy precedes labels).Pairwise Higher := by
  have hsorted := pairwise_sortBy precedes_total precedes_trans labels
  have hnodup : (sortBy precedes labels).Nodup := (sortBy_perm precedes labels).nodup_iff.mpr h
  exact (hsorted.and hnodup).imp fun h => higher_of_precedes h.1 h.2

theorem saved_map_text (labels : List Label) : saved (labels.map text) = tabbed labels := by
  induction labels with
  | nil => rfl
  | cons l ls ih =>
    rw [List.map_cons, saved, List.map_cons, String.join_cons, ← saved, ih]
    cases l with
    | entry => rfl
    | line n => rfl

theorem toString_ne_entryText (n : Int) : toString n ≠ entryText := by
  intro heq
  have hdigit := Text.isDigit_of_mem_toString (c := 'e') (n := n) (by rw [heq]; decide)
  revert hdigit
  decide

theorem text_injective (h : l.text = l'.text) : l = l' := by
  cases l with
  | entry =>
    cases l' with
    | entry => rfl
    | line n => exact absurd h.symm (toString_ne_entryText n)
  | line m =>
    cases l' with
    | entry => exact absurd h (toString_ne_entryText m)
    | line n => exact congrArg line (Text.toString_injective h)

theorem tab_notMem_text (l : Label) : '\t' ∉ l.text.toList := by
  cases l with
  | entry => decide
  | line n =>
    intro htab
    have hdigit := Text.isDigit_of_mem_toString htab
    revert hdigit
    decide

theorem parse_text (h : ∀ n, l = line n → Text.Short n) : parse l.text = .ok l := by
  cases l with
  | entry => rfl
  | line n =>
    rw [parse, text, if_neg (toString_ne_entryText n), Text.readInt_toString (h n rfl)]
    rfl

theorem short_of_parse (h : parse l.text = .ok l') : ∀ n, l = line n → Text.Short n := by
  rintro n rfl
  rw [parse, text, if_neg (toString_ne_entryText n), Text.readInt_toString_eq] at h
  split at h
  · cases h
  · rename_i hlength
    exact Nat.le_of_not_lt hlength

theorem parseAll_text (h : ∀ n, line n ∈ labels → Text.Short n) :
    parseAll (labels.map text) = .ok (labels.map fun l => (l, l.text)) := by
  induction labels with
  | nil => rfl
  | cons l ls ih =>
    have hl := parse_text (l := l) fun n hn => h n (hn ▸ List.mem_cons_self ..)
    have hls := ih fun n hn => h n (List.mem_cons_of_mem _ hn)
    simp only [List.map_cons, parseAll, hl, hls, bind, Except.bind]
    rfl

theorem short_of_parseAll {keyed : List (Label × String)}
    (h : parseAll (labels.map text) = .ok keyed) : ∀ n, line n ∈ labels → Text.Short n := by
  induction labels generalizing keyed with
  | nil => simp
  | cons l ls ih =>
    rw [List.map_cons, parseAll] at h
    cases hl : parse l.text with
    | error e =>
      rw [hl] at h
      cases h
    | ok l' =>
      cases hls : parseAll (ls.map text) with
      | error e =>
        rw [hl, hls] at h
        cases h
      | ok rest =>
        intro n hn
        rcases List.mem_cons.mp hn with heq | hn
        · exact short_of_parse hl n heq.symm
        · exact ih hls n hn

theorem sort_text (h : ∀ n, line n ∈ labels → Text.Short n) :
    sort (labels.map text) = .ok ((sortBy precedes labels).map text) := by
  have hsort : sortBy (fun a b => a.1.precedes b.1) (labels.map fun l => (l, l.text)) =
      (sortBy precedes labels).map fun l => (l, l.text) := sortBy_map (fun _ _ => rfl) labels
  simp only [sort, parseAll_text h, bind, Except.bind, hsort, List.map_map]
  rfl

theorem sort_text_iff {texts : List String} : sort (labels.map text) = .ok texts ↔
    texts = (sortBy precedes labels).map text ∧ ∀ n, line n ∈ labels → Text.Short n := by
  constructor
  · intro h
    have hshort : ∀ n, line n ∈ labels → Text.Short n := by
      unfold sort at h
      cases hkeyed : parseAll (labels.map text) with
      | error e =>
        rw [hkeyed] at h
        cases h
      | ok keyed => exact short_of_parseAll hkeyed
    rw [sort_text hshort] at h
    exact ⟨(Except.ok.inj h).symm, hshort⟩
  · rintro ⟨rfl, hshort⟩
    exact sort_text hshort

theorem exists_listing_text (h : ∀ n, line n ∈ labels → Text.Short n) (code : String) :
    ∃ shown, listing code (labels.map text) = .ok shown := by
  simp only [listing, parseAll_text h, bind, Except.bind]
  exact ⟨_, rfl⟩

end Label

end Backslice

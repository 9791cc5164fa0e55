import Backslice.Dot
import Backslice.FactTable
import Backslice.Proofs.Dependence
import Backslice.Proofs.Label
import Mathlib.Data.List.Induction
import Mathlib.Data.List.Nodup
import Mathlib.Data.List.Perm.Basic

namespace Backslice

namespace Text

theorem space_notMem_toDigits (n : Nat) : ' ' ∉ Nat.toDigits 10 n := fun hmem =>
  absurd (Nat.isDigit_of_mem_toDigits (by decide) (by decide) hmem) (by decide)

theorem toDigits_append_inj {m n : Nat} {r r' : List Char}
    (h : Nat.toDigits 10 m ++ ' ' :: r = Nat.toDigits 10 n ++ ' ' :: r') : m = n ∧ r = r' := by
  obtain ⟨hdigits, hrest⟩ :=
    append_cons_inj_of_fresh (space_notMem_toDigits m) (space_notMem_toDigits n) h
  exact ⟨toDigits_inj hdigits, hrest⟩

end Text

namespace Dot

section Order

variable {a b : Dependence Nat}

theorem edgePrecedes_iff : edgePrecedes a b = true ↔ a.source < b.source ∨
    (a.source = b.source ∧ (a.target < b.target ∨
      (a.target = b.target ∧ (a.kind = .control ∨ b.kind = .data)))) := by
  unfold edgePrecedes
  split
  · rename_i hsource
    simp [hsource]
  · split <;> simp_all

theorem edgePrecedes_total (a b : Dependence Nat) :
    (edgePrecedes a b || edgePrecedes b a) = true := by
  rw [Bool.or_eq_true, edgePrecedes_iff, edgePrecedes_iff]
  cases ha : a.kind <;> cases hb : b.kind <;> simp <;> omega

theorem edgePrecedes_trans (a b c : Dependence Nat) (hab : edgePrecedes a b = true)
    (hbc : edgePrecedes b c = true) : edgePrecedes a c = true := by
  rw [edgePrecedes_iff] at *
  cases ha : a.kind <;> cases hb : b.kind <;> cases hc : c.kind <;> simp_all <;> omega

theorem edgePrecedes_antisymm (a b : Dependence Nat) (hab : edgePrecedes a b = true)
    (hba : edgePrecedes b a = true) : a = b := by
  rw [edgePrecedes_iff] at hab hba
  obtain ⟨s, t, k⟩ := a
  obtain ⟨s', t', k'⟩ := b
  cases k <;> cases k' <;> simp_all <;> omega

end Order

section Lines

variable {a b : Dependence Nat} {as bs : List (Dependence Nat)} {r r' : String}

theorem toList_edgeLine (e : Dependence Nat) : (edgeLine e).toList =
    '\t' :: (Nat.toDigits 10 e.source ++ ' ' :: '-' :: '>' :: ' ' ::
      (Nat.toDigits 10 e.target ++ ' ' :: ((edgeStyle e.kind).toList ++ ['\n']))) := by
  simp [edgeLine]

theorem edgeStyle_append_inj {k k' : DependenceKind} {r r' : List Char}
    (h : (edgeStyle k).toList ++ r = (edgeStyle k').toList ++ r') : k = k' ∧ r = r' := by
  cases k <;> cases k' <;> simp_all [edgeStyle]

theorem edgeLine_append_inj (h : edgeLine a ++ r = edgeLine b ++ r') : a = b ∧ r = r' := by
  have hlist := congrArg String.toList h
  simp only [String.toList_append, toList_edgeLine, List.cons_append, List.append_assoc] at hlist
  obtain ⟨hsource, hlist⟩ := Text.toDigits_append_inj (List.cons.inj hlist).2
  simp only [List.cons.injEq, true_and] at hlist
  obtain ⟨htarget, hlist⟩ := Text.toDigits_append_inj hlist
  obtain ⟨hkind, hlist⟩ := edgeStyle_append_inj hlist
  refine ⟨?_, String.toList_inj.mp (List.cons.inj hlist).2⟩
  cases a
  cases b
  simp_all

theorem edgeLine_injective (h : edgeLine a = edgeLine b) : a = b :=
  (edgeLine_append_inj (congrArg (· ++ "") h)).1

theorem edgeLine_append_ne_empty (a : Dependence Nat) (r : String) : edgeLine a ++ r ≠ "" := by
  intro h
  have hlist := congrArg String.toList h
  simp [toList_edgeLine] at hlist

theorem join_edgeLine_injective
    (h : String.join (as.map edgeLine) = String.join (bs.map edgeLine)) : as = bs := by
  induction as generalizing bs with
  | nil =>
    cases bs with
    | nil => rfl
    | cons b bs =>
      rw [List.map_cons, String.join_cons] at h
      exact absurd h.symm (edgeLine_append_ne_empty b _)
  | cons a as ih =>
    cases bs with
    | nil =>
      rw [List.map_cons, String.join_cons] at h
      exact absurd h (edgeLine_append_ne_empty a _)
    | cons b bs =>
      simp only [List.map_cons, String.join_cons] at h
      obtain ⟨rfl, hrest⟩ := edgeLine_append_inj h
      rw [ih hrest]

end Lines

variable {υ : Type} [DecidableEq υ] {f : Facts υ} {g g' : DependenceGraph υ} {u v : υ}
  {a b : Dependence υ} {title : String}

theorem exists_toList_unitLine (f : Facts υ) (u : υ) : ∃ rest, (unitLine f u).toList =
    '\t' :: (Nat.toDigits 10 (f.units.idxOf u) ++ ' ' :: '[' :: rest) :=
  ⟨_, by simp [unitLine]; rfl⟩

theorem unitLine_inj (hu : u ∈ f.units) (h : unitLine f u = unitLine f v) : u = v := by
  obtain ⟨rest, hrest⟩ := exists_toList_unitLine f u
  obtain ⟨rest', hrest'⟩ := exists_toList_unitLine f v
  rw [h, hrest'] at hrest
  obtain ⟨hnumber, _⟩ := Text.toDigits_append_inj (List.cons.inj hrest).2
  exact (List.idxOf_inj hu).mp hnumber.symm

theorem unitLine_ne_edgeLine (f : Facts υ) (u : υ) (e : Dependence Nat) :
    unitLine f u ≠ edgeLine e := by
  intro h
  obtain ⟨rest, hrest⟩ := exists_toList_unitLine f u
  rw [h, toList_edgeLine] at hrest
  obtain ⟨_, hrest⟩ := Text.toDigits_append_inj (List.cons.inj hrest).2
  exact absurd (List.cons.inj hrest).1 (by decide)

theorem numbered_inj (hsource : a.source ∈ f.units) (htarget : a.target ∈ f.units)
    (h : numbered f a = numbered f b) : a = b := by
  obtain ⟨s, t, k⟩ := a
  obtain ⟨s', t', k'⟩ := b
  simp only [numbered, Dependence.mk.injEq, List.idxOf_inj hsource, List.idxOf_inj htarget] at h
  obtain ⟨rfl, rfl, rfl⟩ := h
  rfl

def shown (f : Facts υ) (g : DependenceGraph υ) : List υ := f.units.filter (· ∈ g.units)

def drawn (f : Facts υ) (g : DependenceGraph υ) : List (Dependence υ) :=
  sortBy (fun a b => edgePrecedes (numbered f a) (numbered f b)) g.edges

def statements (f : Facts υ) (us : List υ) (es : List (Dependence υ)) : List String :=
  us.map (unitLine f) ++ (es.map (numbered f)).map edgeLine

def opening (title : String) : String :=
  (if title = "" then "" else "// " ++ title ++ "\n") ++
    "digraph \x7b\n\trankdir=TB\n\tnode [fontname=Arial]\n\tedge [fontname=Arial]\n"

theorem map_numbered_drawn (f : Facts υ) (g : DependenceGraph υ) :
    (drawn f g).map (numbered f) = sortBy edgePrecedes (g.edges.map (numbered f)) :=
  (sortBy_map (fun _ _ => rfl) g.edges).symm

theorem picture_eq (f : Facts υ) (g : DependenceGraph υ) (title : String) : picture f g title =
    opening title ++ String.join (statements f (shown f g) (drawn f g)) ++ "\x7d\n" := by
  rw [statements, map_numbered_drawn, String.join_append]
  simp only [picture, opening, shown, String.append_assoc]

/-- The statements for the units and edges of a graph: each unit once, in the order of the facts,
then each edge once, in the order of the numbers, and no two statements the same. -/
structure Draws (f : Facts υ) (g : DependenceGraph υ) (us : List υ) (es : List (Dependence υ)) :
    Prop where
  units_sublist : us.Sublist f.units
  mem_units : ∀ u, u ∈ us ↔ u ∈ f.units ∧ u ∈ g.units
  edges_perm : es.Perm g.edges
  edges_sorted : es.Pairwise fun a b => edgePrecedes (numbered f a) (numbered f b) = true
  nodup : (statements f us es).Nodup

omit [DecidableEq υ] in
theorem listed_of_regular (hg : g.Regular) (hunits : ∀ u ∈ g.units, u ∈ f.units) :
    ∀ e ∈ g.edges, e.source ∈ f.units ∧ e.target ∈ f.units := fun e he =>
  ⟨hunits _ (hg.source_mem e he), hunits _ (hg.target_mem e he)⟩

theorem draws_picture (hf : f.units.Nodup) (hg : g.Regular)
    (hunits : ∀ u ∈ g.units, u ∈ f.units) : Draws f g (shown f g) (drawn f g) := by
  have hlisted := listed_of_regular hg hunits
  have hperm : (drawn f g).Perm g.edges := sortBy_perm _ _
  have hsublist : (shown f g).Sublist f.units := List.filter_sublist
  refine ⟨hsublist, by simp [shown], hperm, ?_, ?_⟩
  · exact pairwise_sortBy (fun a b => edgePrecedes_total (numbered f a) (numbered f b))
      (fun a b c => edgePrecedes_trans (numbered f a) (numbered f b) (numbered f c)) g.edges
  · refine List.Nodup.append ?_ ?_ ?_
    · refine List.Nodup.map_on (fun u hu v _ => unitLine_inj (hsublist.subset hu)) ?_
      exact hf.sublist hsublist
    · refine List.Nodup.map (fun _ _ => edgeLine_injective) ?_
      refine List.Nodup.map_on (fun a ha b _ => ?_) (hperm.nodup_iff.mpr hg.edges_nodup)
      obtain ⟨hsource, htarget⟩ := hlisted a (hperm.mem_iff.mp ha)
      exact numbered_inj hsource htarget
    · intro line hunit hedge
      obtain ⟨u, _, rfl⟩ := List.mem_map.mp hunit
      obtain ⟨e, _, heq⟩ := List.mem_map.mp hedge
      exact unitLine_ne_edgeLine f u _ heq.symm

theorem mem_of_map_numbered_eq (hlisted : ∀ e ∈ g.edges, e.source ∈ f.units ∧ e.target ∈ f.units)
    (h : (drawn f g).map (numbered f) = (drawn f g').map (numbered f)) (ha : a ∈ g.edges) :
    a ∈ g'.edges := by
  have hmem : numbered f a ∈ (drawn f g).map (numbered f) :=
    List.mem_map_of_mem (mem_sortBy.mpr ha)
  rw [h] at hmem
  obtain ⟨b, hb, heq⟩ := List.mem_map.mp hmem
  obtain ⟨hsource, htarget⟩ := hlisted a ha
  rw [numbered_inj hsource htarget heq.symm]
  exact mem_sortBy.mp hb

theorem picture_eq_iff_map (hsame : ∀ u, u ∈ g'.units ↔ u ∈ g.units) :
    picture f g title = picture f g' title ↔
      (drawn f g).map (numbered f) = (drawn f g').map (numbered f) := by
  have hshown : shown f g' = shown f g := by
    unfold shown
    simp only [hsame]
  rw [picture_eq, picture_eq, hshown, statements, statements]
  constructor
  · intro h
    simp only [String.join_append, String.append_left_inj, String.append_right_inj] at h
    exact join_edgeLine_injective h
  · exact fun h => by rw [h]

/-- A picture shows each unit of the graph once, in the order of the facts, and each edge once.
Two graphs with the same units have the same picture if and only if they have the same edges,
however each of them was made. -/
theorem picture_tells_edges (hf : f.units.Nodup) (hg : g.Built) (hg' : g'.Built)
    (hunits : ∀ u ∈ g.units, u ∈ f.units) (hsame : ∀ u, u ∈ g'.units ↔ u ∈ g.units)
    (title : String) :
    (picture f g title = picture f g' title ↔ ∀ e, e ∈ g.edges ↔ e ∈ g'.edges) ∧
    ∃ us es, Draws f g us es ∧
      picture f g title = opening title ++ String.join (statements f us es) ++ "\x7d\n" := by
  have hlisted := listed_of_regular hg.regular hunits
  have hlisted' := listed_of_regular hg'.regular fun u hu => hunits u ((hsame u).mp hu)
  refine ⟨?_, shown f g, drawn f g, draws_picture hf hg.regular hunits, picture_eq f g title⟩
  rw [picture_eq_iff_map hsame]
  constructor
  · exact fun h e => ⟨mem_of_map_numbered_eq hlisted h, mem_of_map_numbered_eq hlisted' h.symm⟩
  · intro h
    have hperm : g.edges.Perm g'.edges :=
      (List.perm_ext_iff_of_nodup hg.regular.edges_nodup hg'.regular.edges_nodup).mpr h
    rw [map_numbered_drawn, map_numbered_drawn]
    exact sortBy_eq_of_perm edgePrecedes_total edgePrecedes_trans edgePrecedes_antisymm
      (hperm.map _)

def lettered : FactTable where
  lines := ⟨[("a", none), ("b", some 2), ("c", some 3), ("d", some 4), ("e", some 5), ("f", some 6),
    ("g", some 7), ("h", some 8), ("i", some 9), ("j", some 10), ("k", some 11)]⟩

def entered (es : List (Dependence String)) : DependenceGraph String :=
  es.foldl (fun g e => (g.addEdge e.source e.target e.kind).1) {}

theorem built_entered (es : List (Dependence String)) : (entered es).Built := by
  induction es using List.reverseRecOn with
  | nil => exact .empty
  | append_singleton es e ih =>
    rw [entered, List.foldl_append]
    exact .addEdge e.source e.target e.kind ih

def crossing : List (Dependence String) :=
  [⟨"a", "k", .data⟩, ⟨"a", "c", .data⟩, ⟨"c", "c", .control⟩, ⟨"a", "c", .control⟩]

theorem picture_tells_edges_lettered :
    picture lettered.facts (entered crossing) "PDG" =
      picture lettered.facts (entered crossing.reverse) "PDG" ∧
    picture lettered.facts (entered crossing) "PDG" ≠
      picture lettered.facts (entered crossing.dropLast) "PDG" := by
  have hf : lettered.facts.units.Nodup := by decide
  have hunits : ∀ u ∈ (entered crossing).units, u ∈ lettered.facts.units := by decide
  have hsame : ∀ es : List (Dependence String), (entered es).units.Perm (entered crossing).units →
      ∀ u, u ∈ (entered es).units ↔ u ∈ (entered crossing).units := fun es h _ => h.mem_iff
  have htold := fun es h => (picture_tells_edges hf (built_entered crossing) (built_entered es)
    hunits (hsame es h) "PDG").1
  have hperm : (entered crossing).edges.Perm (entered crossing.reverse).edges := by decide
  refine ⟨(htold _ (by decide)).mpr fun e => hperm.mem_iff, fun heq => ?_⟩
  have hmem := ((htold _ (by decide)).mp heq ⟨"a", "c", .control⟩).mp (by decide)
  revert hmem
  decide

example : picture lettered.facts (entered crossing) "" =
    "digraph \x7b\n\trankdir=TB\n\tnode [fontname=Arial]\n\tedge [fontname=Arial]\n" ++
    "\t0 [label=<a<SUB>entry</SUB>> fillcolor=lightgreen shape=ellipse style=filled]\n" ++
    "\t2 [label=<c<SUB>3</SUB>> shape=rectangle]\n" ++
    "\t10 [label=<k<SUB>11</SUB>> shape=rectangle]\n" ++
    "\t0 -> 2 [label=C]\n\t0 -> 2 [color=red style=dotted]\n" ++
    "\t0 -> 10 [color=red style=dotted]\n\t2 -> 2 [label=C]\n\x7d\n" := by decide +kernel

end Dot

end Backslice

import Backslice.Proofs.Dependence
import Backslice.Slice.Closure
import Mathlib.Data.List.Perm.Subperm
import Mathlib.Logic.Relation

namespace Backslice.Slice

variable {υ : Type} [DecidableEq υ] {g : DependenceGraph υ} {budget : Option Int}
  {seeds stack visited N : List υ} {u w : υ}

/-- The units that some of `us` depend on, along any number of dependences. -/
def Behind (g : DependenceGraph υ) (us : List υ) (w : υ) : Prop :=
  ∃ u ∈ us, Relation.ReflTransGen (fun u p => p ∈ g.sources u) u w

theorem Behind.mono {us vs : List υ} (h : Behind g us w) (hsub : ∀ u ∈ us, u ∈ vs) :
    Behind g vs w := by
  obtain ⟨u, hu, huw⟩ := h
  exact ⟨u, hsub u hu, huw⟩

theorem Behind.of_sources (h : Behind g (g.sources u) w) : Behind g [u] w := by
  obtain ⟨p, hp, hpw⟩ := h
  exact ⟨u, List.mem_singleton_self u, .head hp hpw⟩

theorem Behind.mem_of_unlisted (h : Behind g seeds w) (hg : g.Regular) (hw : w ∉ g.units) :
    w ∈ seeds := by
  obtain ⟨u, hu, huw⟩ := h
  rcases huw.cases_tail with rfl | ⟨v, _, hwv⟩
  · exact hu
  · obtain ⟨k, he⟩ := DependenceGraph.mem_sources.mp hwv
    exact absurd (hg.source_mem _ he) hw

structure Front (υ : Type) where
  stack : List υ
  visited : List υ

/-- One turn of a traversal. The dependences of a visited unit may come to wait in any order, and
more than once. -/
inductive Turn (g : DependenceGraph υ) (budget : Option Int) : Front υ → Front υ → Prop
  | skip {u : υ} {rest visited : List υ} : u ∈ visited →
      Turn g budget ⟨u :: rest, visited⟩ ⟨rest, visited⟩
  | visit {u : υ} {rest visited added : List υ} : u ∉ visited →
      spent budget visited.length = none → u ∈ g.units →
      (∀ p, p ∈ added ↔ p ∈ g.sources u ∧ p ∉ u :: visited) →
      Turn g budget ⟨u :: rest, visited⟩ ⟨added ++ rest, u :: visited⟩

inductive Halts (g : DependenceGraph υ) (budget : Option Int) :
    Front υ → Except (SliceError υ) (List υ) → Prop
  | done {visited : List υ} : Halts g budget ⟨[], visited⟩ (.ok visited)
  | refused {u : υ} {rest visited : List υ} {b : Int} : u ∉ visited →
      spent budget visited.length = some b →
      Halts g budget ⟨u :: rest, visited⟩ (.error (.truncated b visited.length))
  | unlisted {u : υ} {rest visited : List υ} : u ∉ visited →
      spent budget visited.length = none → u ∉ g.units →
      Halts g budget ⟨u :: rest, visited⟩ (.error (.malformed (.notInGraph u)))

def Yields (g : DependenceGraph υ) (budget : Option Int) (x : Front υ)
    (r : Except (SliceError υ) (List υ)) : Prop :=
  ∃ y, Relation.ReflTransGen (Turn g budget) x y ∧ Halts g budget y r

/-- No traversal goes on for ever: a visit leaves fewer units to visit, and all else shortens the
stack. -/
theorem wellFounded_turn (g : DependenceGraph υ) (budget : Option Int) :
    WellFounded fun x y => Turn g budget y x := by
  refine Subrelation.wf ?_ (InvImage.wf
    (fun x : Front υ => ((unvisited g x.visited).length, x.stack.length))
    (Prod.lex Nat.lt_wfRel Nat.lt_wfRel).wf)
  intro x y h
  cases h with
  | skip hu => exact .right _ (Nat.lt_succ_self _)
  | visit hu _ hlisted _ => exact .left _ _ (length_unvisited_lt hlisted hu)

theorem yields_close (g : DependenceGraph υ) (budget : Option Int) (stack visited : List υ) :
    Yields g budget ⟨stack, visited⟩ (close g budget stack visited) := by
  fun_induction close g budget stack visited with
  | case1 visited => exact ⟨_, .refl, .done⟩
  | case2 visited u rest hu ih =>
    obtain ⟨y, hrun, hhalts⟩ := ih
    exact ⟨y, .head (.skip hu) hrun, hhalts⟩
  | case3 visited u rest hu b hb => exact ⟨_, .refl, .refused hu hb⟩
  | case4 visited u rest hu hnone hlisted ih =>
    obtain ⟨y, hrun, hhalts⟩ := ih
    refine ⟨y, .head (.visit hu hnone hlisted fun p => ?_) hrun, hhalts⟩
    simp only [List.mem_filter, decide_eq_true_eq]
  | case5 visited u rest hu hnone hlisted => exact ⟨_, .refl, .unlisted hu hnone hlisted⟩

/-- What every traversal from the seeds keeps: nothing behind the seeds is lost, and nothing else is
met. -/
structure Pending (g : DependenceGraph υ) (budget : Option Int) (seeds : List υ) (x : Front υ) :
    Prop where
  nodup : x.visited.Nodup
  listed : ∀ u ∈ x.visited, u ∈ g.units
  reached : ∀ u ∈ x.visited, ∀ p ∈ g.sources u, p ∈ x.visited ∨ p ∈ x.stack
  behind : ∀ w, Behind g (x.visited ++ x.stack) w ↔ Behind g seeds w
  within : ∀ b ∈ budget, (x.visited.length : Int) ≤ b

theorem pending_start (hb : ∀ b ∈ budget, 0 ≤ b) (hstack : ∀ s, s ∈ stack ↔ s ∈ seeds) :
    Pending g budget seeds ⟨stack, []⟩ where
  nodup := List.nodup_nil
  listed := by simp
  reached := by simp
  behind w := ⟨fun h => h.mono fun s => (hstack s).mp, fun h => h.mono fun s => (hstack s).mpr⟩
  within := hb

theorem Pending.skip (h : Pending g budget seeds ⟨u :: stack, visited⟩) (hu : u ∈ visited) :
    Pending g budget seeds ⟨stack, visited⟩ where
  nodup := h.nodup
  listed := h.listed
  reached w hw p hp := by
    rcases h.reached w hw p hp with hp | hp
    · exact .inl hp
    · rcases List.mem_cons.mp hp with rfl | hp
      · exact .inl hu
      · exact .inr hp
  behind w := by
    rw [← h.behind w]
    constructor
    · exact fun hw => hw.mono fun v hv => by
        rcases List.mem_append.mp hv with hv | hv <;> simp [hv]
    · refine fun hw => hw.mono fun v hv => ?_
      simp only [List.mem_append, List.mem_cons] at hv ⊢
      rcases hv with hv | rfl | hv
      · exact .inl hv
      · exact .inl hu
      · exact .inr hv
  within := h.within

theorem Pending.visit {added : List υ} (h : Pending g budget seeds ⟨u :: stack, visited⟩)
    (hu : u ∉ visited) (hspent : spent budget visited.length = none) (hlisted : u ∈ g.units)
    (hadded : ∀ p, p ∈ added ↔ p ∈ g.sources u ∧ p ∉ u :: visited) :
    Pending g budget seeds ⟨added ++ stack, u :: visited⟩ where
  nodup := List.nodup_cons.mpr ⟨hu, h.nodup⟩
  listed w hw := by
    rcases List.mem_cons.mp hw with rfl | hw
    · exact hlisted
    · exact h.listed w hw
  reached w hw p hp := by
    by_cases hpv : p ∈ u :: visited
    · exact .inl hpv
    · right
      rw [List.mem_append, hadded]
      rcases List.mem_cons.mp hw with rfl | hw
      · exact .inl ⟨hp, hpv⟩
      · rw [List.mem_cons, not_or] at hpv
        have hps := (h.reached w hw p hp).resolve_left hpv.2
        exact .inr ((List.mem_cons.mp hps).resolve_left hpv.1)
  behind w := by
    rw [← h.behind w]
    constructor
    · -- what was added is behind `u`, which has been waiting
      rintro ⟨v, hv, hvw⟩
      simp only [List.mem_append, List.mem_cons, hadded] at hv
      rcases hv with (rfl | hv) | ⟨hv, _⟩ | hv
      · exact ⟨v, by simp, hvw⟩
      · exact ⟨v, by simp [hv], hvw⟩
      · have hsource : Behind g [u] w := Behind.of_sources ⟨v, hv, hvw⟩
        exact hsource.mono (by simp)
      · exact ⟨v, by simp [hv], hvw⟩
    · refine fun hw => hw.mono fun v hv => ?_
      simp only [List.mem_append, List.mem_cons] at hv ⊢
      rcases hv with hv | rfl | hv
      · exact .inl (.inr hv)
      · exact .inl (.inl rfl)
      · exact .inr (.inr hv)
  within b hb := by
    have hfits : ¬ b ≤ (visited.length : Int) := by
      intro hle
      rw [Option.mem_def.mp hb, spent, Option.filter_some, if_pos (decide_eq_true hle)] at hspent
      cases hspent
    simp only [List.length_cons]
    omega

theorem Pending.turn {x y : Front υ} (h : Pending g budget seeds x) (hturn : Turn g budget x y) :
    Pending g budget seeds y := by
  cases hturn with
  | skip hu => exact h.skip hu
  | visit hu hspent hlisted hadded => exact h.visit hu hspent hlisted hadded

theorem Pending.run {x y : Front υ} (h : Pending g budget seeds x)
    (hrun : Relation.ReflTransGen (Turn g budget) x y) : Pending g budget seeds y := by
  induction hrun with
  | refl => exact h
  | tail _ hturn ih => exact ih.turn hturn

theorem Pending.behind_of_mem {x : Front υ} (h : Pending g budget seeds x)
    (hw : w ∈ x.visited ++ x.stack) : Behind g seeds w := (h.behind w).mp ⟨w, hw, .refl⟩

theorem Pending.mem_visited_iff (h : Pending g budget seeds ⟨[], visited⟩) :
    w ∈ visited ↔ Behind g seeds w := by
  constructor
  · exact fun hw => h.behind_of_mem (by simpa using hw)
  · intro hw
    obtain ⟨u, hu, huw⟩ := (h.behind w).mpr hw
    rw [List.append_nil] at hu
    clear hw
    induction huw with
    | refl => exact hu
    | tail _ hp ih => exact (h.reached _ ih _ hp).resolve_right List.not_mem_nil

theorem Pending.halts {x : Front υ} {r : Except (SliceError υ) (List υ)} (hg : g.Regular)
    (h : Pending g budget seeds x) (hr : Halts g budget x r) :
    (∃ N, r = .ok N ∧ N.Nodup ∧ (∀ w ∈ N, w ∈ g.units) ∧ (∀ w, w ∈ N ↔ Behind g seeds w) ∧
      ∀ b ∈ budget, (N.length : Int) ≤ b) ∨
    (∃ b ∈ budget, ∃ M, r = .error (.truncated b M.length) ∧ (M.length : Int) = b ∧
      ∃ u, (u :: M).Nodup ∧ ∀ w ∈ u :: M, Behind g seeds w) ∨
    ∃ u, r = .error (.malformed (.notInGraph u)) ∧ u ∈ seeds ∧ u ∉ g.units := by
  cases hr with
  | done => exact .inl ⟨_, rfl, h.nodup, h.listed, fun w => h.mem_visited_iff, h.within⟩
  | @refused u rest visited b hu hb =>
    obtain ⟨hmem, hle⟩ := Option.filter_eq_some_iff.mp hb
    refine .inr (.inl ⟨b, hmem, visited, rfl, ?_, u, List.nodup_cons.mpr ⟨hu, h.nodup⟩, ?_⟩)
    · exact Int.le_antisymm (h.within b hmem) (of_decide_eq_true hle)
    · intro w hw
      refine h.behind_of_mem ?_
      rcases List.mem_cons.mp hw with rfl | hw <;> simp_all
  | @unlisted u rest visited hu _ hlisted =>
    refine .inr (.inr ⟨u, rfl, ?_, hlisted⟩)
    exact (h.behind_of_mem (by simp)).mem_of_unlisted hg hlisted

theorem Yields.exact {r : Except (SliceError υ) (List υ)} (hg : g.Regular)
    (hstack : ∀ s, s ∈ stack ↔ s ∈ seeds) (h : Yields g none ⟨stack, []⟩ r) :
    (∃ N, r = .ok N ∧ N.Nodup ∧ (∀ s ∈ seeds, s ∈ g.units) ∧ ∀ w, w ∈ N ↔ Behind g seeds w) ∨
    ∃ u, r = .error (.malformed (.notInGraph u)) ∧ u ∈ seeds ∧ u ∉ g.units := by
  obtain ⟨y, hrun, hhalts⟩ := h
  have hstart : Pending g none seeds ⟨stack, []⟩ := pending_start (by simp) hstack
  have hend := hstart.run hrun
  rcases hend.halts hg hhalts with ⟨N, hN, hnodup, hlisted, hmem, _⟩ | ⟨b, hb, _⟩ | hunlisted
  · exact .inl ⟨N, hN, hnodup, fun s hs => hlisted s ((hmem s).mpr ⟨s, hs, .refl⟩), hmem⟩
  · cases hb
  · exact .inr hunlisted

theorem Yields.within {r : Except (SliceError υ) (List υ)} {b : Nat} (hg : g.Regular)
    (hseeds : ∀ s ∈ seeds, s ∈ g.units) (hnodup : N.Nodup) (hN : ∀ w, w ∈ N ↔ Behind g seeds w)
    (hstack : ∀ s, s ∈ stack ↔ s ∈ seeds) (h : Yields g (some b) ⟨stack, []⟩ r) :
    N.length ≤ b ∧ (∃ M, r = .ok M ∧ M.Perm N) ∨
      b < N.length ∧ r = .error (.truncated b b) := by
  obtain ⟨y, hrun, hhalts⟩ := h
  have hstart : Pending g (some (b : Int)) seeds ⟨stack, []⟩ := pending_start (by simp) hstack
  have hend := hstart.run hrun
  rcases hend.halts hg hhalts with ⟨M, hM, hMnodup, _, hmem, hle⟩ | ⟨c, hc, M, hr, hlen, u, hu⟩ |
    ⟨u, _, hu, hunlisted⟩
  · have hperm : M.Perm N :=
      (List.perm_ext_iff_of_nodup hMnodup hnodup).mpr fun w => by rw [hmem, hN]
    refine .inl ⟨?_, M, hM, hperm⟩
    rw [← hperm.length_eq]
    exact Int.ofNat_le.mp (hle _ rfl)
  · -- the units met so far, and one more, are all behind the seeds
    obtain rfl : (b : Int) = c := Option.some.inj hc
    obtain rfl : M.length = b := Int.ofNat.inj hlen
    refine .inr ⟨?_, hr⟩
    have hsub : (u :: M).Subperm N := hu.1.subperm fun w hw => (hN w).mpr (hu.2 w hw)
    exact hsub.length_le
  · exact absurd (hseeds u hu) hunlisted

theorem close_none_of_ok (h : close g budget stack visited = .ok N) :
    close g none stack visited = .ok N := by
  fun_induction close g budget stack visited with
  | case1 visited => rw [close, ← h]
  | case2 visited u rest hu ih => rw [close, dif_pos hu, ih h]
  | case3 => cases h
  | case4 visited u rest hu hnone hlisted ih =>
    rw [close, dif_neg hu]
    simp only [spent, Option.filter_none, dif_pos hlisted, ih h]
  | case5 => cases h

theorem closure_ok (hg : g.Regular) {seeds : List υ} (hseeds : ∀ s ∈ seeds, s ∈ g.units) :
    ∃ N, closure g seeds none = .ok N ∧ N.Nodup ∧ (∀ w, w ∈ N ↔ Behind g seeds w) ∧
      ∀ b : Nat, closure g seeds (some b) =
        if N.length ≤ b then .ok N else .error (.truncated b b) := by
  have hstack : ∀ s, s ∈ seeds.reverse ↔ s ∈ seeds := fun s => List.mem_reverse
  rcases (yields_close g none seeds.reverse []).exact hg hstack with
    ⟨N, hok, hnodup, _, hmem⟩ | ⟨u, _, hu, hunlisted⟩
  · refine ⟨N, hok, hnodup, hmem, fun b => ?_⟩
    have hyields := yields_close g (some (b : Int)) seeds.reverse []
    rcases hyields.within hg hseeds hnodup hmem hstack with ⟨hle, M, hM, _⟩ | ⟨hlt, hr⟩
    · obtain rfl : M = N := Except.ok.inj ((close_none_of_ok hM).symm.trans hok)
      rw [closure, hM, if_pos hle]
    · rw [closure, hr, if_neg (by omega)]
  · exact absurd (hseeds u hu) hunlisted

end Backslice.Slice

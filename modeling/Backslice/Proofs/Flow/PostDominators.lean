import Backslice.Proofs.Flow.Components
import Backslice.Proofs.Flow.PostDominance

namespace Backslice

/-- Of the items other than `b` that no walk from `b` can avoid, the one that is met first. -/
structure Nearest {α : Type} (r : α → α → Prop) (goal p b : α) : Prop where
  ne : p ≠ b
  unavoidable : Unavoidable r goal p b
  first : ∀ a, a ≠ b → a ≠ p → Unavoidable r goal a b → Unavoidable r goal a p

theorem Nearest.unique {α : Type} {r : α → α → Prop} {goal p q b : α} {l : List α}
    (hp : Nearest r goal p b) (hq : Nearest r goal q b) (hl : Walk r p goal l) : p = q := by
  by_contra hne
  have hqp := hp.first q hq.ne (Ne.symm hne) hq.unavoidable
  have hpq := hq.first p hp.ne hne hp.unavoidable
  exact hne (Unavoidable.antisymm hl hpq hqp)

namespace PostDominance

open DepthFirst (Linked neighbours)

variable {g : Graph} {pd : PostDominance} {t : Table NodeId NodeId} {order : List NodeId}
  {a b f n p : NodeId}

theorem meets_ok (h : Climbs order t) (fuel : Nat) (hb : b ∈ t.keys)
    (hfuel : order.idxOf b < fuel) :
    ∃ yes, meets t a fuel b = .ok yes ∧ (yes = true ↔ Above t b a) := by
  induction fuel generalizing b with
  | zero => omega
  | succ fuel ih =>
    rw [meets]
    by_cases hba : b = a
    · exact ⟨true, if_pos hba, by simp [hba, Above.refl]⟩
    rw [if_neg hba]
    by_cases hexit : b = exitId
    · subst hexit
      exact ⟨false, if_pos rfl, by simp [above_exit_iff, Ne.symm hba]⟩
    · obtain ⟨p, hpk, hp, hlt⟩ := h.exists_parent hb hexit
      obtain ⟨yes, hok, hyes⟩ := ih hpk (by omega)
      refine ⟨yes, ?_, ?_⟩
      · rw [if_neg hexit, require_eq_ok hp]
        exact hok
      · rw [hyes, above_iff hexit hp]
        simp [Ne.symm hba]

theorem IsTree.nearest (h : IsTree g order t) (hg : g.Sound) (hb : b ∈ g.ids)
    (hp : t.get? b = some p) : Nearest g.Extended exitId p b := by
  have hne : b ≠ exitId := fun hne => hg.exit_notMem (hne ▸ hb)
  have hpknown := (h.mem_keys p).mp (h.parent_mem b p hne hp)
  have hup : Above t b p := .up hne hp (.refl p)
  have habove := h.above_iff b (List.mem_cons_of_mem _ hb)
  refine ⟨fun hpb => ?_, (habove p).mp hup, fun a hab _ ha => ?_⟩
  · have := h.parent_lt b p hne hp
    rw [hpb] at this
    omega
  · rw [← h.above_iff p hpknown]
    exact ((PostDominance.above_iff hne hp).mp ((habove a).mpr ha)).resolve_left hab

theorem IsTree.nearest_iff (h : IsTree g order t) (hg : g.Sound) (hb : b ∈ g.ids)
    (hp : t.get? b = some p) {q : NodeId} : Nearest g.Extended exitId q b ↔ q = p := by
  have hne : b ≠ exitId := fun hne => hg.exit_notMem (hne ▸ hb)
  have hpknown := (h.mem_keys p).mp (h.parent_mem b p hne hp)
  obtain ⟨l, hl⟩ := Walk.exists_of_reflTransGen (hg.extended_reaches_exit hpknown)
  constructor
  · exact fun hq => ((h.nearest hg hb hp).unique hq hl).symm
  · rintro rfl
    exact h.nearest hg hb hp

theorem exists_frontierOf_eq {succ : Adjacency} {frontier : Table NodeId (List NodeId)}
    (h : frontierOf succ t = .ok frontier) : ∃ value, frontier = Table.ofKeys succ.keys value := by
  obtain ⟨decided, _, h⟩ := exists_of_bind_eq_ok h
  exact ⟨_, (Except.ok.inj h).symm⟩

theorem ofGraph_eq_ok (h : ofGraph g = .ok pd) :
    pd.succ = ExitEdges.extended g ∧ frontierOf pd.succ pd.ipdom = .ok pd.frontier := by
  unfold ofGraph at h
  generalize ExitEdges.extended g = succ at h ⊢
  obtain ⟨t, _, h⟩ := exists_of_bind_eq_ok h
  obtain ⟨frontier, hf, h⟩ := exists_of_bind_eq_ok h
  obtain rfl := Except.ok.inj h
  exact ⟨rfl, hf⟩

structure ByWays (g : Graph) (pd : PostDominance) : Prop where
  succ_eq : pd.succ = ExitEdges.extended g
  mem_keys : ∀ v, v ∈ pd.ipdom.keys ↔ v ∈ exitId :: g.ids
  exit : pd.immediatePostDominator exitId = .ok exitId
  postDominates : ∀ a ∈ exitId :: g.ids, ∀ b ∈ exitId :: g.ids, ∃ yes,
    pd.postDominates a b = .ok yes ∧ (yes = true ↔ Unavoidable (Linked pd.succ) exitId a b)
  nearest : ∀ b ∈ g.ids, ∃ p, pd.immediatePostDominator b = .ok p ∧
    ∀ q, Nearest (Linked pd.succ) exitId q b ↔ q = p

/-- The analysis of a graph succeeds, and its tree is that of the post-dominators. -/
theorem ofGraph_byWays (h : g.Built) : ∃ pd, ofGraph g = .ok pd ∧ ByWays g pd := by
  obtain ⟨pd, hok, htree, _⟩ := ofGraph_ok h.sound
  obtain ⟨hsucc, _⟩ := ofGraph_eq_ok hok
  refine ⟨pd, hok, ?_⟩
  constructor
  case succ_eq => exact hsucc
  case mem_keys => exact htree.mem_keys
  case exit => exact require_eq_ok htree.root
  case postDominates =>
    intro a _ b hb
    have hbk := (htree.mem_keys b).mpr hb
    have hfuel : (sweepOrder g).idxOf b < pd.ipdom.entries.length + 1 := by
      have := List.idxOf_lt_length_of_mem (htree.listed b hbk)
      have := htree.length_le
      omega
    rw [hsucc, linked_extended_eq h.sound]
    simp only [← htree.above_iff b hb]
    exact meets_ok htree.toClimbs _ hbk hfuel
  case nearest =>
    intro b hb
    obtain ⟨p, hp, _⟩ := htree.settled b hb
    rw [hsucc, linked_extended_eq h.sound]
    exact ⟨p, require_eq_ok hp, fun q => htree.nearest_iff h.sound hb hp⟩

open ExitEdges (spinning built_spinning)

theorem ofGraph_byWays_spinning : ∃ pd, ofGraph spinning = .ok pd ∧ ByWays spinning pd ∧
    pd.ipdom.entries = [(exitId, exitId), (5, exitId), (1, exitId), (3, 1), (2, exitId), (4, 2),
      (0, exitId)] := by
  have hrun : ((ofGraph spinning).toOption.any fun pd => decide (
      pd.ipdom.entries = [(exitId, exitId), (5, exitId), (1, exitId), (3, 1), (2, exitId), (4, 2),
        (0, exitId)])) = true := by decide +kernel
  obtain ⟨pd, hpd, hrun⟩ := exists_of_any hrun
  obtain ⟨pd', hpd', hways⟩ := ofGraph_byWays built_spinning
  cases hpd.symm.trans hpd'
  exact ⟨pd, hpd, hways, of_decide_eq_true hrun⟩

/-- The frontier of an id holds the branches that decide whether it is reached. A branch with one
way on decides nothing, nor does any branch decide what is behind it on all ways. -/
structure DecidedBy (g : Graph) (pd : PostDominance) : Prop where
  succ_eq : pd.succ = ExitEdges.extended g
  mem_keys : ∀ v, v ∈ pd.frontier.keys ↔ v ∈ exitId :: g.ids
  mem_frontier : ∀ n ∈ g.ids, ∀ f,
    f ∈ (pd.frontier.get? n).getD [] ↔ Decides (Linked pd.succ) exitId f n
  exit : pd.frontier.get? exitId = some []
  exit_notMem : ∀ n, exitId ∉ (pd.frontier.get? n).getD []
  lone : ∀ f ∈ g.ids, (neighbours pd.succ f).length < 2 →
    ∀ n, ¬ Decides (Linked pd.succ) exitId f n
  behind : ∀ f ∈ g.ids, ∀ p, pd.immediatePostDominator f = .ok p →
    ∀ n, Unavoidable (Linked pd.succ) exitId n p → ¬ Decides (Linked pd.succ) exitId f n

theorem not_decides_exit (hg : g.Sound) : ¬ Decides g.Extended exitId f exitId := by
  rintro ⟨⟨s, hs, _⟩, hnot⟩
  exact hnot ⟨(hs.source_ne_exit hg).symm, fun _ _ => .inr rfl⟩

theorem not_exit_decides (hg : g.Sound) : ¬ Decides g.Extended exitId exitId n := by
  rintro ⟨⟨s, hs, _⟩, _⟩
  exact hs.source_ne_exit hg rfl

theorem IsTree.not_decides_lone (h : IsTree g order t) (hg : g.Sound) (hf : f ∈ g.ids)
    (hlen : (neighbours (ExitEdges.extended g) f).length < 2) :
    ¬ Decides g.Extended exitId f n := by
  obtain ⟨l, hok, hmem⟩ := controlled_ok h hg (List.mem_cons_of_mem _ hf)
  rw [controlled, if_pos hlen] at hok
  cases hok
  rw [← hmem]
  exact List.not_mem_nil

theorem IsTree.not_decides_behind (h : IsTree g order t) (hg : g.Sound) (hf : f ∈ g.ids)
    (hp : t.get? f = some p) (hn : Unavoidable g.Extended exitId n p) :
    ¬ Decides g.Extended exitId f n := by
  have hne : f ≠ exitId := fun hne => hg.exit_notMem (hne ▸ hf)
  have hpknown := (h.mem_keys p).mp (h.parent_mem f p hne hp)
  rw [h.decides_iff hg hf hp, h.above_iff p hpknown]
  exact fun hdecides => hdecides.2 hn

theorem get?_of_require {α : Type} {t : Table NodeId α} {v : NodeId} {x : α}
    (h : require t v = .ok x) : t.get? v = some x := by
  unfold require at h
  split at h
  · cases h
    assumption
  · cases h

/-- The analysis of a graph succeeds, and its frontiers are the control dependences. -/
theorem ofGraph_decidedBy (h : g.Built) : ∃ pd, ofGraph g = .ok pd ∧ DecidedBy g pd := by
  obtain ⟨pd, hok, htree, hmem⟩ := ofGraph_ok h.sound
  obtain ⟨hsucc, hfrontier⟩ := ofGraph_eq_ok hok
  obtain ⟨value, hfrontier⟩ := exists_frontierOf_eq hfrontier
  have hkeys : ∀ v, v ∈ pd.frontier.keys ↔ v ∈ exitId :: g.ids := by
    intro v
    rw [hfrontier, Table.mem_keys_ofKeys, hsucc, ExitEdges.mem_keys_extended h.sound]
  refine ⟨pd, hok, ?_⟩
  have hlinked : Linked pd.succ = g.Extended := hsucc ▸ linked_extended_eq h.sound
  constructor
  case succ_eq => exact hsucc
  case mem_keys => exact hkeys
  case mem_frontier => exact fun n hn f => hlinked ▸ hmem n (List.mem_cons_of_mem _ hn) f
  case exit =>
    obtain ⟨l, hl⟩ := (pd.frontier.exists_get?_iff exitId).mpr
      ((hkeys _).mpr (List.mem_cons_self ..))
    rw [hl, Option.some.injEq, List.eq_nil_iff_forall_not_mem]
    intro f hf
    refine not_decides_exit h.sound ((hmem exitId (List.mem_cons_self ..) f).mp ?_)
    rwa [hl]
  case exit_notMem =>
    intro n hexit
    by_cases hn : n ∈ exitId :: g.ids
    · exact not_exit_decides h.sound ((hmem n hn exitId).mp hexit)
    · rw [← hkeys, ← Table.get?_isSome, Option.not_isSome_iff_eq_none] at hn
      rw [hn] at hexit
      cases hexit
  case lone =>
    intro f hf hlen n
    rw [hlinked]
    exact htree.not_decides_lone h.sound hf (hsucc ▸ hlen)
  case behind =>
    intro f hf p hp n
    rw [hlinked]
    exact htree.not_decides_behind h.sound hf (get?_of_require hp)

theorem ofGraph_decidedBy_spinning : ∃ pd, ofGraph spinning = .ok pd ∧ DecidedBy spinning pd ∧
    pd.frontier.entries = [(4, [2, 0]), (2, [2, 0]), (0, []), (3, [1]), (1, [1]), (5, []),
      (exitId, [])] := by
  have hrun : ((ofGraph spinning).toOption.any fun pd => decide (
      pd.frontier.entries = [(4, [2, 0]), (2, [2, 0]), (0, []), (3, [1]), (1, [1]), (5, []),
        (exitId, [])])) = true := by decide +kernel
  obtain ⟨pd, hpd, hrun⟩ := exists_of_any hrun
  obtain ⟨pd', hpd', hdecided⟩ := ofGraph_decidedBy built_spinning
  cases hpd.symm.trans hpd'
  exact ⟨pd, hpd, hdecided, of_decide_eq_true hrun⟩

end PostDominance

end Backslice

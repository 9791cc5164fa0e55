import Backslice.Proofs.Shape

namespace Backslice

namespace Tree

def OnLines (src : Source) (sites : List Site) : Prop :=
  ∀ s ∈ sites, ∃ t : Tree, s.line = some ↑(src.line t)

variable {src : Source} {sites sites' : List Site} {t : Tree} {ts : List Tree}

theorem onLines_nil (src : Source) : OnLines src [] := List.forall_mem_nil _

theorem onLines_site (src : Source) (kind : PointKind) (t : Tree) :
    OnLines src [t.site src kind] := List.forall_mem_singleton.mpr ⟨t, rfl⟩

theorem OnLines.append (h : OnLines src sites) (h' : OnLines src sites') :
    OnLines src (sites ++ sites') := List.forall_mem_append.mpr ⟨h, h'⟩

theorem OnLines.cons (h : OnLines src sites) (kind : PointKind) (t : Tree) :
    OnLines src (t.site src kind :: sites) := (onLines_site src kind t).append h

theorem OnLines.inLoop (h : OnLines src sites) : OnLines src (sites.map .inLoop) :=
  List.forall_mem_map.mpr h

theorem OnLines.inSwitch (h : OnLines src sites) : OnLines src (sites.map .inSwitch) :=
  List.forall_mem_map.mpr h

theorem onLines_map_site (src : Source) (kind : PointKind) (ts : List Tree) :
    OnLines src (ts.map (site src kind)) := List.forall_mem_map.mpr fun t _ => ⟨t, rfl⟩

theorem onLines_initializerSites (src : Source) (t : Tree) :
    OnLines src (t.initializerSites src) := by
  unfold initializerSites
  split
  · exact onLines_nil src
  · split
    · exact onLines_map_site src _ _
    · exact onLines_site src _ _

theorem onLines_sitesOf (ht : ∀ t ∈ ts, OnLines src (t.sites src)) (skipped : Option Key) :
    OnLines src (sitesOf src skipped ts) := by
  induction ts with
  | nil =>
    rw [sitesOf]
    exact onLines_nil src
  | cons t ts ih =>
    rw [List.forall_mem_cons] at ht
    rw [sitesOf]
    refine OnLines.append ?_ (ih ht.2)
    split
    · exact onLines_nil src
    · exact ht.1

theorem onLines_armSites (ht : ∀ t ∈ ts, OnLines src (t.sites src) ∧
    ∀ c ∈ t.children, OnLines src (c.sites src)) : OnLines src (armSites src ts) := by
  induction ts with
  | nil =>
    rw [armSites]
    exact onLines_nil src
  | cons t ts ih =>
    rw [List.forall_mem_cons] at ht
    rw [armSites]
    refine OnLines.append ?_ (ih ht.2)
    split
    · exact (onLines_sitesOf ht.1.2 _).cons _ _
    · exact ht.1.1

theorem onLines_ite {p : Prop} [Decidable p] (h : OnLines src sites) (h' : OnLines src sites') :
    OnLines src (if p then sites else sites') := by
  split
  · exact h
  · exact h'

theorem onLines_sites (src : Source) (t : Tree) : OnLines src (t.sites src) := by
  -- on the size, as an `else` branch is no child but a grandchild
  induction hn : sizeOf t using Nat.strongRecOn generalizing t with
  | ind n ih =>
  subst hn
  have ht : ∀ c : Tree, sizeOf c < sizeOf t → OnLines src (c.sites src) := fun c hc =>
    ih _ hc c rfl
  have hin : ∀ o : Option Tree, (∀ c, o = some c → sizeOf c < sizeOf t) →
      OnLines src (sitesIn src o) := by
    intro o ho
    cases o with
    | none => exact onLines_nil src
    | some c => exact ht c (ho c rfl)
  have hbody := hin (t.child? "body") fun c hc => sizeOf_child?_lt hc
  have hchildren : ∀ c ∈ t.children, OnLines src (c.sites src) := fun c hc =>
    ht c (sizeOf_lt_of_mem hc)
  have harms : OnLines src (armsIn src (t.child? "body")) := by
    cases hb : t.child? "body" with
    | none => exact onLines_nil src
    | some body =>
      refine onLines_armSites fun c hc => ?_
      have hlt := Nat.lt_trans (sizeOf_lt_of_mem hc) (sizeOf_child?_lt hb)
      exact ⟨ht c hlt, fun d hd => ht d (Nat.lt_trans (sizeOf_lt_of_mem hd) hlt)⟩
  have hupdate : OnLines src ((t.child? "update").toList.map (site src .forUpdate)) :=
    onLines_map_site src _ _
  rw [sites]
  simp only [sites_match_eq, arms_match_eq]
  apply onLines_ite (onLines_nil src)
  apply onLines_ite (onLines_sitesOf hchildren _)
  apply onLines_ite (onLines_map_site src _ _)
  apply onLines_ite (onLines_ite (onLines_nil src) (onLines_site src _ t))
  apply onLines_ite
  · exact ((hin _ fun c hc => sizeOf_child?_lt hc).append
      (hin _ fun c hc => sizeOf_otherwise?_lt hc)).cons _ t
  apply onLines_ite (hbody.inLoop.cons _ t)
  apply onLines_ite (hbody.inLoop.append (onLines_site src _ _))
  apply onLines_ite
  · exact (onLines_initializerSites src t).append ((hbody.inLoop.append hupdate).cons _ t)
  apply onLines_ite (hbody.inLoop.cons _ t)
  apply onLines_ite (harms.inSwitch.cons _ t)
  apply onLines_ite (onLines_site src _ t)
  apply onLines_ite (onLines_site src _ t)
  apply onLines_ite (onLines_site src _ t)
  apply onLines_ite (List.forall_mem_singleton.mpr ⟨t, rfl⟩)
  apply onLines_ite
  · exact List.forall_mem_cons.mpr ⟨⟨t, rfl⟩, onLines_sitesOf hchildren _⟩
  exact onLines_site src _ t

end Tree

namespace Source

theorem length_loop (bs : ByteArray) (i : Nat) (r : List UInt8) :
    (ByteArray.toList.loop bs i r).length = r.length + (bs.size - i) := by
  fun_induction ByteArray.toList.loop bs i r with
  | case1 i r h ih =>
    rw [ih, List.length_cons]
    omega
  | case2 i r h =>
    rw [List.length_reverse]
    omega

theorem line_le (src : Source) (t : Tree) : src.line t ≤ src.bytes.size + 1 := by
  have hbytes : src.bytes.toList.length = src.bytes.size := by
    rw [ByteArray.toList, length_loop, List.length_nil]
    omega
  calc src.line t
    _ ≤ (src.bytes.toList.take t.start).length + 1 := Nat.succ_le_succ List.countP_le_length
    _ ≤ src.bytes.size + 1 := by
      rw [List.length_take, hbytes]
      omega

end Source

namespace Analysis

variable {src : Source} {suffix : RawText} {function : Tree} {scoping : Scoping}
  {draft : Flow.Draft} {n : Node} {l : Int}

theorem line_of_mem_nodes (h : flowOf src suffix function = .ok (scoping, draft))
    (hn : n ∈ draft.graph.nodes) (hl : n.line = some l) : ∃ t : Tree, l = src.line t := by
  obtain ⟨body, hbody, rfl⟩ := exists_body_of_flowOf h
  have houtline : (Flow.build scoping.parameters body).outline =
      (Flow.sitesWith body.sites).map Site.outline :=
    (Flow.build_gains scoping.parameters body).outline_eq
  have hmem : (n.kind, n.line) ∈ (Flow.build scoping.parameters body).outline :=
    List.mem_map.mpr ⟨n, hn, rfl⟩
  rw [houtline] at hmem
  obtain ⟨s, hs, heq⟩ := List.mem_map.mp hmem
  have hline : s.line = some l := hl ▸ congrArg Prod.snd heq
  rcases List.mem_cons.mp hs with rfl | hs
  · cases hline
  · rw [(Stmt.stands_ofFunction hbody).sites_eq] at hs
    have honLines : Tree.OnLines src (Tree.sitesIn src (function.child? "body")) := by
      cases function.child? "body" with
      | none => exact Tree.onLines_nil src
      | some t => exact Tree.onLines_sites src t
    obtain ⟨t, ht⟩ := honLines s hs
    exact ⟨t, Option.some.inj (hline.symm.trans ht)⟩

theorem line_le_of_mem_units {a : Analysis} {v : NodeId}
    (h : flowOf src suffix function = .ok (scoping, draft)) (ha : a.graph = draft.graph)
    (hl : a.facts.line v = some l) : ∃ k : Nat, l = k ∧ k ≤ src.bytes.size + 1 := by
  obtain ⟨n, hn, hl⟩ := Option.bind_eq_some_iff.mp hl
  rw [ha] at hn
  obtain ⟨t, rfl⟩ := line_of_mem_nodes h (List.mem_of_find?_eq_some hn) hl
  exact ⟨_, rfl, src.line_le t⟩

end Analysis

end Backslice

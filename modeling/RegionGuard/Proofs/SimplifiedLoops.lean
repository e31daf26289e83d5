import RegionGuard.Proofs.Counterparts
import RegionGuard.Proofs.LoopNests
import RegionGuard.Proofs.PreheaderRoutes
set_option autoImplicit false

namespace RegionGuard

namespace Graph

variable {ν ε : Type} {g g' : Graph ν ε} {root header h n p u v w : Nat} {l : List Nat} {new sources : List Nat}

/-- A block outside a loop, through which alone the loop is entered and which leads nowhere else. -/
structure EntersBy (g : Graph ν ε) (root h p : Nat) : Prop where
  outside : ¬ g.Inside root h p
  edge : (g.edges.get? (p, h)).isSome
  sole : ∀ w, (g.edges.get? (p, w)).isSome → w = h
  only : ∀ v, (g.edges.get? (v, h)).isSome → g.Inside root h v ∨ v = p

/-- A header that nothing enters from outside, or one vertex alone. -/
def Enclosed (g : Graph ν ε) (root h : Nat) : Prop :=
  (∀ v, (g.edges.get? (v, h)).isSome → g.Inside root h v) ∨ ∃ p, g.EntersBy root h p

/-- Edges from `sources`, which lie outside the loop at a header, give way to ways through new vertices. -/
structure Bridges (g g' : Graph ν ε) (root header : Nat) (new sources : List Nat) : Prop where
  fresh : ∀ n ∈ new, n ≠ root ∧ ∀ v, ¬ (g.edges.get? (n, v)).isSome ∧ ¬ (g.edges.get? (v, n)).isSome
  header_old : header ∉ new
  sources_outside : ∀ v ∈ sources, (g.edges.get? (v, header)).isSome ∧ ¬ g.Inside root header v
  old : ∀ v w, v ∉ new → w ∉ new →
    ((g'.edges.get? (v, w)).isSome ↔ (g.edges.get? (v, w)).isSome ∧ ¬ (w = header ∧ v ∈ sources))
  into : ∀ v n, v ∉ new → n ∈ new → (g'.edges.get? (v, n)).isSome → v ∈ sources
  out : ∀ n w, n ∈ new → w ∉ new → (g'.edges.get? (n, w)).isSome → w = header
  ascending : ∀ n m, n ∈ new → m ∈ new → (g'.edges.get? (n, m)).isSome → n < m
  through : ∀ v ∈ sources, ∃ n ∈ new, (g'.edges.get? (v, n)).isSome ∧ (g'.edges.get? (n, header)).isSome

namespace Bridges

theorem ends_old (b : Bridges g g' root header new sources) (h : (g.edges.get? (v, w)).isSome) : v ∉ new ∧ w ∉ new :=
  ⟨fun hv => ((b.fresh v hv).2 w).1 h, fun hw => ((b.fresh w hw).2 v).2 h⟩

theorem root_old (b : Bridges g g' root header new sources) : root ∉ new := fun hroot => (b.fresh root hroot).1 rfl

theorem project (b : Bridges g g' root header new sources) (hl : g'.Way root v l) :
    (v ∉ new → ∃ l₀, g.Way root v l₀ ∧ l₀ ⊆ l) ∧ (v ∈ new → ∃ u ∈ sources, ∃ l₀, g.Way root u l₀ ∧ l₀ ⊆ l) := by
  induction hl with
  | start => exact ⟨fun _ => ⟨[root], .start, List.Subset.refl _⟩, fun h => absurd h b.root_old⟩
  | @follow v w l hl hedge ih =>
    by_cases hv : v ∈ new
    · obtain ⟨u, hu, l₀, hl₀, hsub⟩ := ih.2 hv
      refine ⟨fun hw => ⟨w :: l₀, ?_, List.cons_subset_cons w hsub⟩,
        fun _ => ⟨u, hu, l₀, hl₀, List.subset_cons_of_subset w hsub⟩⟩
      have hheader := b.out v w hv hw hedge
      exact hl₀.follow (hheader ▸ (b.sources_outside u hu).1)
    · obtain ⟨l₀, hl₀, hsub⟩ := ih.1 hv
      refine ⟨fun hw => ⟨w :: l₀, hl₀.follow ((b.old v w hv hw).mp hedge).1, List.cons_subset_cons w hsub⟩,
        fun hw => ⟨v, b.into v w hv hw hedge, l₀, hl₀, List.subset_cons_of_subset w hsub⟩⟩

/-- Every old way is followed by a new one, with new vertices in between at most. -/
theorem lift (b : Bridges g g' root header new sources) (hl : g.Way root v l) :
    ∃ l', g'.Way root v l' ∧ ∀ x ∈ l', x ∉ new → x ∈ l := by
  induction hl with
  | start => exact ⟨[root], .start, fun x hx _ => hx⟩
  | @follow v w l hl hedge ih =>
    obtain ⟨l', hl', hsub⟩ := ih
    obtain ⟨hv, hw⟩ := b.ends_old hedge
    by_cases hsource : w = header ∧ v ∈ sources
    · obtain ⟨rfl, hv⟩ := hsource
      obtain ⟨n, hn, hin, hout⟩ := b.through v hv
      refine ⟨w :: n :: l', (hl'.follow hin).follow hout, fun x hx hold => ?_⟩
      rcases List.mem_cons.mp hx with rfl | hx
      · exact List.mem_cons_self
      · rcases List.mem_cons.mp hx with rfl | hx
        · exact absurd hn hold
        · exact List.mem_cons_of_mem w (hsub x hx hold)
    · refine ⟨w :: l', hl'.follow ((b.old v w hv hw).mpr ⟨hedge, hsource⟩), fun x hx hold => ?_⟩
      rcases List.mem_cons.mp hx with rfl | hx
      · exact List.mem_cons_self
      · exact List.mem_cons_of_mem w (hsub x hx hold)

theorem reached_iff (b : Bridges g g' root header new sources) (hv : v ∉ new) :
    g'.IsReached root v ↔ g.IsReached root v := by
  constructor
  · rintro ⟨l, hl⟩
    obtain ⟨l₀, hl₀, -⟩ := (b.project hl).1 hv
    exact ⟨l₀, hl₀⟩
  · rintro ⟨l, hl⟩
    obtain ⟨l', hl', -⟩ := b.lift hl
    exact ⟨l', hl'⟩

theorem dominates_iff (b : Bridges g g' root header new sources) (hh : h ∉ new) (hv : v ∉ new) :
    g'.Dominates root h v ↔ g.Dominates root h v := by
  constructor
  · intro hdom l hl
    obtain ⟨l', hl', hsub⟩ := b.lift hl
    exact hsub h (hdom l' hl') hh
  · intro hdom l hl
    obtain ⟨l₀, hl₀, hsub⟩ := (b.project hl).1 hv
    exact hsub (hdom l₀ hl₀)

theorem header_mem (b : Bridges g g' root header new sources) (hl : g'.Way root v l) (hv : v ∉ new) (hn : n ∈ new)
    (hmem : n ∈ l) : header ∈ l := by
  induction hl with
  | start =>
    rw [List.mem_singleton.mp hmem] at hn
    exact absurd hn b.root_old
  | @follow v w l hl hedge ih =>
    rcases List.mem_cons.mp hmem with rfl | hmem
    · exact absurd hn hv
    · by_cases hnew : v ∈ new
      · rw [b.out v w hnew hv hedge]
        exact List.mem_cons_self
      · exact List.mem_cons_of_mem w (ih hnew hmem)

/-- A new vertex is reached from a source that is reached, by a way through new vertices up to its own. -/
theorem exists_source (b : Bridges g g' root header new sources) (hl : g'.Way root n l) (hn : n ∈ new) :
    ∃ u ∈ sources, g.IsReached root u ∧ ∃ between : List Nat, (∀ x ∈ between, x ∈ new ∧ x ≤ n) ∧
      ∀ l, g'.Way root u l → g'.Way root n (between ++ l) := by
  induction hl with
  | start => exact absurd hn b.root_old
  | @follow v w l hl hedge ih =>
    by_cases hv : v ∈ new
    · obtain ⟨u, hu, hreached, between, hbetween, hway⟩ := ih hv
      have hlt := b.ascending v w hv hn hedge
      refine ⟨u, hu, hreached, w :: between, fun x hx => ?_, fun l hl => (hway l hl).follow hedge⟩
      rcases List.mem_cons.mp hx with rfl | hx
      · exact ⟨hn, Nat.le_refl _⟩
      · exact ⟨(hbetween x hx).1, Nat.le_of_lt (Nat.lt_of_le_of_lt (hbetween x hx).2 hlt)⟩
    · refine ⟨v, b.into v w hv hn hedge, (b.reached_iff hv).mp ⟨l, hl⟩, [w], fun x hx => ?_,
        fun l hl => hl.follow hedge⟩
      rw [List.mem_singleton.mp hx]
      exact ⟨hn, Nat.le_refl _⟩

theorem not_dominates (b : Bridges g g' root header new sources) (hu : u ∈ sources) (hreached : g.IsReached root u) :
    ¬ g'.Dominates root header u := by
  intro hdom
  obtain ⟨hedge, houtside⟩ := b.sources_outside u hu
  exact houtside (.latch ⟨hreached, hedge, (b.dominates_iff b.header_old (b.ends_old hedge).1).mp hdom⟩)

theorem goesBack_old (b : Bridges g g' root header new sources) (hback : g'.GoesBack root n h) : n ∉ new ∧ h ∉ new := by
  obtain ⟨⟨l, hl⟩, hedge, hdom⟩ := hback
  have hold : n ∉ new := by
    intro hn
    obtain ⟨u, hu, hreached, between, hbetween, hway⟩ := b.exists_source hl hn
    have hu_old := (b.ends_old (b.sources_outside u hu).1).1
    refine b.not_dominates hu hreached fun m hm => ?_
    -- What dominates the new vertex lies on the way to the source: the vertices behind it come too early.
    have hmem := hdom _ (hway m hm)
    by_cases hh : h ∈ new
    · rcases List.mem_append.mp hmem with hmem | hmem
      · have := b.ascending n h hn hh hedge
        have := (hbetween h hmem).2
        omega
      · exact b.header_mem hm hu_old hh hmem
    · rw [b.out n h hn hh hedge] at hmem
      rcases List.mem_append.mp hmem with hmem | hmem
      · exact absurd (hbetween header hmem).1 b.header_old
      · exact hmem
  refine ⟨hold, fun hh => ?_⟩
  have hu := b.into n h hold hh hedge
  exact b.not_dominates hu ((b.reached_iff hold).mp ⟨l, hl⟩) fun m hm => b.header_mem hm hold hh (hdom m hm)

theorem goesBack_iff (b : Bridges g g' root header new sources) : g'.GoesBack root n h ↔ g.GoesBack root n h := by
  constructor
  · intro hback
    obtain ⟨hn, hh⟩ := b.goesBack_old hback
    exact ⟨(b.reached_iff hn).mp hback.reached, ((b.old n h hn hh).mp hback.edge).1,
      (b.dominates_iff hh hn).mp hback.dominates⟩
  · intro hback
    obtain ⟨hn, hh⟩ := b.ends_old hback.edge
    refine ⟨(b.reached_iff hn).mpr hback.reached, (b.old n h hn hh).mpr ⟨hback.edge, ?_⟩,
      (b.dominates_iff hh hn).mpr hback.dominates⟩
    rintro ⟨rfl, hsource⟩
    exact (b.sources_outside n hsource).2 (.latch hback)

theorem inside (b : Bridges g g' root header new sources) (hh : h ∉ new) (hv : g.Inside root h v) : g'.Inside root h v := by
  induction hv with
  | header => exact .header
  | latch hback => exact .latch (b.goesBack_iff.mpr hback)
  | @ahead v w _ hne hedge hreached ih =>
    obtain ⟨hv, hw⟩ := b.ends_old hedge
    have hreached' := (b.reached_iff hv).mpr hreached
    by_cases hsource : w = header ∧ v ∈ sources
    · obtain ⟨rfl, hv⟩ := hsource
      obtain ⟨n, hn, hin, hout⟩ := b.through v hv
      exact .ahead (.ahead ih hne hout (hreached'.follow hin)) (fun heq => hh (heq ▸ hn)) hin hreached'
    · exact .ahead ih hne ((b.old v w hv hw).mpr ⟨hedge, hsource⟩) hreached'

/-- A loop holds the old vertices that it held, and new ones only if it holds the header as one of others. -/
theorem inside_old (b : Bridges g g' root header new sources) (hh : h ∉ new) (hv : g'.Inside root h v) :
    (v ∉ new → g.Inside root h v) ∧ (v ∈ new → h ≠ header ∧ g.Inside root h header) := by
  induction hv with
  | header => exact ⟨fun _ => .header, fun hnew => absurd hnew hh⟩
  | latch hback => exact ⟨fun _ => .latch (b.goesBack_iff.mp hback), fun hnew => absurd hnew (b.goesBack_old hback).1⟩
  | @ahead v w _ hne hedge hreached ih =>
    by_cases hw : w ∈ new
    · obtain ⟨hheader, hinside⟩ := ih.2 hw
      refine ⟨fun hv => ?_, fun _ => ⟨hheader, hinside⟩⟩
      have hsource := b.into v w hv hw hedge
      exact .ahead hinside (Ne.symm hheader) (b.sources_outside v hsource).1 ((b.reached_iff hv).mp hreached)
    · have hinside := ih.1 hw
      refine ⟨fun hv => .ahead hinside hne ((b.old v w hv hw).mp hedge).1 ((b.reached_iff hv).mp hreached), fun hv => ?_⟩
      rw [b.out v w hv hw hedge] at hne hinside
      exact ⟨Ne.symm hne, hinside⟩

theorem edge_old (b : Bridges g g' root header new sources) (hh : h ∉ new) (hne : h ≠ header)
    (hedge : (g'.edges.get? (v, h)).isSome) : v ∉ new ∧ (g.edges.get? (v, h)).isSome := by
  have hv : v ∉ new := fun hv => hne (b.out v h hv hh hedge)
  exact ⟨hv, ((b.old v h hv hh).mp hedge).1⟩

/-- A loop that nothing enters stays so, unless it is the one with the new ways. -/
theorem closed (b : Bridges g g' root header new sources) (hh : h ∉ new) (hne : h ≠ header)
    (hall : ∀ v, (g.edges.get? (v, h)).isSome → g.Inside root h v) (hedge : (g'.edges.get? (v, h)).isSome) :
    g'.Inside root h v := b.inside hh (hall v (b.edge_old hh hne hedge).2)

theorem entersBy (b : Bridges g g' root header new sources) (hne : h ≠ header) (hp : g.EntersBy root h p) :
    g'.EntersBy root h p := by
  obtain ⟨hp_old, hh⟩ := b.ends_old hp.edge
  refine ⟨fun hin => hp.outside ((b.inside_old hh hin).1 hp_old),
    (b.old p h hp_old hh).mpr ⟨hp.edge, fun hsource => hne hsource.1⟩, fun w hw => ?_, fun v hv => ?_⟩
  · by_cases hnew : w ∈ new
    · have hsource := b.into p w hp_old hnew hw
      exact absurd (hp.sole header (b.sources_outside p hsource).1).symm hne
    · exact hp.sole w ((b.old p w hp_old hnew).mp hw).1
  · exact (hp.only v (b.edge_old hh hne hv).2).imp_left (b.inside hh)

theorem enclosed (b : Bridges g g' root header new sources) (hh : h ∉ new) (hne : h ≠ header) (hp : g.Enclosed root h) :
    g'.Enclosed root h := by
  rcases hp with hall | ⟨p, hp⟩
  · exact .inl fun v hv => b.closed hh hne hall hv
  · exact .inr ⟨p, b.entersBy hne hp⟩

/-- If all ways from outside now pass one new vertex, the loop is entered by that vertex. -/
theorem entersBy_new (b : Bridges g g' root header new sources) (hn : n ∈ new)
    (hall : ∀ v, (g.edges.get? (v, header)).isSome → g.Inside root header v ∨ v ∈ sources)
    (hedge : (g'.edges.get? (n, header)).isSome) (hsole : ∀ w, (g'.edges.get? (n, w)).isSome → w = header)
    (honly : ∀ m ∈ new, (g'.edges.get? (m, header)).isSome → m = n) : g'.EntersBy root header n := by
  refine ⟨fun hin => ((b.inside_old b.header_old hin).2 hn).1 rfl, hedge, hsole, fun v hv => ?_⟩
  by_cases hnew : v ∈ new
  · exact .inr (honly v hnew hv)
  · obtain ⟨hold, hnot⟩ := (b.old v header hnew b.header_old).mp hv
    rcases hall v hold with hin | hsource
    · exact .inl (b.inside b.header_old hin)
    · exact absurd ⟨rfl, hsource⟩ hnot

theorem of_edges (header : Nat) (hedges : ∀ v w, (g'.edges.get? (v, w)).isSome ↔ (g.edges.get? (v, w)).isSome) :
    Bridges g g' root header [] [] := by
  constructor <;> simp [hedges]

end Bridges

theorem GoesBack.congr (hedges : ∀ v w, (g'.edges.get? (v, w)).isSome ↔ (g.edges.get? (v, w)).isSome) :
    g'.GoesBack root n h ↔ g.GoesBack root n h := (Bridges.of_edges 0 hedges).goesBack_iff

theorem EntersBy.congr (hedges : ∀ v w, (g'.edges.get? (v, w)).isSome ↔ (g.edges.get? (v, w)).isSome)
    (hp : g.EntersBy root h p) : g'.EntersBy root h p :=
  (Bridges.of_edges (h + 1) hedges).entersBy (Nat.ne_of_lt (Nat.lt_succ_self h)) hp

theorem Enclosed.congr (hedges : ∀ v w, (g'.edges.get? (v, w)).isSome ↔ (g.edges.get? (v, w)).isSome)
    (hp : g.Enclosed root h) : g'.Enclosed root h :=
  (Bridges.of_edges (h + 1) hedges).enclosed List.not_mem_nil (Nat.ne_of_lt (Nat.lt_succ_self h)) hp

end Graph

open RegionGuard.Graph

theorem eq_singleton_iff {l : List Nat} (hl : l.Nodup) {p : Nat} : l = [p] ↔ ∀ v, v ∈ l ↔ v = p := by
  constructor
  · rintro rfl v
    exact List.mem_singleton
  · intro h
    refine List.perm_singleton.mp ((List.perm_ext_iff_of_nodup hl (List.nodup_singleton p)).mpr fun v => ?_)
    rw [h, List.mem_singleton]

variable {c c' : FlowGraph} {root : Nat}

theorem Loop.contains_iff {l : Loop} {v : Nat} : l.contains v = true ↔ v ∈ l.nodes.keys := Table.mem_keys_iff.symm

theorem NaturalLoop.contains_iff {l : NaturalLoop} {v : Nat} : l.contains v = true ↔ v ∈ l.blocks.keys :=
  Table.mem_keys_iff.symm

theorem NaturalLoop.Describes.entersBy_iff (wired : c.graph.Wired) {l : Loop} {d : NaturalLoop} (hd : d.Describes c l)
    (hl : c.graph.IsLoop root l) {p : Nat} : d.preheader = some p ↔ c.graph.EntersBy root d.header p := by
  have hinside : ∀ v, l.contains v = true ↔ c.graph.Inside root l.header v := fun v =>
    Loop.contains_iff.trans (hl.holds v)
  have hpredecessors := (nodup_neighbors c.graph.predecessors l.header).filter fun v => !l.contains v
  have hsuccessors := nodup_neighbors c.graph.successors p
  rw [hd.preheader, hd.header]
  refine ((eq_singleton_iff hpredecessors).and (eq_singleton_iff hsuccessors)).trans ?_
  have houtside : ∀ v, v ∈ (c.graph.predecessorsOf l.header).filter (fun v => !l.contains v) ↔
      (c.graph.edges.get? (v, l.header)).isSome ∧ ¬ c.graph.Inside root l.header v := fun v => by
    rw [List.mem_filter, wired.predecessors, Bool.not_eq_true', ← Bool.not_eq_true, hinside]
  constructor
  · rintro ⟨hpredecessors, hsuccessors⟩
    obtain ⟨hedge, hout⟩ := (houtside p).mp ((hpredecessors p).mpr rfl)
    refine ⟨hout, hedge, fun w hw => (hsuccessors w).mp ((wired.successors p w).mpr hw), fun v hv => ?_⟩
    by_cases hin : c.graph.Inside root l.header v
    · exact .inl hin
    · exact .inr ((hpredecessors v).mp ((houtside v).mpr ⟨hv, hin⟩))
  · intro henters
    refine ⟨fun v => ?_, fun w => ?_⟩
    · constructor
      · intro hv
        obtain ⟨hedge, hout⟩ := (houtside v).mp hv
        exact (henters.only v hedge).resolve_left hout
      · rintro rfl
        exact (houtside _).mpr ⟨henters.edge, henters.outside⟩
    · constructor
      · exact fun hw => henters.sole w ((wired.successors p w).mp hw)
      · rintro rfl
        exact (wired.successors p _).mpr henters.edge

theorem NaturalLoop.header_ofLoop {tree : LoopTree} {l : Loop} {d : NaturalLoop} (h : ofLoop c tree l = .ok d) :
    d.header = l.header := by
  obtain ⟨predecessors, -, h⟩ := bind_eq_ok.mp h
  obtain ⟨preheader, -, h⟩ := bind_eq_ok.mp h
  obtain ⟨exiting, -, h⟩ := bind_eq_ok.mp h
  obtain ⟨parents, -, h⟩ := bind_eq_ok.mp h
  cases h
  rfl

theorem map_eq_of_forall₂ {α β γ : Type} {f : α → γ} {g : β → γ} {l : List α} {r : List β}
    (h : List.Forall₂ (fun a b => g b = f a) l r) : r.map g = l.map f := by
  induction h with
  | nil => rfl
  | cons hhead _ ih => rw [List.map_cons, List.map_cons, hhead, ih]

namespace LoopForest

/-- A forest has the loops of a graph, each once, with the block that enters it if there is only one. -/
structure Reports (c : FlowGraph) (root : Nat) (f : LoopForest) : Prop where
  distinct : (f.toList.map (·.header)).Nodup
  latched : ∀ d ∈ f.toList, ∃ n, c.graph.GoesBack root n d.header
  holds : ∀ d ∈ f.toList, ∀ v, d.contains v = true ↔ c.graph.Inside root d.header v
  entered : ∀ d ∈ f.toList, ∀ p, d.preheader = some p ↔ c.graph.EntersBy root d.header p
  complete : ∀ n h, c.graph.GoesBack root n h → h ∈ f.toList.map (·.header)

theorem ofGraph_total (wired : c.graph.Wired) (hentry : c.entry = some root) (hroot : c.graph.hasVertex root) :
    ∃ f, ofGraph c = .ok f ∧ f.Reports c root := by
  obtain ⟨loops, tree, htree, ht, distinct, his, hall, -⟩ := wired.loopTree_ok hroot
  have hvalues : ∀ l, l ∈ tree.vertices.values ↔ l ∈ loops := fun l => by
    rw [Table.mem_values_iff]
    exact ⟨fun ⟨h, hl⟩ => ((ht.vertices h l).mp hl).1, fun hl => ⟨_, (ht.vertices _ l).mpr ⟨hl, rfl⟩⟩⟩
  obtain ⟨described, hdescribed⟩ := mapM_ok (l := tree.vertices.values) fun l hl => by
    obtain ⟨d, hd, -⟩ := NaturalLoop.ofLoop_ok wired (his l ((hvalues l).mp hl)) ht ((hvalues l).mp hl)
    exact ⟨d, hd⟩
  have hforall := mapM_eq_ok.mp hdescribed
  have hdescribes : ∀ d ∈ described, ∃ l ∈ loops, c.graph.IsLoop root l ∧ d.Describes c l := by
    intro d hd
    obtain ⟨l, hl, hof⟩ := exists_of_mem_mapM hdescribed hd
    have hl := (hvalues l).mp hl
    obtain ⟨d', hd', hdescribes⟩ := NaturalLoop.ofLoop_ok wired (his l hl) ht hl
    cases hof.symm.trans hd'
    exact ⟨l, hl, his l hl, hdescribes⟩
  have hkeys : tree.vertices.values.map Loop.header = tree.vertices.keys := by
    refine (List.map_map).trans (List.map_congr_left fun e he => ?_)
    exact ((ht.vertices e.1 e.2).mp ((tree.vertices.get?_eq_some_iff e.1 e.2).mpr he)).2
  have hheaders : described.map (·.header) = tree.vertices.keys :=
    (map_eq_of_forall₂ (hforall.imp fun _ _ => NaturalLoop.header_ofLoop)).trans hkeys
  have hdistinct : ((described.map fun d => (d.header, d)).map (·.1)).Nodup := by
    rw [List.map_map]
    exact hheaders ▸ Table.nodup_keys _
  obtain ⟨depth, hof⟩ : ∃ depth : Nat → Nat, ofGraph c =
      .ok ⟨(Table.ofList (described.map fun d => (d.header, d))).map fun h d => { d with depth := depth h }⟩ :=
    ⟨_, bind_eq_ok.mpr ⟨root, orRaise_eq_ok.mpr hentry,
      bind_eq_ok.mpr ⟨tree, htree, bind_eq_ok.mpr ⟨described, hdescribed, rfl⟩⟩⟩⟩
  refine ⟨_, hof, ?_⟩
  -- The depths are all that is added to the descriptions.
  have hmem : ∀ x ∈ LoopForest.toList ⟨(Table.ofList (described.map fun d => (d.header, d))).map fun h d =>
      { d with depth := depth h }⟩, ∃ d ∈ described, x = { d with depth := depth d.header } := by
    intro x hx
    obtain ⟨h, hget⟩ := Table.mem_values_iff.mp hx
    rw [Table.get?_map_keyed] at hget
    obtain ⟨d, hd, rfl⟩ := Option.map_eq_some_iff.mp hget
    obtain ⟨d', hd', heq⟩ := List.mem_map.mp ((Table.get?_ofList_eq_some hdistinct).mp hd)
    cases heq
    exact ⟨d, hd', rfl⟩
  have hlisted : (LoopForest.toList ⟨(Table.ofList (described.map fun d => (d.header, d))).map fun h d =>
      { d with depth := depth h }⟩).map (·.header) = (Table.ofList (described.map fun d => (d.header, d))).keys := by
    unfold toList Table.values Table.map Table.keys
    rw [List.map_map, List.map_map]
    refine List.map_congr_left fun e he => ?_
    obtain ⟨d, -, heq⟩ := List.mem_map.mp ((Table.get?_ofList_eq_some hdistinct).mp
      ((Table.get?_eq_some_iff _ e.1 e.2).mpr he))
    have heq : (d.header, d) = e := heq
    subst heq
    rfl
  refine ⟨?_, fun x hx => ?_, fun x hx v => ?_, fun x hx p => ?_, fun n h hback => ?_⟩
  · rw [hlisted]
    exact Table.nodup_keys _
  · obtain ⟨d, hd, rfl⟩ := hmem x hx
    obtain ⟨l, -, hl, hdescribes⟩ := hdescribes d hd
    exact hdescribes.header ▸ hl.latched
  · obtain ⟨d, hd, rfl⟩ := hmem x hx
    obtain ⟨l, -, hl, hdescribes⟩ := hdescribes d hd
    rw [NaturalLoop.contains_iff]
    change v ∈ d.blocks.keys ↔ c.graph.Inside root d.header v
    rw [hdescribes.blocks, hdescribes.header]
    exact hl.holds v
  · obtain ⟨d, hd, rfl⟩ := hmem x hx
    obtain ⟨l, -, hl, hdescribes⟩ := hdescribes d hd
    exact hdescribes.entersBy_iff wired hl
  · obtain ⟨l, hl, rfl⟩ := List.mem_map.mp (hall n h hback)
    have hkey : l.header ∈ described.map (·.header) := by
      rw [hheaders, ← hkeys]
      exact List.mem_map_of_mem ((hvalues l).mpr hl)
    obtain ⟨d, hd, hheader⟩ := List.mem_map.mp hkey
    rw [hlisted, Table.mem_keys_iff,
      (Table.get?_ofList_eq_some hdistinct).mpr (List.mem_map.mpr ⟨d, hd, Prod.ext hheader rfl⟩)]
    rfl

theorem Reports.mem_outside {f : LoopForest} (reports : f.Reports c root) (wired : c.graph.Wired) {l : NaturalLoop}
    (hl : l ∈ f.toList) {v : Nat} : v ∈ (c.graph.predecessorsOf l.header).filter (fun b => !l.contains b) ↔
      (c.graph.edges.get? (v, l.header)).isSome ∧ ¬ c.graph.Inside root l.header v := by
  rw [List.mem_filter, wired.predecessors, Bool.not_eq_true', ← Bool.not_eq_true, reports.holds l hl v]

end LoopForest

namespace FlowGraph

structure HasWays (edges : Table (Nat × Nat) Edge) (root : Nat) (c : FlowGraph) : Prop where
  edges : c.graph.edges = edges
  entry : c.entry = some root
  vertex : c.graph.hasVertex root = true

structure IsSimplified (root : Nat) (c : FlowGraph) : Prop where
  entry : c.entry = some root
  vertex : c.graph.hasVertex root = true
  enclosed : ∀ n h, c.graph.GoesBack root n h → c.graph.Enclosed root h

theorem IsSimplified.congr (hc : c.IsSimplified root) (ways : c'.HasWays c.graph.edges root) : c'.IsSimplified root := by
  have hedges : ∀ v w, (c'.graph.edges.get? (v, w)).isSome ↔ (c.graph.edges.get? (v, w)).isSome := fun v w => by
    rw [ways.edges]
  exact ⟨ways.entry, ways.vertex, fun n h hback => (hc.enclosed n h ((GoesBack.congr hedges).mp hback)).congr hedges⟩

end FlowGraph

namespace Preheader

open FlowGraph Edit

/-- Where all loops have their preheaders, the search for one that lacks it skips the closed ones and ends. -/
theorem insertAll_of_isSimplified (wired : c.graph.Wired) (hc : c.IsSimplified root) {f : LoopForest}
    (hf : LoopForest.ofGraph c = .ok f) (reports : f.Reports c root) {rounds : Nat} {skipped : List Nat}
    (hrounds : f.toList.countP (fun d => !skipped.contains d.header) < rounds) :
    (insertAll rounds skipped).run c = .ok (0, c) := by
  induction rounds generalizing skipped with
  | zero => exact absurd hrounds (Nat.not_lt_zero _)
  | succ rounds ih =>
    refine Edit.bind_ok.mpr ⟨f, c, Edit.ask_ok.mpr ⟨hf, rfl⟩, ?_⟩
    split
    · rfl
    · rename_i l hfind
      have hl := List.mem_of_find?_eq_some hfind
      have hcandidate := List.find?_some hfind
      rw [Bool.and_eq_true] at hcandidate
      obtain ⟨hnone, hskipped⟩ := hcandidate
      obtain ⟨n, hback⟩ := reports.latched l hl
      have hinside : ∀ v, (c.graph.edges.get? (v, l.header)).isSome → c.graph.Inside root l.header v := by
        rcases hc.enclosed n l.header hback with hall | ⟨p, hp⟩
        · exact hall
        · rw [(reports.entered l hl p).mpr hp] at hnone
          cases hnone
      have hpredecessors := wired.predecessors_ok (wired.ends n l.header hback.edge).2
      refine Edit.bind_ok.mpr ⟨_, c, Edit.ask_ok.mpr ⟨hpredecessors, rfl⟩, ?_⟩
      have houtside : ((c.graph.predecessorsOf l.header).filter fun b => !l.contains b) = [] := by
        refine List.filter_eq_nil_iff.mpr fun v hv => ?_
        rw [(reports.holds l hl v).mpr (hinside v ((wired.predecessors v l.header).mp hv))]
        exact Bool.false_ne_true
      simp only [houtside, List.isEmpty_nil, if_true]
      refine ih (Nat.lt_of_lt_of_le ?_ (Nat.le_of_lt_succ hrounds))
      refine countP_lt (fun d _ hd => ?_) hl (by simp) hskipped
      simp only [List.contains_cons, Bool.not_or, Bool.and_eq_true] at hd
      exact hd.2

theorem simplify_of_isSimplified (wired : c.graph.Wired) (hc : c.IsSimplified root) : simplify.run c = .ok (0, c) := by
  obtain ⟨f, hf, reports⟩ := LoopForest.ofGraph_total wired hc.entry hc.vertex
  refine Edit.bind_ok.mpr ⟨c, c, rfl, insertAll_of_isSimplified wired hc hf reports ?_⟩
  have hsubset : f.toList.map (·.header) ⊆ c.graph.vertices.keys := by
    intro h hh
    obtain ⟨d, hd, rfl⟩ := List.mem_map.mp hh
    obtain ⟨n, hback⟩ := reports.latched d hd
    exact Table.mem_keys_iff.mpr (wired.ends n d.header hback.edge).2
  have hle := reports.distinct.length_le_of_subset hsubset
  rw [List.length_map] at hle
  have hblocks : c.graph.vertices.keys.length = c.blocks.length := by
    unfold Table.keys blocks Table.values
    rw [List.length_map, List.length_map]
  exact Nat.lt_succ_of_le (Nat.le_trans List.countP_le_length (hblocks ▸ hle))

theorem keeps_ways_temp {edges : Table (Nat × Nat) Edge} (ty : Ty) : Keeps (HasWays edges root) (eval (·.temp ty)) :=
  Keeps.eval fun _ _ _ hc h => by
    obtain ⟨-, rfl⟩ := temp_ok h
    exact ⟨hc.edges, hc.entry, hc.vertex⟩

theorem keeps_ways_modifyBlock {edges : Table (Nat × Nat) Edge} (k : Nat) (f : Block → Outcome Block) :
    Keeps (HasWays edges root) (step (·.modifyBlock k f)) :=
  Keeps.step fun c c' hc h => by
    obtain ⟨b, b', hb, -, rfl⟩ := modifyBlock_ok h
    refine ⟨hc.edges, hc.entry, ?_⟩
    change ((c.graph.vertices.insert k b').get? root).isSome = true
    rw [Table.get?_insert]
    split
    · rfl
    · exact hc.vertex

theorem keeps_ways_reroute {edges : Table (Nat × Nat) Edge} (header preheader : Nat) (outside : List Nat) (i : Instruction) :
    Keeps (HasWays edges root) (reroute header preheader outside i) := by
  unfold reroute
  split
  · simp only
    split
    · exact Keeps.answer _
    · refine Keeps.bind ?_ fun _ => keeps_ways_modifyBlock _ _
      unfold merge
      split
      · exact Keeps.answer _
      · exact (keeps_ways_temp _).bind fun _ => (keeps_ways_modifyBlock _ _).bind fun _ => Keeps.answer _
  · exact Keeps.answer _

theorem bridges_insert (wired : c.graph.Wired) (hentry : c.entry = some root) (hroot : c.graph.hasVertex root)
    {header : Nat} {outside : List Nat}
    (houtside : ∀ v ∈ outside, (c.graph.edges.get? (v, header)).isSome ∧ ¬ c.graph.Inside root header v)
    (hne : outside ≠ []) {u : Unit} (hrun : (Preheader.insert header outside).run c = .ok (u, c')) :
    Bridges c.graph c'.graph root header [c.nextBlock] outside ∧ c'.entry = some root ∧ c'.graph.hasVertex root = true := by
  obtain ⟨new, c₁, hnew, hrest⟩ := Edit.bind_ok.mp hrun
  obtain ⟨_, c₂, hredirect, hrest⟩ := Edit.bind_ok.mp hrest
  obtain ⟨_, c₃, hinsert, hrest⟩ := Edit.bind_ok.mp hrest
  obtain ⟨b, c₄, hask, hrest⟩ := Edit.bind_ok.mp hrest
  obtain ⟨_, c₅, hreroute, hlast⟩ := Edit.bind_ok.mp hrest
  obtain ⟨-, rfl⟩ := pure_ok.mp hlast
  obtain ⟨-, rfl⟩ := ask_ok.mp hask
  have hnew := Edit.eval_ok.mp hnew
  have hinsert := Edit.step_ok.mp hinsert
  rw [forIn_eq_forM] at hredirect hreroute
  have hedges₁ := edges_newBlock hnew
  obtain ⟨hindex, -, hentry₁, -, hvertex⟩ := newBlock_ok hnew
  rw [← hindex]
  obtain ⟨habsent, hgraph₁⟩ := Graph.insertVertex_ok hvertex
  have hroot₁ : c₁.graph.hasVertex root = true := by
    change ((c₁.graph.vertices).get? root).isSome = true
    rw [hgraph₁]
    change ((c.graph.vertices.insert new (.make new)).get? root).isSome = true
    rw [Table.get?_insert]
    split
    · rfl
    · exact hroot
  -- No edge goes to or from a block that was not there.
  have hends : ∀ x y, (c.graph.edges.get? (x, y)).isSome → x ≠ new ∧ y ≠ new := by
    intro x y hxy
    obtain ⟨hx, hy⟩ := wired.ends x y hxy
    have habsent : ¬ (c.graph.vertices.get? new).isSome := by
      rw [show c.graph.vertices.get? new = none from habsent]
      exact Bool.false_ne_true
    exact ⟨fun h => habsent (h ▸ hx), fun h => habsent (h ▸ hy)⟩
  obtain ⟨a₀, ha₀⟩ := List.exists_mem_of_ne_nil _ hne
  have hheader : header ≠ new := (hends a₀ header (houtside a₀ ha₀).1).2
  have hredirected := redirected_forM hheader hredirect
  have ways₃ : c₄.HasWays c₄.graph.edges root := by
    refine ⟨rfl, ?_, ?_⟩
    · rw [(insertEdge_ok hinsert).2, hredirected.fields]
      exact hentry₁.trans hentry
    · change (c₄.graph.vertices.get? root).isSome = true
      rw [Graph.vertices_of_insertEdge (insertEdge_ok hinsert).1, hredirected.vertices]
      exact hroot₁
  have ways := (Keeps.forM fun i _ => keeps_ways_reroute header new outside i) c₄ _ c₅ ways₃ hreroute
  have hedges : ∀ x y, (c₅.graph.edges.get? (x, y)).isSome ↔ x = new ∧ y = header ∨ x ∈ outside ∧ y = new ∨
      (c.graph.edges.get? (x, y)).isSome ∧ ¬ (y = header ∧ x ∈ outside) := by
    intro x y
    rw [ways.edges, edge_insertEdge hinsert]
    by_cases hnew : x = new ∧ y = header
    · rw [if_pos (Prod.ext hnew.1 hnew.2)]
      simp [hnew]
    rw [if_neg fun h => hnew (Prod.mk.inj h)]
    by_cases hx : x ∈ outside
    · by_cases hy : y = header
      · subst hy
        rw [hredirected.gone x hx]
        simp [hx, hheader, (hends x y (houtside x hx).1).1]
      · by_cases hy' : y = new
        · subst hy'
          obtain ⟨e, he⟩ := Option.isSome_iff_exists.mp (hredirected.had x hx)
          obtain ⟨e', he', -⟩ := hredirected.moved x hx e he
          rw [he']
          simp [hx]
        · rw [hredirected.others x y fun h => h.2.elim hy hy', hedges₁]
          simp [hy, hy']
    · rw [hredirected.others x y fun h => hx h.1, hedges₁]
      simp [hx, hnew]
  refine ⟨?_, ways.entry, ways.vertex⟩
  have hout : ∀ x ∈ outside, x ≠ new := fun x hx => (hends x header (houtside x hx).1).1
  refine ⟨fun n hn => ?_, fun h => hheader (List.mem_singleton.mp h), houtside, fun v w hv hw => ?_, fun v n hv hn h => ?_,
    fun n w hn hw h => ?_, fun n m hn hm h => ?_, fun v hv => ?_⟩
  · rw [List.mem_singleton.mp hn]
    refine ⟨?_, fun v => ⟨fun h => (hends _ _ h).1 rfl, fun h => (hends _ _ h).2 rfl⟩⟩
    rintro rfl
    have habsent : c.graph.vertices.get? new = none := habsent
    unfold hasVertex Table.contains at hroot
    rw [habsent] at hroot
    cases hroot
  · rw [List.mem_singleton] at hv hw
    rw [hedges]
    simp [hv, hw]
  · rw [List.mem_singleton] at hv hn
    subst hn
    rcases (hedges v n).mp h with ⟨h, -⟩ | ⟨h, -⟩ | ⟨h, -⟩
    · exact absurd h hv
    · exact h
    · exact absurd rfl (hends v n h).2
  · rw [List.mem_singleton] at hn hw
    subst hn
    rcases (hedges n w).mp h with ⟨-, h⟩ | ⟨h, -⟩ | ⟨h, -⟩
    · exact h
    · exact absurd rfl (hout n h)
    · exact absurd rfl (hends n w h).1
  · rw [List.mem_singleton.mp hn, List.mem_singleton.mp hm] at h
    rcases (hedges new new).mp h with ⟨-, h⟩ | ⟨h, -⟩ | ⟨h, -⟩
    · exact absurd h.symm hheader
    · exact absurd rfl (hout new h)
    · exact absurd rfl (hends new new h).1
  · exact ⟨new, List.mem_singleton_self new, (hedges v new).mpr (.inr (.inl ⟨hv, rfl⟩)),
      (hedges new header).mpr (.inl ⟨rfl, rfl⟩)⟩

structure Skips (root : Nat) (skipped : List Nat) (c : FlowGraph) : Prop where
  wired : c.graph.Wired
  entry : c.entry = some root
  vertex : c.graph.hasVertex root = true
  closed : ∀ s ∈ skipped, (∃ n, (c.graph.edges.get? (n, s)).isSome) ∧
    ∀ v, (c.graph.edges.get? (v, s)).isSome → c.graph.Inside root s v

theorem isSimplified_of_insertAll {rounds : Nat} {skipped : List Nat} (hc : Skips root skipped c) {k : Nat}
    (hrun : (insertAll rounds skipped).run c = .ok (k, c')) : c'.IsSimplified root ∧ c'.graph.Wired := by
  induction rounds generalizing skipped c k with
  | zero => cases hrun
  | succ rounds ih =>
    obtain ⟨f, hf, reports⟩ := LoopForest.ofGraph_total hc.wired hc.entry hc.vertex
    obtain ⟨f', c₁, hforest, hrest⟩ := Edit.bind_ok.mp hrun
    obtain ⟨hforest, rfl⟩ := ask_ok.mp hforest
    cases hf.symm.trans hforest
    split at hrest
    · rename_i hfind
      obtain ⟨-, rfl⟩ := pure_ok.mp hrest
      refine ⟨⟨hc.entry, hc.vertex, fun n h hback => ?_⟩, hc.wired⟩
      obtain ⟨l, hl, rfl⟩ := List.mem_map.mp (reports.complete n h hback)
      have hsettled := List.find?_eq_none.mp hfind l hl
      rw [Bool.and_eq_true, not_and_or, Bool.not_eq_true, Bool.not_eq_true, Bool.not_eq_false',
        Option.isNone_eq_false_iff, Option.isSome_iff_exists] at hsettled
      rcases hsettled with ⟨p, hp⟩ | hskipped
      · exact .inr ⟨p, (reports.entered l hl p).mp hp⟩
      · exact .inl (hc.closed _ (List.contains_iff_mem.mp hskipped)).2
    · rename_i l hfind
      have hl := List.mem_of_find?_eq_some hfind
      obtain ⟨n, hback⟩ := reports.latched l hl
      have hvertex := (hc.wired.ends n l.header hback.edge).2
      obtain ⟨predecessors, c₂, hpredecessors, hrest⟩ := Edit.bind_ok.mp hrest
      obtain ⟨hpredecessors, rfl⟩ := ask_ok.mp hpredecessors
      cases (hc.wired.predecessors_ok hvertex).symm.trans hpredecessors
      simp only at hrest
      split at hrest
      · rename_i hempty
        rw [List.isEmpty_iff] at hempty
        refine ih ⟨hc.wired, hc.entry, hc.vertex, fun s hs => ?_⟩ hrest
        rcases List.mem_cons.mp hs with rfl | hs
        · refine ⟨⟨n, hback.edge⟩, fun v hv => ?_⟩
          by_contra hout
          have := (reports.mem_outside hc.wired hl).mpr ⟨hv, hout⟩
          rw [hempty] at this
          cases this
        · exact hc.closed s hs
      · rename_i hempty
        rw [List.isEmpty_iff] at hempty
        obtain ⟨_, c₃, hinsert, hrest⟩ := Edit.bind_ok.mp hrest
        obtain ⟨further, c₄, hfurther, hanswer⟩ := Edit.bind_ok.mp hrest
        obtain ⟨-, rfl⟩ := pure_ok.mp hanswer
        have hwired := wires_insert _ _ _ _ _ hc.wired hinsert
        obtain ⟨bridges, hentry, hroot⟩ := bridges_insert hc.wired hc.entry hc.vertex
          (fun v hv => (reports.mem_outside hc.wired hl).mp hv) hempty hinsert
        refine ih ⟨hwired, hentry, hroot, fun s hs => ?_⟩ hfurther
        obtain ⟨⟨m, hm⟩, hall⟩ := hc.closed s hs
        obtain ⟨hm_old, hs_old⟩ := bridges.ends_old hm
        have hother : s ≠ l.header := by
          rintro rfl
          obtain ⟨v, hv⟩ := List.exists_mem_of_ne_nil _ hempty
          obtain ⟨hedge, hout⟩ := (reports.mem_outside hc.wired hl).mp hv
          exact hout (hall v hedge)
        exact ⟨⟨m, (bridges.old m s hm_old hs_old).mpr ⟨hm, fun h => hother h.1⟩⟩,
          fun v hv => bridges.closed hs_old hother hall hv⟩

theorem isSimplified_of_simplify (wired : c.graph.Wired) (started : ∀ entry ∈ c.entry, c.graph.hasVertex entry = true)
    {k : Nat} (hrun : simplify.run c = .ok (k, c')) : ∃ root, c'.IsSimplified root ∧ c'.graph.Wired := by
  obtain ⟨c₀, c₁, hget, hrun⟩ := Edit.bind_ok.mp hrun
  cases hget
  obtain ⟨f, c₂, hforest, -⟩ := Edit.bind_ok.mp (show (insertAll (c.blocks.length + 1) []).run c = _ from hrun)
  obtain ⟨hforest, -⟩ := ask_ok.mp hforest
  obtain ⟨root, hroot, -⟩ := bind_eq_ok.mp hforest
  have hentry : c.entry = some root := orRaise_eq_ok.mp hroot
  exact ⟨root, isSimplified_of_insertAll
    ⟨wired, hentry, started root hentry, fun s hs => (List.not_mem_nil hs).elim⟩ hrun⟩

end Preheader

end RegionGuard

import RegionGuard.Proofs.GuardRoutes
import RegionGuard.Proofs.SimplifiedLoops
set_option autoImplicit false

namespace RegionGuard

open RegionGuard.Graph FlowGraph Edit

variable {c c' : FlowGraph} {root header entering join : Nat} {h : Hooks} {d : GuardDecision} {plan : RangePlan}

theorem FlowGraph.HasWays.withTemps {edges : Table (Nat × Nat) Edge} (ways : c.HasWays edges root) (next : Nat) :
    (c.withTemps next).HasWays edges root := ⟨ways.edges, ways.entry, ways.vertex⟩

theorem FlowGraph.HasWays.modifyBlock {edges : Table (Nat × Nat) Edge} (ways : c.HasWays edges root) {k : Nat}
    {f : Block → Outcome Block} (hf : c.modifyBlock k f = .ok c') : c'.HasWays edges root :=
  Preheader.keeps_ways_modifyBlock k f c ⟨⟩ c' ways (step_ok.mpr hf)

structure FlowGraph.Simple (root : Nat) (c : FlowGraph) : Prop where
  wired : c.graph.Wired
  simplified : c.IsSimplified root

namespace FlowGraph.Simple

theorem ways (hc : c.Simple root) : c.HasWays c.graph.edges root := ⟨rfl, hc.simplified.entry, hc.simplified.vertex⟩

theorem withTemps (hc : c.Simple root) (next : Nat) : (c.withTemps next).Simple root :=
  ⟨hc.wired, hc.simplified.congr (hc.ways.withTemps next)⟩

theorem modifyBlock (hc : c.Simple root) {k : Nat} {f : Block → Outcome Block} (hf : c.modifyBlock k f = .ok c') :
    c'.Simple root :=
  ⟨wires_modifyBlock k f c ⟨⟩ c' hc.wired (step_ok.mpr hf), hc.simplified.congr (hc.ways.modifyBlock hf)⟩

end FlowGraph.Simple

theorem FlowGraph.HasWays.newBlock {edges : Table (Nat × Nat) Edge} (ways : c.HasWays edges root) (wired : c.graph.Wired)
    {k : Nat} (hnew : c.newBlock = .ok (k, c')) :
    c'.HasWays edges root ∧ k ≠ root ∧ ∀ x y, (edges.get? (x, y)).isSome → x ≠ k ∧ y ≠ k := by
  obtain ⟨-, -, hentry, -, hvertex⟩ := newBlock_ok hnew
  obtain ⟨habsent, hgraph⟩ := Graph.insertVertex_ok hvertex
  have habsent : c.graph.vertices.get? k = none := habsent
  have hnot : ¬ (c.graph.vertices.get? k).isSome := by
    rw [habsent]
    exact Bool.false_ne_true
  refine ⟨⟨(edges_newBlock hnew).trans ways.edges, hentry.trans ways.entry, ?_⟩, ?_, fun x y hxy => ?_⟩
  · change ((c'.graph.vertices).get? root).isSome = true
    rw [hgraph]
    change ((c.graph.vertices.insert k (.make k)).get? root).isSome = true
    rw [Table.get?_insert]
    split
    · rfl
    · exact ways.vertex
  · rintro rfl
    exact hnot ways.vertex
  · rw [← ways.edges] at hxy
    obtain ⟨hx, hy⟩ := wired.ends x y hxy
    exact ⟨fun heq => hnot (heq ▸ hx), fun heq => hnot (heq ▸ hy)⟩

theorem FlowGraph.HasWays.insertEdge {edges : Table (Nat × Nat) Edge} (ways : c.HasWays edges root) {head tail : Nat}
    {condition : Option Condition} (hedge : c.insertEdge head tail condition = .ok c') :
    c'.HasWays c'.graph.edges root := by
  obtain ⟨hgraph, hc'⟩ := insertEdge_ok hedge
  refine ⟨rfl, by rw [hc']; exact ways.entry, ?_⟩
  change (c'.graph.vertices.get? root).isSome = true
  rw [Graph.vertices_of_insertEdge hgraph]
  exact ways.vertex

theorem FlowGraph.HasWays.removeEdge {edges : Table (Nat × Nat) Edge} (ways : c.HasWays edges root) {head tail : Nat} {e : Edge}
    (hedge : c.removeEdge head tail = .ok (e, c')) : c'.HasWays c'.graph.edges root := by
  obtain ⟨hgraph, hc'⟩ := removeEdge_ok hedge
  refine ⟨rfl, by rw [hc']; exact ways.entry, ?_⟩
  change (c'.graph.vertices.get? root).isSome = true
  rw [Graph.vertices_of_removeEdge hgraph]
  exact ways.vertex

namespace GuardDecision

/-- Guards that share the block in front of a loop change no edge. -/
theorem simple_injectRange_above (tested : plan.topTested = false) (hc : c.Simple root)
    (hrun : (d.injectRange h plan entering header).run c = .ok (join, c')) :
    join = entering ∧ c'.Simple root ∧ c'.graph.edges = c.graph.edges := by
  let m := c.margin h fun _ _ _ => False
  obtain ⟨operations, c₁, rfl, hcollect, hinject⟩ := injectRange_above_ok tested hrun
  obtain ⟨-, next, -, rfl⟩ := Drafting.Adds.collect_ok
    ((GuardCode.adds_entersLoop (m := m) plan).bind fun _ => GuardCode.adds_guardRange plan d.access _)
    (Nat.le_refl _) hcollect
  exact ⟨rfl, (hc.withTemps next).modifyBlock hinject, edges_modifyBlock (c := c.withTemps next) hinject⟩

/-- Guards with blocks of their own open a new way into the loop, which takes the place of the old one. -/
theorem bridges_injectRange_around (tested : plan.topTested) (hc : c.Simple root)
    (enters : c.graph.EntersBy root header entering)
    (hrun : (d.injectRange h plan entering header).run c = .ok (join, c')) :
    ∃ guards, Bridges c.graph c'.graph root header [guards, join] [entering] ∧ (∀ k ∈ [guards, join], c.nextBlock ≤ k) ∧
      c'.graph.Wired ∧ c'.HasWays c'.graph.edges root ∧ c'.graph.EntersBy root header join := by
  let m := c.margin h fun _ _ _ => False
  obtain ⟨enters', test, c₁, c₂, operations, c₃, guards, c₄, c₅, c₆, e, c₇, c₈, c₉, c₁₀, c₁₁, htest,
    hinject, hcollect, hguards, hfill, hjoin, hremove, hthrough, hpast, hpasses, hjoins, hrename⟩ :=
    injectRange_around_ok tested hrun
  -- The test and the guards are put into blocks.
  obtain ⟨-, next, -, rfl⟩ := (GuardCode.adds_entersLoop (m := m) plan).collect_ok (Nat.le_refl _) htest
  have hc₂ := (hc.withTemps next).modifyBlock hinject
  have hedges₂ : c₂.graph.edges = c.graph.edges := edges_modifyBlock (c := c.withTemps next) hinject
  obtain ⟨-, next', -, rfl⟩ := (GuardCode.adds_guardRange (m := c₂.margin h fun _ _ _ => False) plan d.access none).collect_ok
    (Nat.le_refl _) hcollect
  have ways₃ : (c₂.withTemps next').HasWays c.graph.edges root := hedges₂ ▸ hc₂.ways.withTemps next'
  obtain ⟨ways₄, hguards_root, hguards_ends⟩ := ways₃.newBlock hc₂.wired hguards
  have wired₄ := wires_newBlock _ _ _ (show (c₂.withTemps next').graph.Wired from hc₂.wired) (eval_ok.mpr hguards)
  have ways₅ := ways₄.modifyBlock hfill
  have wired₅ := wires_modifyBlock _ _ c₄ ⟨⟩ c₅ wired₄ (step_ok.mpr hfill)
  obtain ⟨ways₆, hjoin_root, hjoin_ends⟩ := ways₅.newBlock wired₅ hjoin
  have wired₆ := wires_newBlock _ _ _ wired₅ (eval_ok.mpr hjoin)
  have hnew : guards = c₂.nextBlock := (newBlock_ok hguards).1
  have hlt : guards < join := by
    have h₁ := (newBlock_ok hguards).2.1
    have h₂ := (modifyBlock_fields hfill).2.2
    have h₃ := (newBlock_ok hjoin).1
    omega
  have hentering := hguards_ends entering header enters.edge
  have hentering' := hjoin_ends entering header enters.edge
  -- The edges are set.
  have wired₁₁ := (((((wired₆.removeEdge (removeEdge_ok hremove).1).insertEdge (insertEdge_ok hthrough).1).insertEdge
    (insertEdge_ok hpast).1).insertEdge (insertEdge_ok hpasses).1).insertEdge (insertEdge_ok hjoins).1)
  have ways₁₁ := ((((ways₆.removeEdge hremove).insertEdge hthrough).insertEdge hpast).insertEdge hpasses).insertEdge hjoins
  have ways₁₂ := ways₁₁.modifyBlock hrename
  have hedges : ∀ x y, (c'.graph.edges.get? (x, y)).isSome ↔ x = join ∧ y = header ∨ x = guards ∧ y = join ∨
      x = entering ∧ y = join ∨ x = entering ∧ y = guards ∨
        (c.graph.edges.get? (x, y)).isSome ∧ ¬ (x = entering ∧ y = header) := by
    intro x y
    rw [ways₁₂.edges, edge_insertEdge hjoins, edge_insertEdge hpasses, edge_insertEdge hpast, edge_insertEdge hthrough,
      edge_removeEdge hremove, ways₆.edges]
    simp only [Prod.mk.injEq]
    split_ifs with h₁ h₂ h₃ h₄ h₅
    · simp [h₁]
    · simp [h₂]
    · simp [h₃]
    · simp [h₄]
    · refine iff_of_false Bool.false_ne_true ?_
      rintro (h | h | h | h | ⟨-, h⟩)
      exacts [h₁ h, h₂ h, h₃ h, h₄ h, h h₅]
    · simp only [h₁, h₂, h₃, h₄, h₅, false_or, not_false_iff, and_true]
  have hnone : ∀ x y, (c.graph.edges.get? (x, y)).isSome → x ≠ guards ∧ y ≠ guards ∧ x ≠ join ∧ y ≠ join := fun x y hxy =>
    ⟨(hguards_ends x y hxy).1, (hguards_ends x y hxy).2, (hjoin_ends x y hxy).1, (hjoin_ends x y hxy).2⟩
  have hheader := hnone entering header enters.edge
  have bridges : Bridges c.graph c'.graph root header [guards, join] [entering] := by
    refine ⟨fun n hn => ?_, fun hin => ?_, fun v hv => ?_, fun v w hv hw => ?_, fun v n hv hn hvn => ?_,
      fun n w hn hw hnw => ?_, fun n k hn hk hnk => ?_, fun v hv => ?_⟩
    · rcases List.mem_pair.mp hn with rfl | rfl
      · exact ⟨hguards_root, fun v => ⟨fun hv => (hnone _ _ hv).1 rfl, fun hv => (hnone _ _ hv).2.1 rfl⟩⟩
      · exact ⟨hjoin_root, fun v => ⟨fun hv => (hnone _ _ hv).2.2.1 rfl, fun hv => (hnone _ _ hv).2.2.2 rfl⟩⟩
    · rcases List.mem_pair.mp hin with heq | heq
      · exact hheader.2.1 heq
      · exact hheader.2.2.2 heq
    · rw [List.mem_singleton.mp hv]
      exact ⟨enters.edge, enters.outside⟩
    · rw [List.mem_pair, not_or] at hv hw
      rw [hedges, List.mem_singleton]
      simp only [hv, hw, false_and, and_false, false_or]
      rw [and_comm (a := w = header)]
    · rw [List.mem_pair, not_or] at hv
      rw [List.mem_singleton]
      rcases (hedges v n).mp hvn with ⟨heq, -⟩ | ⟨heq, -⟩ | ⟨heq, -⟩ | ⟨heq, -⟩ | ⟨hold, -⟩
      · exact absurd heq hv.2
      · exact absurd heq hv.1
      · exact heq
      · exact heq
      · rcases List.mem_pair.mp hn with rfl | rfl
        · exact absurd rfl (hnone _ _ hold).2.1
        · exact absurd rfl (hnone _ _ hold).2.2.2
    · rw [List.mem_pair, not_or] at hw
      rcases (hedges n w).mp hnw with ⟨-, heq⟩ | ⟨-, heq⟩ | ⟨-, heq⟩ | ⟨-, heq⟩ | ⟨hold, -⟩
      · exact heq
      · exact absurd heq hw.2
      · exact absurd heq hw.2
      · exact absurd heq hw.1
      · rcases List.mem_pair.mp hn with rfl | rfl
        · exact absurd rfl (hnone _ _ hold).1
        · exact absurd rfl (hnone _ _ hold).2.2.1
    · rcases (hedges n k).mp hnk with ⟨-, rfl⟩ | ⟨rfl, rfl⟩ | ⟨rfl, -⟩ | ⟨rfl, -⟩ | ⟨hold, -⟩
      · rcases List.mem_pair.mp hk with heq | heq
        · exact absurd heq hheader.2.1
        · exact absurd heq hheader.2.2.2
      · exact hlt
      · rcases List.mem_pair.mp hn with heq | heq
        · exact absurd heq hheader.1
        · exact absurd heq hheader.2.2.1
      · rcases List.mem_pair.mp hn with heq | heq
        · exact absurd heq hheader.1
        · exact absurd heq hheader.2.2.1
      · rcases List.mem_pair.mp hn with rfl | rfl
        · exact absurd rfl (hnone _ _ hold).1
        · exact absurd rfl (hnone _ _ hold).2.2.1
    · rw [List.mem_singleton.mp hv]
      exact ⟨join, List.mem_pair.mpr (.inr rfl), (hedges _ _).mpr (.inr (.inr (.inl ⟨rfl, rfl⟩))),
        (hedges _ _).mpr (.inl ⟨rfl, rfl⟩)⟩
  have hnumbers : ∀ k ∈ [guards, join], c.nextBlock ≤ k := fun k hk => by
    have h₀ : c₂.nextBlock = c.nextBlock := (modifyBlock_fields hinject).2.2
    rcases List.mem_pair.mp hk with rfl | rfl <;> omega
  refine ⟨guards, bridges, hnumbers, wires_modifyBlock _ _ c₁₁ ⟨⟩ c' wired₁₁ (step_ok.mpr hrename), ways₁₂.edges ▸ ways₁₂, ?_⟩
  refine bridges.entersBy_new (List.mem_pair.mpr (.inr rfl)) (fun v hv => ?_) ((hedges _ _).mpr (.inl ⟨rfl, rfl⟩))
    (fun w hw => ?_) fun k hk hedge => ?_
  · exact (enters.only v hv).imp_right List.mem_singleton.mpr
  · rcases (hedges _ _).mp hw with ⟨-, heq⟩ | ⟨heq, -⟩ | ⟨heq, -⟩ | ⟨heq, -⟩ | ⟨hold, -⟩
    · exact heq
    · exact absurd heq (Nat.ne_of_gt hlt)
    · exact absurd heq.symm hheader.2.2.1
    · exact absurd heq.symm hheader.2.2.1
    · exact absurd rfl (hnone _ _ hold).2.2.1
  · rcases (hedges _ _).mp hedge with ⟨heq, -⟩ | ⟨-, heq⟩ | ⟨-, heq⟩ | ⟨-, heq⟩ | ⟨hold, -⟩
    · exact heq
    · exact absurd heq hheader.2.2.2
    · exact absurd heq hheader.2.2.2
    · exact absurd heq hheader.2.1
    · rcases List.mem_pair.mp hk with rfl | rfl
      · exact absurd rfl (hnone _ _ hold).1
      · exact absurd rfl (hnone _ _ hold).2.2.1

structure Entered (root : Nat) (forest : LoopForest) (hoisted : Hoisted) (c : FlowGraph) : Prop where
  simple : c.Simple root
  entering : ∀ l ∈ forest.toList, ∀ preheader, l.preheader = some preheader →
    c.graph.EntersBy root l.header ((hoisted.entering.get? l.header).getD preheader)

namespace Entered

variable {forest : LoopForest} {hoisted hoisted' : Hoisted} {l : NaturalLoop} {preheader : Nat}

theorem keep (g : Entered root forest hoisted c) (hentering : hoisted'.entering = hoisted.entering)
    (hc' : c'.Simple root) (hedges : c'.graph.edges = c.graph.edges) : Entered root forest hoisted' c' := by
  refine ⟨hc', fun l hl preheader hpreheader => ?_⟩
  rw [hentering]
  exact (g.entering l hl preheader hpreheader).congr fun v w => by rw [hedges]

theorem modifyBlock (g : Entered root forest hoisted c) (hentering : hoisted'.entering = hoisted.entering) {k n : Nat}
    {f : Block → Outcome Block} (hf : (c.withTemps n).modifyBlock k f = .ok c') : Entered root forest hoisted' c' :=
  g.keep hentering ((g.simple.withTemps n).modifyBlock hf) (edges_modifyBlock (c := c.withTemps n) hf)

theorem injectRange (g : Entered root forest hoisted c) (hl : l ∈ forest.toList) (hpreheader : l.preheader = some preheader)
    (hrun : (d.injectRange h plan ((hoisted.entering.get? l.header).getD preheader) l.header).run c = .ok (join, c'))
    (hentering : hoisted'.entering = hoisted.entering.insert l.header join) : Entered root forest hoisted' c' := by
  have enters := g.entering l hl preheader hpreheader
  cases tested : plan.topTested with
  | false =>
    obtain ⟨rfl, hc', hedges⟩ := simple_injectRange_above tested g.simple hrun
    refine ⟨hc', fun l' hl' preheader' hpreheader' => ?_⟩
    have hcongr : ∀ v w, (c'.graph.edges.get? (v, w)).isSome ↔ (c.graph.edges.get? (v, w)).isSome := fun v w => by
      rw [hedges]
    rw [hentering, Table.get?_insert]
    split
    · rename_i hsame
      rw [hsame]
      exact enters.congr hcongr
    · exact (g.entering l' hl' preheader' hpreheader').congr hcongr
  | true =>
    obtain ⟨guards, bridges, -, wired, ways, enters'⟩ := bridges_injectRange_around tested g.simple enters hrun
    refine ⟨⟨wired, ways.entry, ways.vertex, fun n k hback => ?_⟩, fun l' hl' preheader' hpreheader' => ?_⟩
    · have hback := bridges.goesBack_iff.mp hback
      by_cases hsame : k = l.header
      · exact .inr ⟨join, hsame ▸ enters'⟩
      · exact bridges.enclosed (bridges.ends_old hback.edge).2 hsame (g.simple.simplified.enclosed n k hback)
    · rw [hentering, Table.get?_insert]
      split
      · rename_i hsame
        rw [hsame]
        exact enters'
      · rename_i hother
        exact bridges.entersBy hother (g.entering l' hl' preheader' hpreheader')

theorem injectHoisted (g : Entered root forest hoisted c) (hl : l ∈ forest.toList)
    (hpreheader : l.preheader = some preheader) {count : Nat}
    (hrun : (d.injectHoisted h hoisted l.header preheader).run c = .ok ((count, hoisted'), c')) :
    Entered root forest hoisted' c' := by
  unfold GuardDecision.injectHoisted at hrun
  simp only at hrun
  split at hrun
  · obtain ⟨hanswer, rfl⟩ := Edit.pure_ok.mp hrun
    cases hanswer
    exact g
  · obtain ⟨_, c₁, hask, hplace⟩ := Edit.bind_ok.mp hrun
    obtain ⟨-, rfl⟩ := Edit.ask_ok.mp hask
    cases hd : d.shape with
    | single =>
      rw [hd] at hplace
      obtain ⟨n, c₂, hinjection, hcount⟩ := Edit.bind_ok.mp hplace
      obtain ⟨hanswer, rfl⟩ := Edit.pure_ok.mp hcount
      cases hanswer
      obtain ⟨⟨_, operations⟩, c₃, hcollect, hcode⟩ := Edit.bind_ok.mp hinjection
      obtain ⟨_, c₄, hinject, hone⟩ := Edit.bind_ok.mp hcode
      obtain ⟨-, rfl⟩ := Edit.pure_ok.mp hone
      obtain ⟨-, next, -, rfl⟩ := (GuardCode.adds_guardPointer
        (m := c₁.margin h fun _ _ _ => False) d.pointer d.access).collect_ok (Nat.le_refl _) hcollect
      exact g.modifyBlock rfl (Edit.step_ok.mp hinject)
    | range plan =>
      rw [hd] at hplace
      obtain ⟨join, c₂, hinjection, hcount⟩ := Edit.bind_ok.mp hplace
      obtain ⟨hanswer, rfl⟩ := Edit.pure_ok.mp hcount
      cases hanswer
      exact g.injectRange hl hpreheader hinjection rfl

theorem inject (g : Entered root forest hoisted c)
    (hoists : ∀ header preheader, d.placement = .preheader header preheader →
      ∃ l ∈ forest.toList, l.preheader = some preheader ∧ l.header = header) {count : Nat}
    (hrun : (d.inject h hoisted).run c = .ok ((count, hoisted'), c')) : Entered root forest hoisted' c' := by
  obtain ⟨c₁, htag, -, hplace⟩ := GuardDecision.inject_ok hrun
  have g₁ : Entered root forest hoisted c₁ := g.keep rfl (g.simple.modifyBlock htag) (edges_modifyBlock htag)
  cases hd : d.placement with
  | omitted =>
    rw [hd] at hplace
    obtain ⟨rfl, rfl⟩ := hplace
    exact g₁
  | preheader header preheader =>
    rw [hd] at hplace
    obtain ⟨l, hl, hpreheader, rfl⟩ := hoists header preheader hd
    exact g₁.injectHoisted hl hpreheader hplace
  | before l =>
    rw [hd] at hplace
    obtain ⟨rfl, position, -, hinject⟩ := hplace
    exact g₁.modifyBlock rfl hinject

theorem injectAll {ds : List GuardDecision} (g : Entered root forest hoisted c)
    (hoists : ∀ d ∈ ds, ∀ header preheader, d.placement = .preheader header preheader →
      ∃ l ∈ forest.toList, l.preheader = some preheader ∧ l.header = header) {count : Nat}
    (hrun : (GuardDecision.injectAll h ds hoisted).run c = .ok (count, c')) :
    ∃ hoisted', Entered root forest hoisted' c' := by
  induction ds generalizing hoisted c count with
  | nil =>
    obtain ⟨-, rfl⟩ := Edit.pure_ok.mp hrun
    exact ⟨hoisted, g⟩
  | cons d rest ih =>
    obtain ⟨⟨n, hoisted₁⟩, c₁, hfirst, hrest⟩ := Edit.bind_ok.mp hrun
    obtain ⟨n', c₂, hothers, hcount⟩ := Edit.bind_ok.mp hrest
    obtain ⟨-, rfl⟩ := Edit.pure_ok.mp hcount
    exact ih (g.inject (hoists d List.mem_cons_self) hfirst) (fun e he => hoists e (List.mem_cons_of_mem d he)) hothers

end Entered

end GuardDecision

end RegionGuard

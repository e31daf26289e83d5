import RegionGuard.Proofs.Abreast
import RegionGuard.Proofs.Tidiness
set_option autoImplicit false

namespace RegionGuard

namespace GuardDecision

def relabel (old new : Nat) : Operation → Operation
  | .phi dst incoming => .phi dst (incoming.map fun e => (e.1, if e.2 = old then new else e.2))
  | o => o

theorem renameIncoming_fields (old new : Nat) (i : Instruction) :
    (renameIncoming old new i).index = i.index ∧
      (renameIncoming old new i).tag? Tag.rule = i.tag? Tag.rule ∧
      (renameIncoming old new i).operation = relabel old new i.operation := by
  unfold renameIncoming relabel
  cases h : i.operation <;> simp [Instruction.tag?, h]

theorem relabel_of_notPhi {old new : Nat} {o : Operation} (h : o.isPhi = false) : relabel old new o = o := by
  cases o with
  | phi => cases h
  | _ => rfl

end GuardDecision

namespace FlowGraph

variable {c c' : FlowGraph} {k : Nat}

theorem block_newBlock (h : c.newBlock = .ok (k, c')) :
    c'.block k = .ok (.make k) ∧ ∀ j, j ≠ k → c'.block j = c.block j := by
  obtain ⟨-, -, -, -, hg⟩ := newBlock_ok h
  obtain ⟨-, hg⟩ := Graph.insertVertex_ok hg
  have hindex : Vertex.index (Block.make k) = k := rfl
  unfold block Graph.vertex
  rw [hg]
  simp only [Table.get?_insert, hindex]
  refine ⟨by rw [if_pos trivial]; rfl, fun j hj => ?_⟩
  rw [if_neg hj]

/-- An edge taken from a graph and four put into it: control passes through new blocks in its place. -/
structure Rerouted (c : FlowGraph) (last header guards join : Nat) (enters : Value) (c' : FlowGraph) :
    Prop where
  fields : c' = { c with graph := c'.graph }
  vertices : c'.graph.vertices = c.graph.vertices
  filed : c'.graph.Filed
  others : ∀ k, k ≠ last → k ≠ guards → k ≠ join → c'.graph.edgesOut k = c.graph.edgesOut k
  tests : c'.graph.edgesOut last =
    .ok [.make last guards (some (.isTrue enters)), .make last join (some (.isFalse enters))]
  passes : c'.graph.edgesOut guards = .ok [.make guards join none]
  joins : c'.graph.edgesOut join = .ok [.make join header none]

theorem rerouted {last header guards join : Nat} {enters : Value} {e x : Edge}
    {c₁ c₂ c₃ c₄ c₅ : FlowGraph} (filed : c.graph.Filed) (hlast : c.graph.edgesOut last = .ok [x])
    (harrives : x.tail = header) (hguards : c.graph.edgesOut guards = .ok [])
    (hjoin : c.graph.edgesOut join = .ok []) (before : last < guards) (behind : guards < join)
    (h₁ : c.removeEdge last header = .ok (e, c₁))
    (h₂ : c₁.insertEdge last guards (some (.isTrue enters)) = .ok c₂)
    (h₃ : c₂.insertEdge last join (some (.isFalse enters)) = .ok c₃)
    (h₄ : c₃.insertEdge guards join none = .ok c₄) (h₅ : c₄.insertEdge join header none = .ok c₅) :
    c.Rerouted last header guards join enters c₅ := by
  obtain ⟨g₁, f₁⟩ := removeEdge_ok h₁
  obtain ⟨g₂, f₂⟩ := insertEdge_ok h₂
  obtain ⟨g₃, f₃⟩ := insertEdge_ok h₃
  obtain ⟨g₄, f₄⟩ := insertEdge_ok h₄
  obtain ⟨g₅, f₅⟩ := insertEdge_ok h₅
  have filed₁ := Graph.filed_removeEdge filed g₁
  have filed₂ := Graph.filed_insertEdge filed₁ g₂
  have filed₃ := Graph.filed_insertEdge filed₂ g₃
  have filed₄ := Graph.filed_insertEdge filed₃ g₄
  have none₁ := Graph.edgesOut_removeEdge_single filed g₁ hlast harrives
  have one₂ := Graph.edgesOut_insertEdge_self filed₁ g₂ none₁ (by simp)
  have two₃ := Graph.edgesOut_insertEdge_self filed₂ g₃ one₂ fun y hy => by
    cases List.mem_singleton.mp hy
    exact behind
  have hguards₁ := (Graph.edgesOut_removeEdge_of_ne g₁ (v := guards) (by omega)).trans hguards
  have hguards₂ := (Graph.edgesOut_insertEdge_of_ne g₂ (v := guards) (Nat.ne_of_gt before)).trans hguards₁
  have hguards₃ := (Graph.edgesOut_insertEdge_of_ne g₃ (v := guards) (Nat.ne_of_gt before)).trans hguards₂
  have one₄ := Graph.edgesOut_insertEdge_self filed₃ g₄ hguards₃ (by simp)
  have hne : join ≠ last := by omega
  have hjoin₁ := (Graph.edgesOut_removeEdge_of_ne g₁ hne).trans hjoin
  have hjoin₂ := (Graph.edgesOut_insertEdge_of_ne g₂ hne).trans hjoin₁
  have hjoin₃ := (Graph.edgesOut_insertEdge_of_ne g₃ hne).trans hjoin₂
  have hjoin₄ := (Graph.edgesOut_insertEdge_of_ne g₄ (Nat.ne_of_gt behind)).trans hjoin₃
  have one₅ := Graph.edgesOut_insertEdge_self filed₄ g₅ hjoin₄ (by simp)
  refine ⟨?_, ?_, Graph.filed_insertEdge filed₄ g₅, ?_, ?_, ?_, one₅⟩
  · rw [f₅, f₄, f₃, f₂, f₁]
  · rw [Graph.vertices_of_insertEdge g₅, Graph.vertices_of_insertEdge g₄, Graph.vertices_of_insertEdge g₃,
      Graph.vertices_of_insertEdge g₂, Graph.vertices_of_removeEdge g₁]
  · intro k hklast hkguards hkjoin
    exact (Graph.edgesOut_insertEdge_of_ne g₅ hkjoin).trans <|
      (Graph.edgesOut_insertEdge_of_ne g₄ hkguards).trans <|
      (Graph.edgesOut_insertEdge_of_ne g₃ hklast).trans <|
      (Graph.edgesOut_insertEdge_of_ne g₂ hklast).trans <| Graph.edgesOut_removeEdge_of_ne g₁ hklast
  · exact (Graph.edgesOut_insertEdge_of_ne g₅ (Ne.symm hne)).trans <|
      (Graph.edgesOut_insertEdge_of_ne g₄ (Nat.ne_of_lt before)).trans two₃
  · exact (Graph.edgesOut_insertEdge_of_ne g₅ (Nat.ne_of_lt behind)).trans one₄

namespace Abreast

variable {m : Margin} {w : Ways} {f o o' : FlowGraph} {header last guards join : Nat}

theorem newBlock (h : f.Abreast m w o) (ho : o.newBlock = .ok (k, o')) :
    f.Abreast m w o' ∧ m.blocks ≤ k ∧ o'.graph.edgesOut k = .ok [] ∧
      ∀ j es, o.graph.edgesOut j = .ok es → j < k ∧ o'.graph.edgesOut j = .ok es := by
  obtain ⟨hk, hnext, hentry, htemps, hg⟩ := newBlock_ok ho
  obtain ⟨hblock, hothers⟩ := block_newBlock ho
  have hle : m.blocks ≤ k := hk ▸ h.blocks
  have hindex : Vertex.index (Block.make k) = k := rfl
  have hkeeps : ∀ j, j ≠ k → o'.graph.edgesOut j = o.graph.edgesOut j :=
    fun j hj => Graph.edgesOut_insertVertex_of_ne hg hj
  have hold : ∀ j es, o.graph.edgesOut j = .ok es → j < k ∧ o'.graph.edgesOut j = .ok es := by
    intro j es hes
    have hj := h.joined.bounded j es hes
    exact ⟨by omega, (hkeeps j (by omega)).trans hes⟩
  refine ⟨⟨by rw [hentry, h.entry], h.left, numbered_of_newBlock h.right ho, h.leftTemps,
    by rw [htemps]; exact h.rightTemps, by omega, ?_, ?_⟩, hle, Graph.edgesOut_insertVertex_self hg, hold⟩
  · constructor
    · intro j b hb
      obtain ⟨hj, b', hb', hstrand⟩ := h.aligned.both j b hb
      exact ⟨hj, b', (hothers j (by omega)).trans hb', hstrand⟩
    · intro j b hj hb
      by_cases hjk : j = k
      · rw [hjk, hblock] at hb
        cases hb
        exact fun z hz => (List.not_mem_nil hz).elim
      · exact h.aligned.added j b hj ((hothers j hjk).symm.trans hb)
  · have hfiled : o'.graph.Filed := by
      obtain ⟨-, hg⟩ := Graph.insertVertex_ok hg
      rw [hg]
      exact h.joined.filed
    refine ⟨hfiled, fun j es hes => ?_, fun j es hj hes => ?_, h.joined.tests, fun j hj hw => ?_,
      fun header j last hw => ?_⟩
    · by_cases hjk : j = k
      · omega
      · have := h.joined.bounded j es ((hkeeps j hjk).symm.trans hes)
        omega
    · by_cases hjk : j = k
      · exact ⟨_, hjk ▸ hblock⟩
      · obtain ⟨b, hb⟩ := h.joined.stored j es hj ((hkeeps j hjk).symm.trans hes)
        exact ⟨b, (hothers j hjk).trans hb⟩
    · rw [hkeeps j (by omega)]
      exact h.joined.plain j hj hw
    · obtain ⟨hheader, hj, e, he, htail, hleads⟩ := h.joined.turned header j last hw
      refine ⟨hheader, hj, e, he, htail, hleads.congr (fun i es hes => (hold i es hes).2) ?_⟩
      rintro i v ⟨b, z, hb, hz, hv⟩
      have hi : i ≠ k := by
        rintro rfl
        obtain ⟨hnew, -⟩ := Graph.insertVertex_ok hg
        rw [block_eq_ok] at hb
        rw [hindex] at hnew
        rw [hnew] at hb
        cases hb
      exact ⟨b, z, (hothers i hi).trans hb, hz, hv⟩

/-- A header with a preheader may count as reached on a way of its own. -/
theorem turn (h : f.Abreast m w o) (hw : w header = none) (hheader : header < m.blocks) (hk : k < m.blocks)
    {e : Edge} (he : f.graph.edgesOut k = .ok [e]) (htail : e.tail = header) :
    f.Abreast m (w.set header k k) o := by
  have hplain : ∀ t last, w t ≠ some (k, last) := by
    intro t last ht
    obtain ⟨-, -, e', he', htail', -⟩ := h.joined.turned t k last ht
    rw [he] at he'
    cases he'
    rw [← htail', htail, hw] at ht
    cases ht
  have harrival : (w.set header k k).arrival = w.arrival := by
    funext t
    by_cases ht : t = header
    · subst ht
      rw [Ways.arrival_of_some Ways.set_self, Ways.arrival_of_none hw]
      funext j
      split
      · rename_i hj
        exact hj.symm
      · rfl
    · exact Ways.arrival_set_of_ne ht
  refine ⟨h.entry, h.left, h.right, h.leftTemps, h.rightTemps, h.blocks, ⟨?_, h.aligned.added⟩,
    h.joined.filed, h.joined.bounded, h.joined.stored, h.joined.tests, fun j hj hw' => ?_, fun t j last ht => ?_⟩
  · rw [harrival]
    exact h.aligned.both
  · apply h.joined.plain j hj
    intro t last ht
    by_cases hth : t = header
    · rw [hth, hw] at ht
      cases ht
    · exact hw' t last ((Ways.set_of_ne hth).trans ht)
  · by_cases hth : t = header
    · subst hth
      rw [Ways.set_self] at ht
      cases ht
      exact ⟨hheader, hk, e, he, htail, .here ((h.joined.plain _ hk hplain).trans he) rfl (.inl rfl)⟩
    · exact h.joined.turned t j last ((Ways.set_of_ne hth).symm.trans ht)

theorem joined_of_rerouted (h : f.Joined m w o) (hw : w header = some (k, last)) {v : Variable}
    (new : m.blocks ≤ guards) (before : last < guards) (behind : guards < join)
    (hguards : o.graph.edgesOut guards = .ok []) (hjoin : o.graph.edgesOut join = .ok [])
    (tested : o.Computes last v) (hr : o.Rerouted last header guards join (.variable v) o') :
    f.Joined m (w.set header k join) o' := by
  obtain ⟨hheader, hk, e, he, htail, hleads⟩ := h.turned header k last hw
  obtain ⟨x, hlast, hx, -⟩ := hleads.arriving
  have hedges : ∀ j es, j ≠ last → o.graph.edgesOut j = .ok es → es ≠ [] → o'.graph.edgesOut j = .ok es := by
    intro j es hj hes hne
    rw [hr.others j hj ?_ ?_]
    · exact hes
    · rintro rfl
      rw [hguards] at hes
      cases hes
      exact hne rfl
    · rintro rfl
      rw [hjoin] at hes
      cases hes
      exact hne rfl
  have hcomputes : ∀ j v, o.Computes j v → o'.Computes j v := by
    rintro j v ⟨b, i, hb, hi⟩
    refine ⟨b, i, ?_, hi⟩
    rw [block_eq_ok, hr.vertices]
    exact block_eq_ok.mp hb
  -- Every vertex that has edges now had some before.
  have hold : ∀ j es, o'.graph.edgesOut j = .ok es → ∃ es', o.graph.edgesOut j = .ok es' := by
    intro j es hes
    by_cases hjlast : j = last
    · exact ⟨_, hjlast ▸ hlast⟩
    by_cases hjguards : j = guards
    · exact ⟨_, hjguards ▸ hguards⟩
    by_cases hjjoin : j = join
    · exact ⟨_, hjjoin ▸ hjoin⟩
    exact ⟨es, (hr.others j hjlast hjguards hjjoin).symm.trans hes⟩
  refine ⟨hr.filed, fun j es hes => ?_, fun j es hj hes => ?_, h.tests, fun j hj hw' => ?_,
    fun t j last' ht => ?_⟩
  · obtain ⟨es', hes'⟩ := hold j es hes
    rw [hr.fields]
    exact h.bounded j es' hes'
  · obtain ⟨es', hes'⟩ := hold j es hes
    obtain ⟨b, hb⟩ := h.stored j es' hj hes'
    refine ⟨b, ?_⟩
    rw [block_eq_ok, hr.vertices]
    exact block_eq_ok.mp hb
  · have hplain : ∀ t last', w t ≠ some (j, last') := by
      intro t last' ht
      by_cases hth : t = header
      · rw [hth, hw] at ht
        cases ht
        exact hw' header join (hth ▸ Ways.set_self)
      · exact hw' t last' ((Ways.set_of_ne hth).trans ht)
    rw [hr.others j ?_ (by omega) (by omega)]
    · exact h.plain j hj hplain
    · rintro rfl
      rcases hleads.eq_or_new with heq | hnew
      · exact hplain header k (heq ▸ hw)
      · omega
  · by_cases hth : t = header
    · subst hth
      rw [Ways.set_self] at ht
      cases ht
      refine ⟨hheader, hk, e, he, htail, hleads.extend new before behind hedges hcomputes ?_ hr.tests hr.passes ?_⟩
      · exact hcomputes _ _ tested
      · rw [htail]
        exact hr.joins
    · rw [Ways.set_of_ne hth] at ht
      obtain ⟨ht', hj, e', he', htail', hleads'⟩ := h.turned t j last' ht
      refine ⟨ht', hj, e', he', htail', hleads'.congr_of_arriving hlast ?_ ?_ hedges hcomputes⟩
      · rw [hx, htail]
        exact hheader
      · rw [hx, htail, htail']
        exact Ne.symm hth

theorem reroute {o'' : FlowGraph} (h : f.Abreast m w o) (hw : w header = some (k, last)) {v : Variable}
    (new : m.blocks ≤ guards) (before : last < guards) (behind : guards < join)
    (hguards : o.graph.edgesOut guards = .ok []) (hjoin : o.graph.edgesOut join = .ok [])
    (tested : o.Computes last v) (hr : o.Rerouted last header guards join (.variable v) o')
    (ho : o'.modifyBlock header (fun b => pure { b with
      instructions := b.instructions.map (GuardDecision.renameIncoming last join) }) = .ok o'') :
    f.Abreast m (w.set header k join) o'' := by
  have hjoined := joined_of_rerouted h.joined hw new before behind hguards hjoin tested hr
  obtain ⟨hheader, -, e, -, -, hleads⟩ := h.joined.turned header k last hw
  obtain ⟨b, x, hb, hx, hok, hothers⟩ := block_modifyBlock ho
  cases hx
  obtain ⟨hentry, htemps, hnext⟩ := modifyBlock_fields ho
  have hblocks : ∀ j, o'.block j = o.block j := by
    intro j
    unfold block Graph.vertex
    rw [hr.vertices]
  have hfields : o'.entry = o.entry ∧ o'.nextTemp = o.nextTemp ∧ o'.nextBlock = o.nextBlock := by
    rw [hr.fields]
    exact ⟨rfl, rfl, rfl⟩
  rw [hblocks] at hb
  have hrename : ∀ (operation : Operation) (i : Instruction),
      operation.Mirrors m.blocks (w.arrival header) i.operation →
      operation.Mirrors m.blocks ((w.set header k join).arrival header)
        (GuardDecision.renameIncoming last join i).operation := by
    intro operation i hmirrors
    rw [(GuardDecision.renameIncoming_fields last join i).2.2]
    refine hmirrors.rename (fun _ => GuardDecision.relabel_of_notPhi) fun dst incoming known => ?_
    rw [Ways.arrival_of_some hw, Ways.arrival_of_some Ways.set_self]
    simp only [GuardDecision.relabel, List.map_map]
    refine congrArg _ (List.map_congr_left fun e he => ?_)
    have hlabel := known e he
    simp only [Function.comp]
    by_cases hek : e.2 = k
    · rw [if_pos hek, if_pos rfl, if_pos hek]
    · rw [if_neg hek, if_neg hek, if_neg]
      rintro rfl
      rcases hleads.eq_or_new with hlast | hlast
      · exact hek hlast
      · omega
  refine ⟨by rw [hentry, hfields.1, h.entry], h.left, ?_, h.leftTemps,
    by rw [htemps, hfields.2.1]; exact h.rightTemps, by rw [hnext, hfields.2.2]; exact h.blocks, ?_, ?_⟩
  · refine numbered_of_modifyBlock (fun c c' hc hc' => ?_) (numbered_of_vertices h.right hr.vertices) ho
    cases hc'
    exact ⟨Block.numbered_of_map (fun i => (GuardDecision.renameIncoming_fields _ _ i).1) hc, rfl⟩
  · constructor
    · intro j c hc
      obtain ⟨hj, c', hc', hblock⟩ := h.aligned.both j c hc
      refine ⟨hj, ?_⟩
      by_cases hjh : j = header
      · subst hjh
        rw [hb] at hc'
        cases hc'
        refine ⟨_, hok, ?_, hblock.left, hblock.right⟩
        have hstrand := hblock.strand.map (f := id) (g := GuardDecision.renameIncoming last join)
          (fun _ => ⟨rfl, rfl⟩) (fun i => ?_) (fun i hi => ?_) hrename
        · rw [List.map_id] at hstrand
          exact hstrand
        · obtain ⟨hindex, htag, -⟩ := GuardDecision.renameIncoming_fields last join i
          exact ⟨hindex, htag⟩
        · rw [(GuardDecision.renameIncoming_fields last join i).2.2]
          exact GuardDecision.relabel_of_notPhi hi
      · rw [Ways.arrival_set_of_ne hjh]
        exact ⟨c', ((hothers j hjh).trans (hblocks j)).trans hc', hblock⟩
    · intro j c hj hc
      exact h.aligned.added j c hj (((hothers j (by omega)).trans (hblocks j)).symm.trans hc)
  · refine hjoined.congr (fun _ => rfl) (edgesOut_modifyBlock ho) (filed_modifyBlock hr.filed ho) hnext
      (stored_modifyBlock ho) ?_
    refine fun j v hv => computes_of_modifyBlock (fun c c' hc hc' i hi => ?_) ho hv
    cases hc'
    refine ⟨_, List.mem_map_of_mem hi, fun v hv => ?_⟩
    rw [(GuardDecision.renameIncoming_fields last join i).2.2, GuardDecision.relabel_of_notPhi]
    · exact hv
    · cases hi : i.operation <;> rw [hi] at hv <;> first | rfl | cases hv

end Abreast

end FlowGraph

end RegionGuard

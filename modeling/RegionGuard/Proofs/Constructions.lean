import RegionGuard.Proofs.Overlays
set_option autoImplicit false

namespace RegionGuard

open Activation (phis)

namespace FlowGraph

variable {c c' : FlowGraph}

theorem temp_blocks {ty : Ty} {v : Variable} (h : c.temp ty = .ok (v, c')) :
    c'.graph = c.graph ∧ c'.nextBlock = c.nextBlock ∧ c'.entry = c.entry := by
  obtain ⟨-, rfl⟩ := temp_ok h
  exact ⟨rfl, rfl, rfl⟩

theorem setEntry_ok {entry : Nat} (h : c.setEntry entry = .ok c') :
    c.graph.hasVertex entry ∧ c' = { c with entry := some entry } := by
  unfold setEntry at h
  split at h
  · rename_i hentry
    cases h
    exact ⟨hentry, rfl⟩
  · cases h

theorem redirectEdge_blocks (c : FlowGraph) (head oldTail newTail : Nat) :
    (c.redirectEdge head oldTail newTail).2.graph.vertices = c.graph.vertices ∧
      (c.redirectEdge head oldTail newTail).2.nextBlock = c.nextBlock ∧
        (c.redirectEdge head oldTail newTail).2.entry = c.entry := by
  obtain h | ⟨e, g, hg, h | ⟨e', g', hg', h⟩⟩ := redirectEdge_cases c head oldTail newTail <;> rw [h]
  · exact ⟨rfl, rfl, rfl⟩
  · exact ⟨Graph.vertices_of_removeEdge hg, rfl, rfl⟩
  · exact ⟨(Graph.vertices_of_insertEdge hg').trans (Graph.vertices_of_removeEdge hg), rfl, rfl⟩

theorem Built.filed (h : c.Built) : c.graph.Filed := by
  induction h with
  | empty => exact fun v w e he => by cases he
  | newBlock _ hnew ih =>
    obtain ⟨-, hg⟩ := Graph.insertVertex_ok (newBlock_ok hnew).2.2.2.2
    rw [hg]
    exact ih
  | insertEdge _ hedge ih => exact Graph.filed_insertEdge ih (insertEdge_ok hedge).1
  | removeEdge _ hedge ih => exact Graph.filed_removeEdge ih (removeEdge_ok hedge).1
  | @redirectEdge c head oldTail newTail _ ih =>
    obtain h | ⟨e, g, hg, h | ⟨e', g', hg', h⟩⟩ := redirectEdge_cases c head oldTail newTail <;> rw [h]
    · exact ih
    · exact Graph.filed_removeEdge ih hg
    · exact Graph.filed_insertEdge (Graph.filed_removeEdge ih hg) hg'
  | setEntry _ hentry ih => exact setEntry_graph hentry ▸ ih
  | temp _ htemp ih => exact (temp_blocks htemp).1 ▸ ih
  | modifyBlock _ hblock ih =>
    obtain ⟨b, b', -, -, rfl⟩ := modifyBlock_ok hblock
    exact ih

theorem Built.bounded (h : c.Built) {k : Nat} (hk : (c.graph.vertices.get? k).isSome) : k < c.nextBlock := by
  induction h with
  | empty => cases hk
  | newBlock _ hnew ih =>
    obtain ⟨hindex, hnext, -, -, hg⟩ := newBlock_ok hnew
    obtain ⟨-, hg⟩ := Graph.insertVertex_ok hg
    rw [hg] at hk
    simp only [Table.get?_insert] at hk
    split at hk
    · rename_i hindex'
      have := hindex'.trans hindex
      omega
    · have := ih hk
      omega
  | insertEdge _ hedge ih =>
    obtain ⟨hg, hc⟩ := insertEdge_ok hedge
    rw [hc]
    exact ih (Graph.vertices_of_insertEdge hg ▸ hk)
  | removeEdge _ hedge ih =>
    obtain ⟨hg, hc⟩ := removeEdge_ok hedge
    rw [hc]
    exact ih (Graph.vertices_of_removeEdge hg ▸ hk)
  | @redirectEdge c head oldTail newTail _ ih =>
    obtain ⟨hvertices, hnext, -⟩ := redirectEdge_blocks c head oldTail newTail
    rw [hnext]
    exact ih (hvertices ▸ hk)
  | setEntry _ hentry ih =>
    obtain ⟨-, rfl⟩ := setEntry_ok hentry
    exact ih hk
  | temp _ htemp ih =>
    obtain ⟨hgraph, hnext, -⟩ := temp_blocks htemp
    rw [hnext]
    exact ih (hgraph ▸ hk)
  | modifyBlock _ hblock ih =>
    obtain ⟨b, b', hb, -, rfl⟩ := modifyBlock_ok hblock
    simp only [Graph.setVertex, Table.get?_insert] at hk
    split at hk
    · rename_i hk'
      exact ih (by rw [hk', block_eq_ok.mp hb]; rfl)
    · exact ih hk

theorem Built.started (h : c.Built) : ∀ entry ∈ c.entry, ∃ b, c.block entry = .ok b := by
  have started : ∀ entry ∈ c.entry, (c.graph.vertices.get? entry).isSome := by
    induction h with
    | empty => exact fun entry he => by cases he
    | newBlock _ hnew ih =>
      obtain ⟨-, -, hentry, -, hg⟩ := newBlock_ok hnew
      obtain ⟨-, hg⟩ := Graph.insertVertex_ok hg
      intro entry he
      rw [hg]
      simp only [Table.get?_insert]
      split
      · rfl
      · exact ih entry (hentry ▸ he)
    | insertEdge _ hedge ih =>
      obtain ⟨hg, hc⟩ := insertEdge_ok hedge
      rw [Graph.vertices_of_insertEdge hg, hc]
      exact ih
    | removeEdge _ hedge ih =>
      obtain ⟨hg, hc⟩ := removeEdge_ok hedge
      rw [Graph.vertices_of_removeEdge hg, hc]
      exact ih
    | @redirectEdge c head oldTail newTail _ ih =>
      obtain ⟨hvertices, -, hentry⟩ := redirectEdge_blocks c head oldTail newTail
      rw [hvertices, hentry]
      exact ih
    | setEntry _ hentry ih =>
      obtain ⟨hknown, rfl⟩ := setEntry_ok hentry
      rintro entry ⟨⟩
      exact hknown
    | temp _ htemp ih =>
      obtain ⟨hgraph, -, hentry⟩ := temp_blocks htemp
      rw [hgraph, hentry]
      exact ih
    | modifyBlock _ hblock ih =>
      obtain ⟨b, b', hb, -, rfl⟩ := modifyBlock_ok hblock
      intro entry he
      simp only [Graph.setVertex, Table.get?_insert]
      split
      · rfl
      · exact ih entry he
  intro entry he
  obtain ⟨b, hb⟩ := Option.isSome_iff_exists.mp (started entry he)
  exact ⟨b, block_eq_ok.mpr hb⟩

theorem Made.filed (h : c.Made) : c.graph.Filed := h.built.filed

theorem Made.bounded (h : c.Made) {k : Nat} (hk : (c.graph.vertices.get? k).isSome) : k < c.nextBlock :=
  h.built.bounded hk

theorem Made.started (h : c.Made) : ∀ entry ∈ c.entry, ∃ b, c.block entry = .ok b := h.built.started

/-- Every phi takes exactly one value from each block in front of its own. -/
def Exact (c : FlowGraph) : Prop :=
  ∀ k b, c.block k = .ok b → ∀ i ∈ b.instructions, ∀ dst incoming, i.operation = .phi dst incoming →
    (incoming.map (·.2)).Perm (c.graph.predecessorsOf k)

/-- No variable of the code or of a condition is named like a temporary. -/
structure SparesTemporaries (c : FlowGraph) : Prop where
  code : ∀ k b, c.block k = .ok b → ∀ i ∈ b.instructions, i.operation.Avoids 0
  conditions : ∀ y x e, c.graph.edges.get? (y, x) = some e → ∀ s ∈ e.condition, s.value.Avoids 0

/-- Graphs as they come to instrumentation: their blocks are left as tests leave them, their phis match the
edges, and temporaries are still to come. -/
structure Instrumentable (c : FlowGraph) : Prop where
  made : c.Made
  decided : c.Decided
  exact : c.Exact
  spares : c.SparesTemporaries

def resemblesTemporary (x : Variable) : Bool := "carat.temp_".toList.isPrefixOf x.name.toList

theorem resemblesTemporary_of_upcoming {x : Variable} {n : Nat} (h : x.IsUpcoming n) :
    resemblesTemporary x := by
  obtain ⟨k, -, hname⟩ := h
  unfold resemblesTemporary temporaryName at *
  rw [hname, List.isPrefixOf_iff_prefix, String.toList_append]
  exact List.prefix_append ..

def isDoubtful : Value → Bool
  | .variable x => resemblesTemporary x
  | _ => false

theorem avoids_of_not_doubtful {v : Value} (h : isDoubtful v = false) (n : Nat) : v.Avoids n := by
  rintro x rfl hx
  rw [isDoubtful, resemblesTemporary_of_upcoming hx] at h
  cases h

def decides : List Edge → Bool
  | [] => true
  | [e] => e.condition = none
  | [e, e'] =>
    match e.condition, e'.condition with
    | some (.isTrue v), some (.isFalse w) | some (.isFalse v), some (.isTrue w) => v = w
    | _, _ => false
  | _ => false

/-- Whether an instruction names no temporary and is, if a phi, exact about the blocks in front of its own. -/
def suits (predecessors : List Nat) (i : Instruction) : Bool :=
  !(i.operation.written?.any resemblesTemporary) && !(i.operation.reads.any isDoubtful) &&
    match i.operation with
    | .phi _ incoming => (incoming.map (·.2)).isPerm predecessors
    | _ => true

def isInstrumentable (c : FlowGraph) : Bool :=
  (c.graph.successors.keys.all fun k => (c.graph.edgesOut k).toOption.all decides) &&
    (c.graph.vertices.entries.all fun e => e.2.instructions.all (suits (c.graph.predecessorsOf e.1))) &&
    !(c.graph.edges.values.any fun e => e.condition.any fun s => isDoubtful s.value)

theorem decided_of_decides (h : ∀ k ∈ c.graph.successors.keys, (c.graph.edgesOut k).toOption.all decides) :
    c.Decided := by
  intro k es hes
  obtain ⟨tails, htails, -⟩ := bind_eq_ok.mp hes
  obtain ⟨s, hs, -⟩ := Option.map_eq_some_iff.mp (orRaise_eq_ok.mp htails)
  have hk := h k (Table.mem_keys_iff.mpr (by rw [hs]; rfl))
  rw [hes] at hk
  change decides es at hk
  unfold decides at hk
  split at hk
  · exact .inl rfl
  · rename_i e
    exact .inr (.inl ⟨e, rfl, of_decide_eq_true hk⟩)
  · rename_i e e'
    split at hk
    · rename_i v w hv hw
      cases of_decide_eq_true hk
      exact .inr (.inr ⟨e, e', v, rfl, .inl ⟨hv, hw⟩⟩)
    · rename_i v w hv hw
      cases of_decide_eq_true hk
      exact .inr (.inr ⟨e, e', v, rfl, .inr ⟨hv, hw⟩⟩)
    · cases hk
  · cases hk

theorem instrumentable_of_isInstrumentable (made : c.Made) (h : c.isInstrumentable) : c.Instrumentable := by
  unfold isInstrumentable at h
  simp only [Bool.and_eq_true, Bool.not_eq_true', List.any_eq_false, List.all_eq_true] at h
  obtain ⟨⟨hdecided, hcode⟩, hconditions⟩ := h
  have suited : ∀ k b, c.block k = .ok b → ∀ i ∈ b.instructions, suits (c.graph.predecessorsOf k) i :=
    fun k b hb => hcode (k, b) ((Table.get?_eq_some_iff _ _ _).mp (block_eq_ok.mp hb))
  refine ⟨made, decided_of_decides hdecided, fun k b hb i hi dst incoming ho => ?_, ⟨fun k b hb i hi => ?_, ?_⟩⟩
  · have hsuits := suited k b hb i hi
    unfold suits at hsuits
    rw [ho] at hsuits
    exact List.isPerm_iff.mp (Bool.and_eq_true_iff.mp hsuits).2
  · have hsuits := suited k b hb i hi
    unfold suits at hsuits
    simp only [Bool.and_eq_true, Bool.not_eq_true', List.any_eq_false] at hsuits
    obtain ⟨⟨hwritten, hreads⟩, -⟩ := hsuits
    refine ⟨fun x hx hup => ?_, fun v hv => avoids_of_not_doubtful (Bool.not_eq_true _ ▸ hreads v hv) 0⟩
    rw [hx, Option.any_some, resemblesTemporary_of_upcoming hup] at hwritten
    cases hwritten
  · intro y x e he s hs
    have hfine := hconditions e (Table.mem_values_of_get? he)
    rw [Option.mem_def.mp hs, Option.any_some, Bool.not_eq_true] at hfine
    exact avoids_of_not_doubtful hfine 0

theorem mem_predecessorsOf (wired : c.graph.Wired) {k : Nat} {j : Nat} (hj : j ∈ c.graph.predecessorsOf k) :
    (c.graph.vertices.get? j).isSome :=
  (wired.ends j k ((wired.predecessors j k).mp hj)).1

/-- A graph whose phis take from the blocks in front of their own, and whose code names no temporary, is
tidy. -/
theorem tidy_of_built (built : c.Built) (spares : c.SparesTemporaries)
    (arriving : ∀ k b i dst values, c.block k = .ok b → i ∈ b.instructions → i.operation = .phi dst values →
      ∀ e ∈ values, e.2 ∈ c.graph.predecessorsOf k) : c.Tidy where
  vertices k b hb := built.bounded (by rw [hb]; rfl)
  successors k s hs := built.bounded ((built.wired.hasSuccessors k).symm.trans (by rw [hs]; rfl))
  listed k s hs j hj := by
    refine Option.isSome_iff_exists.mp ((built.wired.successors k j).mp ?_)
    unfold Graph.successorsOf
    rw [hs]
    exact hj
  filed := built.filed
  edges k j e he :=
    ⟨built.bounded (built.wired.ends k j (by rw [he]; rfl)).2,
      fun s hs => (spares.conditions k j e he s hs).mono (Nat.zero_le _)⟩
  code k b hb i hi :=
    ⟨(spares.code k b (block_eq_ok.mpr hb) i hi).mono (Nat.zero_le _), fun dst incoming ho e he =>
      built.bounded (mem_predecessorsOf built.wired (arriving k b i dst incoming (block_eq_ok.mpr hb) hi ho e he))⟩

theorem Instrumentable.tidy (h : c.Instrumentable) : c.Tidy :=
  tidy_of_built h.made.built h.spares fun k b i dst incoming hb hi ho _ he =>
    (h.exact k b hb i hi dst incoming ho).subset (List.mem_map_of_mem he)

theorem Instrumentable.complete (h : c.Instrumentable) : c.Complete := by
  intro y x hedge b hb e he
  obtain ⟨i, hi, ho⟩ := mem_phis he
  have hy : y ∈ e.2.map (·.2) :=
    (h.exact x b hb i hi e.1 e.2 ho).symm.subset ((h.made.wired.predecessors y x).mpr hedge)
  obtain ⟨z, hz, rfl⟩ := List.mem_map.mp hy
  unfold arriving?
  cases hfind : e.2.find? (·.2 = z.2) with
  | none => exact absurd (decide_eq_true rfl) (List.find?_eq_none.mp hfind z hz)
  | some w => exact ⟨w.1, rfl⟩

theorem Instrumentable.plain (h : c.Instrumentable) : c.Plain where
  decided := h.decided
  wired := h.made.wired
  tidy := h.tidy
  numbered := h.made.numbered
  complete := h.complete
  started := h.made.started

end FlowGraph

end RegionGuard

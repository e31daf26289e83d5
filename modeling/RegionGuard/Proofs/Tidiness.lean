import RegionGuard.Proofs.Detours
import RegionGuard.Proofs.Numbering
set_option autoImplicit false

/-!
# Tidy graphs

A graph that is put together with its own operations has vertices and edges below the next block only, and
its code mentions no temporary and no block that it has yet to give out. The passes in front of the guards
keep it so.
-/

namespace RegionGuard

theorem Value.Avoids.mono {m n : Nat} {v : Value} (hmn : m ≤ n) (h : v.Avoids m) : v.Avoids n :=
  fun x hx hup => h x hx (hup.mono hmn)

theorem Value.avoids_temporary {k n : Nat} (ty : Ty) (h : k < n) :
    (Value.variable (.temporary k ty)).Avoids n := by
  rintro _ ⟨⟩ hup
  have := Variable.isUpcoming_temporary.mp hup
  omega

namespace Operation

structure Within (temps blocks : Nat) (o : Operation) : Prop where
  avoids : o.Avoids temps
  known : ∀ dst incoming, o = .phi dst incoming → ∀ e ∈ incoming, e.2 < blocks

variable {temps temps' blocks blocks' : Nat} {o : Operation}

theorem Avoids.mono (ht : temps ≤ temps') (h : o.Avoids temps) : o.Avoids temps' :=
  ⟨fun x hx hup => h.written x hx (hup.mono ht), fun v hv => (h.reads v hv).mono ht⟩

theorem Within.mono (ht : temps ≤ temps') (hb : blocks ≤ blocks') (h : o.Within temps blocks) :
    o.Within temps' blocks' :=
  ⟨h.avoids.mono ht, fun dst incoming ho e he => Nat.lt_of_lt_of_le (h.known dst incoming ho e he) hb⟩

theorem within_of_notPhi (h : o.Avoids temps) (ho : o.isPhi = false) : o.Within temps blocks := by
  refine ⟨h, ?_⟩
  rintro dst incoming rfl
  cases ho

theorem avoids_notify {name : String} {arguments : List Value} (h : ∀ v ∈ arguments, v.Avoids temps) :
    (notify name arguments).Avoids temps :=
  ⟨fun _ hx => (by cases hx), h⟩

end Operation

namespace FlowGraph

structure Tidy (c : FlowGraph) : Prop where
  vertices : ∀ k b, c.graph.vertices.get? k = some b → k < c.nextBlock
  successors : ∀ k s, c.graph.successors.get? k = some s → k < c.nextBlock
  listed : ∀ k s, c.graph.successors.get? k = some s → ∀ j ∈ s.keys, ∃ e, c.graph.edges.get? (k, j) = some e
  filed : c.graph.Filed
  edges : ∀ k j e, c.graph.edges.get? (k, j) = some e →
    j < c.nextBlock ∧ ∀ x ∈ e.condition, x.value.Avoids c.nextTemp
  code : ∀ k b, c.graph.vertices.get? k = some b → ∀ i ∈ b.instructions,
    i.operation.Within c.nextTemp c.nextBlock

structure TidyFrom (temps blocks : Nat) (c : FlowGraph) : Prop where
  tidy : c.Tidy
  temps : temps ≤ c.nextTemp
  blocks : blocks ≤ c.nextBlock

variable {c c' : FlowGraph} {k : Nat} {temps blocks : Nat}

theorem tidyFrom_zero : c.TidyFrom 0 0 ↔ c.Tidy :=
  ⟨TidyFrom.tidy, fun h => ⟨h, Nat.zero_le _, Nat.zero_le _⟩⟩

theorem tidy_withTemps (hc : c.Tidy) {next : Nat} (hnext : c.nextTemp ≤ next) : (c.withTemps next).Tidy where
  vertices := hc.vertices
  successors := hc.successors
  listed := hc.listed
  filed := hc.filed
  edges k j e he := ⟨(hc.edges k j e he).1, fun x hx => ((hc.edges k j e he).2 x hx).mono hnext⟩
  code k b hb i hi := (hc.code k b hb i hi).mono hnext (Nat.le_refl _)

theorem tidyFrom_of_temp {ty : Ty} {v : Variable} (hc : c.TidyFrom temps blocks) (h : c.temp ty = .ok (v, c')) :
    c'.TidyFrom temps blocks ∧ (Value.variable v).Avoids c'.nextTemp := by
  obtain ⟨rfl, rfl⟩ := temp_ok h
  have := hc.temps
  exact ⟨⟨tidy_withTemps hc.tidy (Nat.le_succ _), Nat.le_succ_of_le this, hc.blocks⟩,
    Value.avoids_temporary ty (Nat.lt_succ_self _)⟩

theorem tidyFrom_of_modifyBlock {f : Block → Outcome Block} (hc : c.TidyFrom temps blocks)
    (hf : ∀ b b', c.block k = .ok b → f b = .ok b' →
      ∀ i ∈ b'.instructions, i ∈ b.instructions ∨ i.operation.Within c.nextTemp c.nextBlock)
    (h : c.modifyBlock k f = .ok c') : c'.TidyFrom temps blocks := by
  obtain ⟨b, b', hb, hb', rfl⟩ := modifyBlock_ok h
  have hb₀ := block_eq_ok.mp hb
  refine ⟨⟨fun j x hx => ?_, hc.tidy.successors, hc.tidy.listed, hc.tidy.filed, hc.tidy.edges,
    fun j x hx i hi => ?_⟩, hc.temps, hc.blocks⟩
  · simp only [Graph.setVertex, Table.get?_insert] at hx
    split at hx
    · rename_i hj
      rw [hj]
      exact hc.tidy.vertices k b hb₀
    · exact hc.tidy.vertices j x hx
  · simp only [Graph.setVertex, Table.get?_insert] at hx
    split at hx
    · cases hx
      rcases hf b b' hb hb' i hi with hi | hi
      · exact hc.tidy.code k b hb₀ i hi
      · exact hi
    · exact hc.tidy.code j x hx i hi

theorem newBlock_ok (h : c.newBlock = .ok (k, c')) :
    k = c.nextBlock ∧ c'.nextBlock = k + 1 ∧ c'.entry = c.entry ∧ c'.nextTemp = c.nextTemp ∧
      c.graph.insertVertex (.make k) = .ok c'.graph := by
  obtain ⟨next, hnext, h⟩ := bind_eq_ok.mp h
  obtain ⟨g, hg, h⟩ := bind_eq_ok.mp h
  cases h
  unfold Failure.successor at hnext
  split at hnext
  · cases hnext
    exact ⟨rfl, rfl, rfl, rfl, hg⟩
  · cases hnext

theorem insertEdge_ok {head tail : Nat} {condition : Option Condition}
    (h : c.insertEdge head tail condition = .ok c') :
    c.graph.insertEdge (.make head tail condition) = .ok c'.graph ∧ c' = { c with graph := c'.graph } := by
  obtain ⟨g, hg, h⟩ := bind_eq_ok.mp h
  cases h
  exact ⟨hg, rfl⟩

theorem removeEdge_ok {head tail : Nat} {e : Edge} (h : c.removeEdge head tail = .ok (e, c')) :
    c.graph.removeEdge head tail = .ok (e, c'.graph) ∧ c' = { c with graph := c'.graph } := by
  obtain ⟨⟨e', g⟩, hg, h⟩ := bind_eq_ok.mp h
  cases h
  exact ⟨hg, rfl⟩

theorem tidyFrom_of_newBlock (hc : c.TidyFrom temps blocks) (h : c.newBlock = .ok (k, c')) :
    c'.TidyFrom temps (k + 1) := by
  obtain ⟨hk, hnext, -, htemps, hg⟩ := newBlock_ok h
  obtain ⟨-, hg⟩ := Graph.insertVertex_ok hg
  have hindex : Vertex.index (Block.make k) = k := rfl
  rw [hindex] at hg
  have hle : c.nextBlock ≤ c'.nextBlock := by omega
  refine ⟨⟨fun j b hb => ?_, fun j s hs => ?_, fun j s hs i hi => ?_, ?_, fun i j e he => ?_,
    fun j b hb i hi => ?_⟩, htemps ▸ hc.temps, Nat.le_of_eq hnext.symm⟩
  · rw [hg] at hb
    simp only [Table.get?_insert] at hb
    split at hb
    · omega
    · exact Nat.lt_of_lt_of_le (hc.tidy.vertices j b hb) hle
  · rw [hg] at hs
    simp only [Table.get?_insert] at hs
    split at hs
    · omega
    · exact Nat.lt_of_lt_of_le (hc.tidy.successors j s hs) hle
  · rw [hg] at hs ⊢
    simp only [Table.get?_insert] at hs
    split at hs
    · cases hs
      exact (List.not_mem_nil hi).elim
    · exact hc.tidy.listed j s hs i hi
  · rw [hg]
    exact hc.tidy.filed
  · rw [hg] at he
    rw [htemps]
    exact ⟨Nat.lt_of_lt_of_le (hc.tidy.edges i j e he).1 hle, (hc.tidy.edges i j e he).2⟩
  · rw [hg] at hb
    simp only [Table.get?_insert] at hb
    split at hb
    · cases hb
      exact (List.not_mem_nil hi).elim
    · exact (hc.tidy.code j b hb i hi).mono (Nat.le_of_eq htemps.symm) hle

theorem hasVertex_eq {g : Graph Block Edge} {v : Nat} : g.hasVertex v ↔ ∃ b, g.vertices.get? v = some b := by
  unfold Graph.hasVertex Table.contains
  exact Option.isSome_iff_exists

/-- A graph whose edges and successors change stays tidy if both stay below the next block. -/
theorem tidyFrom_of_graph {g : Graph Block Edge} (hc : c.TidyFrom temps blocks)
    (vertices : g.vertices = c.graph.vertices) (filed : g.Filed)
    (successors : ∀ k s, g.successors.get? k = some s →
      k < c.nextBlock ∧ ∀ j ∈ s.keys, ∃ e, g.edges.get? (k, j) = some e)
    (edges : ∀ k j e, g.edges.get? (k, j) = some e →
      j < c.nextBlock ∧ ∀ x ∈ e.condition, x.value.Avoids c.nextTemp) :
    TidyFrom temps blocks { c with graph := g } := by
  refine ⟨⟨fun k b hb => ?_, fun k s hs => (successors k s hs).1, fun k s hs => (successors k s hs).2, filed,
    edges, fun k b hb => ?_⟩, hc.temps, hc.blocks⟩
  · exact hc.tidy.vertices k b (vertices ▸ hb)
  · exact hc.tidy.code k b (vertices ▸ hb)

theorem tidyFrom_of_insertEdge {g : Graph Block Edge} {e : Edge} (hc : c.TidyFrom temps blocks)
    (he : ∀ x ∈ e.condition, x.value.Avoids c.nextTemp) (h : c.graph.insertEdge e = .ok g) :
    TidyFrom temps blocks { c with graph := g } := by
  have hends : c.graph.hasVertex e.head ∧ c.graph.hasVertex e.tail := by
    unfold Graph.insertEdge at h
    simp only at h
    split at h
    · cases h
    · split at h
      · cases h
      · split at h
        · cases h
        · rename_i hhead htail
          simp only [Bool.not_eq_true', Bool.not_eq_false] at hhead htail
          exact ⟨hhead, htail⟩
  obtain ⟨b, hb⟩ := hasVertex_eq.mp hends.1
  obtain ⟨b', hb'⟩ := hasVertex_eq.mp hends.2
  refine tidyFrom_of_graph hc (Graph.vertices_of_insertEdge h) (Graph.filed_insertEdge hc.tidy.filed h) ?_ ?_
  · obtain ⟨-, rfl⟩ := Graph.insertEdge_ok h
    intro k s hs
    have hold : ∀ s', c.graph.successors.get? k = some s' → ∀ j ∈ s'.keys,
        ∃ x, (c.graph.edges.insert (e.head, e.tail) e).get? (k, j) = some x := by
      intro s' hs' j hj
      rw [Table.get?_insert]
      split
      · exact ⟨e, rfl⟩
      · exact hc.tidy.listed k s' hs' j hj
    simp only [Graph.link, Table.get?_insert] at hs
    split at hs
    · rename_i hk
      cases hs
      refine ⟨hk ▸ hc.tidy.vertices _ b hb, fun j hj => ?_⟩
      rcases KeySet.mem_keys_add.mp hj with rfl | hj
      · exact ⟨e, by rw [hk]; exact (Table.get?_insert ..).trans (if_pos rfl)⟩
      · cases hs' : c.graph.successors.get? (Arc.head e) with
        | none =>
          rw [hs'] at hj
          exact (List.not_mem_nil hj).elim
        | some s' =>
          rw [hs'] at hj
          exact hold s' (hk ▸ hs') j hj
    · exact ⟨hc.tidy.successors k s hs, hold s hs⟩
  · obtain ⟨-, rfl⟩ := Graph.insertEdge_ok h
    intro k j x hx
    simp only [Table.get?_insert] at hx
    split at hx
    · rename_i hkj
      cases hx
      cases hkj
      exact ⟨hc.tidy.vertices _ b' hb', he⟩
    · exact hc.tidy.edges k j x hx

theorem tidyFrom_of_removeEdge {g : Graph Block Edge} {head tail : Nat} {e : Edge}
    (hc : c.TidyFrom temps blocks) (h : c.graph.removeEdge head tail = .ok (e, g)) :
    TidyFrom temps blocks { c with graph := g } := by
  refine tidyFrom_of_graph hc (Graph.vertices_of_removeEdge h) (Graph.filed_removeEdge hc.tidy.filed h) ?_ ?_
  · obtain ⟨-, rfl⟩ := Graph.removeEdge_ok h
    intro k s hs
    have hold : ∀ s' j, c.graph.successors.get? k = some s' → j ∈ s'.keys → (k, j) ≠ (head, tail) →
        ∃ x, (c.graph.edges.erase (head, tail)).get? (k, j) = some x := by
      intro s' j hs' hj hne
      rw [Table.get?_erase, if_neg hne]
      exact hc.tidy.listed k s' hs' j hj
    have hother : k ≠ head → c.graph.successors.get? k = some s →
        k < c.nextBlock ∧ ∀ j ∈ s.keys, ∃ x, (c.graph.edges.erase (head, tail)).get? (k, j) = some x :=
      fun hk hs => ⟨hc.tidy.successors k s hs, fun j hj => hold s j hs hj fun he => hk (congrArg Prod.fst he)⟩
    simp only [Graph.unlink] at hs
    split at hs
    · rename_i s' hs'
      rw [Table.get?_insert] at hs
      split at hs
      · rename_i hk
        cases hs
        refine ⟨hk ▸ hc.tidy.successors _ s' hs', fun j hj => ?_⟩
        obtain ⟨hj, hne⟩ := Table.mem_keys_erase.mp hj
        exact hold s' j (hk ▸ hs') hj fun he => hne (congrArg Prod.snd he)
      · rename_i hk
        exact hother hk hs
    · rename_i hnone
      refine hother ?_ hs
      rintro rfl
      rw [hnone] at hs
      cases hs
  · obtain ⟨-, rfl⟩ := Graph.removeEdge_ok h
    intro k j x hx
    simp only [Table.get?_erase] at hx
    split at hx
    · cases hx
    · exact hc.tidy.edges k j x hx

end FlowGraph

end RegionGuard

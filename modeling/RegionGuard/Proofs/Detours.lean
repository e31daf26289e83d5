import RegionGuard.Proofs.Drafts
import RegionGuard.Proofs.Temporaries
set_option autoImplicit false

namespace RegionGuard

namespace Graph

variable {ν ε : Type} {g g' : Graph ν ε} {e : ε} {es : List ε} {v : Nat}

theorem edgesOut_eq_ok :
    g.edgesOut v = .ok es ↔
      ∃ s, g.successors.get? v = some s ∧ List.Forall₂ (fun w e => g.edges.get? (v, w) = some e) s.keys es := by
  unfold edgesOut successorIndices
  rw [bind_eq_ok]
  constructor
  · rintro ⟨tails, htails, h⟩
    obtain ⟨s, hs, rfl⟩ := Option.map_eq_some_iff.mp (orRaise_eq_ok.mp htails)
    exact ⟨s, hs, (mapM_eq_ok.mp h).imp fun _ _ he => orStop_eq_ok.mp he⟩
  · rintro ⟨s, hs, h⟩
    refine ⟨s.keys, orRaise_eq_ok.mpr (by rw [hs]; rfl), mapM_eq_ok.mpr ?_⟩
    exact h.imp fun _ _ he => orStop_eq_ok.mpr he

theorem edgesOut_congr (hs : g'.successors.get? v = g.successors.get? v)
    (he : ∀ w, g'.edges.get? (v, w) = g.edges.get? (v, w)) : g'.edgesOut v = g.edgesOut v := by
  unfold edgesOut successorIndices
  rw [hs]
  simp only [he]

theorem edgesOut_setVertex (g : Graph ν ε) (k : Nat) (x : ν) : (g.setVertex k x).edgesOut v = g.edgesOut v :=
  edgesOut_congr rfl fun _ => rfl

section Vertices

variable [Vertex ν] {x : ν}

theorem insertVertex_ok (h : g.insertVertex x = .ok g') :
    g.vertices.get? (Vertex.index x) = none ∧
      g' = { g with
        vertices := g.vertices.insert (Vertex.index x) x
        successors := g.successors.insert (Vertex.index x) ∅
        predecessors := g.predecessors.insert (Vertex.index x) ∅ } := by
  unfold insertVertex at h
  simp only at h
  split at h
  · cases h
  · rename_i hnew
    cases h
    refine ⟨?_, rfl⟩
    unfold hasVertex Table.contains at hnew
    simpa using hnew

theorem exists_insertVertex (hfresh : g.vertices.get? (Vertex.index x) = none) : ∃ g', g.insertVertex x = .ok g' := by
  have hvertex : g.hasVertex (Vertex.index x) = false := by
    unfold hasVertex Table.contains
    rw [hfresh]
    rfl
  unfold insertVertex
  simp only [hvertex]
  exact ⟨_, rfl⟩

theorem edgesOut_insertVertex_of_ne (h : g.insertVertex x = .ok g') (hv : v ≠ Vertex.index x) :
    g'.edgesOut v = g.edgesOut v := by
  obtain ⟨-, rfl⟩ := insertVertex_ok h
  refine edgesOut_congr ?_ fun _ => rfl
  simp only [Table.get?_insert, if_neg hv]

theorem edgesOut_insertVertex_self (h : g.insertVertex x = .ok g') :
    g'.edgesOut (Vertex.index x) = .ok [] := by
  obtain ⟨-, rfl⟩ := insertVertex_ok h
  refine edgesOut_eq_ok.mpr ⟨∅, ?_, .nil⟩
  simp only [Table.get?_insert, if_pos]

end Vertices

variable [Arc ε]

def Filed (g : Graph ν ε) : Prop := ∀ v w e, g.edges.get? (v, w) = some e → Arc.head e = v ∧ Arc.tail e = w

theorem insertEdge_ok (h : g.insertEdge e = .ok g') :
    g.edges.get? (Arc.head e, Arc.tail e) = none ∧
      g' = { g with
        edges := g.edges.insert (Arc.head e, Arc.tail e) e
        successors := link g.successors (Arc.head e) (Arc.tail e)
        predecessors := link g.predecessors (Arc.tail e) (Arc.head e) } := by
  unfold insertEdge at h
  simp only at h
  split at h
  · cases h
  · rename_i hnew
    split at h
    · cases h
    · split at h
      · cases h
      · cases h
        refine ⟨?_, rfl⟩
        unfold Table.contains at hnew
        simpa using hnew

theorem exists_insertEdge (hfresh : g.edges.get? (Arc.head e, Arc.tail e) = none) (hhead : g.hasVertex (Arc.head e) = true)
    (htail : g.hasVertex (Arc.tail e) = true) : ∃ g', g.insertEdge e = .ok g' := by
  have hedge : g.edges.contains (Arc.head e, Arc.tail e) = false := by
    unfold Table.contains
    rw [hfresh]
    rfl
  unfold insertEdge
  simp only [hedge, hhead, htail]
  exact ⟨_, rfl⟩

omit [Arc ε] in
theorem removeEdge_ok {head tail : Nat} (h : g.removeEdge head tail = .ok (e, g')) :
    g.edges.get? (head, tail) = some e ∧
      g' = { g with
        edges := g.edges.erase (head, tail)
        successors := unlink g.successors head tail
        predecessors := unlink g.predecessors tail head } := by
  obtain ⟨e', he, h⟩ := bind_eq_ok.mp h
  cases h
  exact ⟨orRaise_eq_ok.mp he, rfl⟩

theorem filed_insertEdge (hg : g.Filed) (h : g.insertEdge e = .ok g') : g'.Filed := by
  obtain ⟨-, rfl⟩ := insertEdge_ok h
  intro v w x hx
  simp only [Table.get?_insert] at hx
  split at hx
  · rename_i hends
    cases hx
    cases hends
    exact ⟨rfl, rfl⟩
  · exact hg v w x hx

theorem filed_removeEdge {head tail : Nat} (hg : g.Filed) (h : g.removeEdge head tail = .ok (e, g')) :
    g'.Filed := by
  obtain ⟨-, rfl⟩ := removeEdge_ok h
  intro v w x hx
  simp only [Table.get?_erase] at hx
  split at hx
  · cases hx
  · exact hg v w x hx

theorem edgesOut_insertEdge_of_ne (h : g.insertEdge e = .ok g') (hv : v ≠ Arc.head e) :
    g'.edgesOut v = g.edgesOut v := by
  obtain ⟨-, rfl⟩ := insertEdge_ok h
  refine edgesOut_congr ?_ fun w => ?_
  · simp only [link, Table.get?_insert, if_neg hv]
  · rw [Table.get?_insert, if_neg]
    intro hends
    exact hv (congrArg Prod.fst hends)

theorem keys_of_edgesOut (hg : g.Filed) {s : KeySet Nat}
    (h : List.Forall₂ (fun w e => g.edges.get? (v, w) = some e) s.keys es) : s.keys = es.map Arc.tail := by
  generalize s.keys = keys at h
  induction h with
  | nil => rfl
  | cons he _ ih => rw [List.map_cons, (hg _ _ _ he).2, ← ih]

/-- A new edge comes last when it arrives behind all others. -/
theorem edgesOut_insertEdge_self (hg : g.Filed) (h : g.insertEdge e = .ok g')
    (hes : g.edgesOut (Arc.head e) = .ok es) (last : ∀ x ∈ es, Arc.tail x < Arc.tail e) :
    g'.edgesOut (Arc.head e) = .ok (es ++ [e]) := by
  obtain ⟨hnew, rfl⟩ := insertEdge_ok h
  obtain ⟨s, hs, hall⟩ := edgesOut_eq_ok.mp hes
  have hkeys := keys_of_edgesOut hg hall
  have hlt : ∀ d ∈ s.entries, d.1 < Arc.tail e := by
    intro d hd
    have hmem : d.1 ∈ es.map Arc.tail := hkeys ▸ List.mem_map_of_mem hd
    obtain ⟨x, hx, htail⟩ := List.mem_map.mp hmem
    exact htail ▸ last x hx
  have hadd : (s.add (Arc.tail e)).keys = s.keys ++ [Arc.tail e] := by
    change (Table.insertEntry (Arc.tail e) () s.entries).map (·.1) = _
    rw [Table.insertEntry_of_gt fun d hd => Nat.compare_eq_gt.mpr (hlt d hd), List.map_append]
    rfl
  refine edgesOut_eq_ok.mpr ⟨s.add (Arc.tail e), ?_, ?_⟩
  · simp only [link, Table.get?_insert, if_pos, hs, Option.getD_some]
  · rw [hadd]
    refine List.rel_append (hall.imp fun w x hx => ?_) (.cons ?_ .nil)
    · rw [Table.get?_insert, if_neg]
      · exact hx
      · intro hends
        cases hends
        rw [hnew] at hx
        cases hx
    · rw [Table.get?_insert, if_pos rfl]

omit [Arc ε] in
theorem edgesOut_removeEdge_of_ne {head tail : Nat} (h : g.removeEdge head tail = .ok (e, g'))
    (hv : v ≠ head) : g'.edgesOut v = g.edgesOut v := by
  obtain ⟨-, rfl⟩ := removeEdge_ok h
  refine edgesOut_congr ?_ fun w => ?_
  · simp only [unlink]
    split
    · rw [Table.get?_insert, if_neg hv]
    · rfl
  · rw [Table.get?_erase, if_neg]
    intro hends
    exact hv (congrArg Prod.fst hends)

theorem edgesOut_removeEdge_single {head tail : Nat} (hg : g.Filed)
    (h : g.removeEdge head tail = .ok (e, g')) {x : ε} (hes : g.edgesOut head = .ok [x])
    (htail : Arc.tail x = tail) : g'.edgesOut head = .ok [] := by
  obtain ⟨-, rfl⟩ := removeEdge_ok h
  obtain ⟨s, hs, hall⟩ := edgesOut_eq_ok.mp hes
  have hkeys := keys_of_edgesOut hg hall
  refine edgesOut_eq_ok.mpr ⟨s.erase tail, ?_, ?_⟩
  · simp only [unlink, hs, Table.get?_insert, if_pos]
  · have herase : (s.erase tail).keys = s.keys.filter fun w => !(w == tail) := by
      unfold Table.erase Table.filter Table.keys
      rw [List.filter_map]
      rfl
    rw [herase, hkeys]
    simp [htail]

end Graph

namespace FlowGraph

/-- A block computes a variable from operands alone. -/
def Computes (c : FlowGraph) (k : Nat) (v : Variable) : Prop :=
  ∃ b i, c.block k = .ok b ∧ i ∈ b.instructions ∧ i.operation.computes? = some v

/-- From the end of a block control arrives where an edge arrives, through new blocks, which are numbered
from `n` on. The second block is the one that it arrives from. -/
inductive Leads (c : FlowGraph) (n : Nat) (e : Edge) : Nat → Nat → Prop where
  | here {k : Nat} {e' : Edge} (out : c.graph.edgesOut k = .ok [e']) (arrives : e'.tail = e.tail)
    (condition : e'.condition = e.condition ∨ e'.condition = none) : Leads c n e k k
  | around {k guards join last : Nat} {v : Variable} (new : n ≤ guards) (before : k < guards)
    (behind : guards < join) (tested : c.Computes k v)
    (out : c.graph.edgesOut k = .ok [.make k guards (some (.isTrue (.variable v))),
      .make k join (some (.isFalse (.variable v)))])
    (passes : c.graph.edgesOut guards = .ok [.make guards join none]) (rest : Leads c n e join last) :
    Leads c n e k last

namespace Leads

variable {c c' : FlowGraph} {n k last : Nat} {e : Edge}

theorem le (h : Leads c n e k last) : k ≤ last := by
  induction h with
  | here => exact Nat.le_refl _
  | around _ before behind _ _ _ _ ih => omega

/-- A way ends where it starts, or behind a new block. -/
theorem eq_or_new (h : Leads c n e k last) : last = k ∨ n ≤ last := by
  cases h with
  | here => exact .inl rfl
  | around new before behind _ _ _ rest =>
    have := rest.le
    exact .inr (by omega)

theorem arriving (h : Leads c n e k last) :
    ∃ e', c.graph.edgesOut last = .ok [e'] ∧ e'.tail = e.tail ∧
      (e'.condition = e.condition ∨ e'.condition = none) := by
  induction h with
  | here out arrives condition => exact ⟨_, out, arrives, condition⟩
  | around _ _ _ _ _ _ _ ih => exact ih

theorem congr (h : Leads c n e k last) (edges : ∀ j es, c.graph.edgesOut j = .ok es → c'.graph.edgesOut j = .ok es)
    (computes : ∀ j v, c.Computes j v → c'.Computes j v) : Leads c' n e k last := by
  induction h with
  | here out arrives condition => exact .here (edges _ _ out) arrives condition
  | around new before behind tested out passes _ ih =>
    exact .around new before behind (computes _ _ tested) (edges _ _ out) (edges _ _ passes) ih

/-- So do edits at the end of a way to somewhere else. -/
theorem congr_of_arriving {z : Nat} {d : Edge} (h : Leads c n e k last) (hz : c.graph.edgesOut z = .ok [d])
    (old : d.tail < n) (elsewhere : d.tail ≠ e.tail)
    (edges : ∀ j es, j ≠ z → c.graph.edgesOut j = .ok es → es ≠ [] → c'.graph.edgesOut j = .ok es)
    (computes : ∀ j v, c.Computes j v → c'.Computes j v) : Leads c' n e k last := by
  induction h with
  | here out arrives condition =>
    refine .here (edges _ _ ?_ out (List.cons_ne_nil _ _)) arrives condition
    rintro rfl
    rw [hz] at out
    cases out
    exact elsewhere arrives
  | around new before behind tested out passes _ ih =>
    refine .around new before behind (computes _ _ tested) (edges _ _ ?_ out (List.cons_ne_nil _ _))
      (edges _ _ ?_ passes (List.cons_ne_nil _ _)) ih
    · rintro rfl
      rw [hz] at out
      cases out
    · rintro rfl
      rw [hz] at passes
      cases passes
      simp only [Edge.make] at old
      omega

theorem extend {guards join : Nat} {v : Variable} (h : Leads c n e k last) (new : n ≤ guards)
    (before : last < guards) (behind : guards < join)
    (edges : ∀ j es, j ≠ last → c.graph.edgesOut j = .ok es → es ≠ [] → c'.graph.edgesOut j = .ok es)
    (computes : ∀ j v, c.Computes j v → c'.Computes j v) (tested : c'.Computes last v)
    (out : c'.graph.edgesOut last = .ok [.make last guards (some (.isTrue (.variable v))),
      .make last join (some (.isFalse (.variable v)))])
    (passes : c'.graph.edgesOut guards = .ok [.make guards join none])
    (joins : c'.graph.edgesOut join = .ok [.make join e.tail none]) : Leads c' n e k join := by
  induction h with
  | here => exact .around new before behind tested out passes (.here joins rfl (.inr rfl))
  | around new' before' behind' tested' out' passes' rest ih =>
    have := rest.le
    exact .around new' before' behind' (computes _ _ tested') (edges _ _ (by omega) out' (List.cons_ne_nil _ _))
      (edges _ _ (by omega) passes' (List.cons_ne_nil _ _)) (ih before edges tested out)

end Leads

end FlowGraph

end RegionGuard

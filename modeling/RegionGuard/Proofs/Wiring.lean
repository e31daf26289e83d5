import RegionGuard.Proofs.Numbering
import RegionGuard.Proofs.Searches
set_option autoImplicit false

namespace RegionGuard

namespace Graph

variable {ν ε : Type} {g g' : Graph ν ε} {v w : Nat}

def neighbors (t : Table Nat (KeySet Nat)) (v : Nat) : List Nat := ((t.get? v).map Table.keys).getD []

theorem mem_neighbors_link {t : Table Nat (KeySet Nat)} {head tail : Nat} :
    w ∈ neighbors (link t head tail) v ↔ v = head ∧ w = tail ∨ w ∈ neighbors t v := by
  unfold neighbors link
  rw [Table.get?_insert]
  by_cases hv : v = head
  · subst hv
    rw [if_pos rfl, Option.map_some, Option.getD_some, KeySet.mem_keys_add]
    cases ht : t.get? v with
    | none => simp [Table.keys, EmptyCollection.emptyCollection, Table.empty]
    | some s => simp
  · simp [hv]

theorem mem_neighbors_unlink {t : Table Nat (KeySet Nat)} {head tail : Nat} :
    w ∈ neighbors (unlink t head tail) v ↔ w ∈ neighbors t v ∧ ¬ (v = head ∧ w = tail) := by
  unfold unlink
  cases ht : t.get? head with
  | none =>
    by_cases hv : v = head
    · subst hv
      simp [neighbors, ht]
    · simp [hv]
  | some s =>
    unfold neighbors
    rw [Table.get?_insert]
    by_cases hv : v = head
    · subst hv
      simp [ht, Table.mem_keys_erase]
    · simp [hv]

theorem successorsOf_of_ok {l : List Nat} (h : g.successorIndices v = .ok l) : g.successorsOf v = l := by
  unfold successorsOf
  rw [orRaise_eq_ok.mp h]
  rfl

theorem predecessorsOf_of_ok {l : List Nat} (h : g.predecessorIndices v = .ok l) : g.predecessorsOf v = l := by
  unfold predecessorsOf
  rw [orRaise_eq_ok.mp h]
  rfl

theorem nodup_neighbors (t : Table Nat (KeySet Nat)) (v : Nat) : (neighbors t v).Nodup := by
  unfold neighbors
  cases t.get? v with
  | none => exact List.nodup_nil
  | some s => exact Table.nodup_keys s

/-- Every edge joins two vertices, and is known by its ends, as a successor and as a predecessor. -/
structure Wired (g : Graph ν ε) : Prop where
  successors : ∀ v w, w ∈ g.successorsOf v ↔ (g.edges.get? (v, w)).isSome
  predecessors : ∀ v w, v ∈ g.predecessorsOf w ↔ (g.edges.get? (v, w)).isSome
  hasSuccessors : ∀ v, (g.successors.get? v).isSome = (g.vertices.get? v).isSome
  hasPredecessors : ∀ v, (g.predecessors.get? v).isSome = (g.vertices.get? v).isSome
  ends : ∀ v w, (g.edges.get? (v, w)).isSome → (g.vertices.get? v).isSome ∧ (g.vertices.get? w).isSome

theorem Wired.successors_ok (h : g.Wired) (hv : (g.vertices.get? v).isSome) :
    g.successorIndices v = .ok (g.successorsOf v) := by
  obtain ⟨s, hs⟩ := Option.isSome_iff_exists.mp ((h.hasSuccessors v).trans hv)
  unfold successorIndices successorsOf
  rw [hs]
  rfl

theorem Wired.predecessors_ok (h : g.Wired) (hv : (g.vertices.get? v).isSome) :
    g.predecessorIndices v = .ok (g.predecessorsOf v) := by
  obtain ⟨s, hs⟩ := Option.isSome_iff_exists.mp ((h.hasPredecessors v).trans hv)
  unfold predecessorIndices predecessorsOf
  rw [hs]
  rfl

theorem Wired.vertex_of_reaches (h : g.Wired) (hv : (g.vertices.get? v).isSome)
    (hreaches : Search.Reaches g.successorsOf v w) : (g.vertices.get? w).isSome := by
  cases hreaches with
  | refl => exact hv
  | tail _ hlast => exact (h.ends _ w ((h.successors _ w).mp hlast)).2

theorem wired_empty : (empty : Graph ν ε).Wired := by
  constructor <;> simp [empty, successorsOf, predecessorsOf, EmptyCollection.emptyCollection]

theorem Wired.insertVertex [Vertex ν] (h : g.Wired) {x : ν} (hx : g.insertVertex x = .ok g') : g'.Wired := by
  unfold Graph.insertVertex at hx
  dsimp only at hx
  split at hx
  · cases hx
  · rename_i hfresh
    cases hx
    have hnone : (g.vertices.get? (Vertex.index x)).isSome = false := by simpa [hasVertex, Table.contains] using hfresh
    have unlinked : ∀ {t : Table Nat (KeySet Nat)}, (∀ v, (t.get? v).isSome = (g.vertices.get? v).isSome) →
        ∀ v, neighbors (t.insert (Vertex.index x) ∅) v = neighbors t v := by
      intro t ht v
      unfold neighbors
      rw [Table.get?_insert]
      split
      · rename_i hv
        have hmissing := (ht v).trans (hv ▸ hnone)
        cases hget : t.get? v with
        | none => rfl
        | some s =>
          rw [hget] at hmissing
          cases hmissing
      · rfl
    refine ⟨fun v w => ?_, fun v w => ?_, fun v => ?_, fun v => ?_, fun v w hvw => ?_⟩
    · rw [← h.successors]
      exact iff_of_eq (congrArg (w ∈ ·) (unlinked h.hasSuccessors v))
    · rw [← h.predecessors]
      exact iff_of_eq (congrArg (v ∈ ·) (unlinked h.hasPredecessors w))
    · simp only [Table.get?_insert]
      split
      · rfl
      · exact h.hasSuccessors v
    · simp only [Table.get?_insert]
      split
      · rfl
      · exact h.hasPredecessors v
    · obtain ⟨hv, hw⟩ := h.ends v w hvw
      simp only [Table.get?_insert]
      constructor <;> split <;> first | rfl | assumption

theorem Wired.insertEdge [Arc ε] (h : g.Wired) {e : ε} (he : g.insertEdge e = .ok g') : g'.Wired := by
  unfold Graph.insertEdge at he
  dsimp only at he
  split at he
  · cases he
  split at he
  · cases he
  split at he
  · cases he
  rename_i hhead htail
  cases he
  have hhead : (g.vertices.get? (Arc.head e)).isSome :=
    Option.isSome_iff_ne_none.mpr (by simpa [hasVertex, Table.contains] using hhead)
  have htail : (g.vertices.get? (Arc.tail e)).isSome :=
    Option.isSome_iff_ne_none.mpr (by simpa [hasVertex, Table.contains] using htail)
  have hedges : ∀ v w, ((g.edges.insert (Arc.head e, Arc.tail e) e).get? (v, w)).isSome ↔
      v = Arc.head e ∧ w = Arc.tail e ∨ (g.edges.get? (v, w)).isSome := by
    intro v w
    rw [Table.get?_insert]
    by_cases hvw : (v, w) = (Arc.head e, Arc.tail e)
    · have := Prod.mk.inj hvw
      simp [this]
    · have : ¬ (v = Arc.head e ∧ w = Arc.tail e) := fun hends => hvw (Prod.ext hends.1 hends.2)
      simp [hvw, this]
  have hkeys : ∀ {t : Table Nat (KeySet Nat)} {a b : Nat}, (∀ v, (t.get? v).isSome = (g.vertices.get? v).isSome) →
      (g.vertices.get? a).isSome → ∀ v, ((link t a b).get? v).isSome = (g.vertices.get? v).isSome := by
    intro t a b ht ha v
    unfold link
    rw [Table.get?_insert]
    split
    · rename_i hv
      rw [hv, ha]
      rfl
    · exact ht v
  refine ⟨fun v w => ?_, fun v w => ?_, hkeys h.hasSuccessors hhead, hkeys h.hasPredecessors htail, fun v w hvw => ?_⟩
  · rw [hedges, ← h.successors]
    exact mem_neighbors_link
  · rw [hedges, ← h.predecessors, and_comm]
    exact mem_neighbors_link
  · rcases (hedges v w).mp hvw with ⟨rfl, rfl⟩ | hvw
    · exact ⟨hhead, htail⟩
    · exact h.ends v w hvw

theorem Wired.removeEdge (h : g.Wired) {head tail : Nat} {e : ε} (he : g.removeEdge head tail = .ok (e, g')) :
    g'.Wired := by
  obtain ⟨e', -, he⟩ := bind_eq_ok.mp he
  cases he
  have hedges : ∀ v w, ((g.edges.erase (head, tail)).get? (v, w)).isSome ↔
      (g.edges.get? (v, w)).isSome ∧ ¬ (v = head ∧ w = tail) := by
    intro v w
    rw [Table.get?_erase]
    by_cases hvw : (v, w) = (head, tail)
    · have := Prod.mk.inj hvw
      simp [this]
    · have : ¬ (v = head ∧ w = tail) := fun hends => hvw (Prod.ext hends.1 hends.2)
      simp [hvw, this]
  have hkeys : ∀ (t : Table Nat (KeySet Nat)) (a b v : Nat), ((unlink t a b).get? v).isSome = (t.get? v).isSome := by
    intro t a b v
    unfold unlink
    cases ha : t.get? a with
    | none => rfl
    | some s =>
      dsimp only
      rw [Table.get?_insert]
      split
      · rename_i hv
        rw [hv, ha]
        rfl
      · rfl
  refine ⟨fun v w => ?_, fun v w => ?_, fun v => (hkeys _ _ _ v).trans (h.hasSuccessors v),
    fun v => (hkeys _ _ _ v).trans (h.hasPredecessors v), fun v w hvw => h.ends v w ((hedges v w).mp hvw).1⟩
  · rw [hedges, ← h.successors]
    exact mem_neighbors_unlink
  · rw [hedges, ← h.predecessors, and_comm (a := v = head)]
    exact mem_neighbors_unlink

theorem Wired.setVertex (h : g.Wired) (hv : (g.vertices.get? v).isSome) (x : ν) : (g.setVertex v x).Wired := by
  have hsame : ∀ u, ((g.vertices.insert v x).get? u).isSome = (g.vertices.get? u).isSome := by
    intro u
    rw [Table.get?_insert]
    split
    · rename_i hu
      rw [hu, hv]
      rfl
    · rfl
  refine ⟨h.successors, h.predecessors, fun u => ?_, fun u => ?_, fun u w huw => ?_⟩
  · exact (h.hasSuccessors u).trans (hsame u).symm
  · exact (h.hasPredecessors u).trans (hsame u).symm
  · obtain ⟨hu, hw⟩ := h.ends u w huw
    exact ⟨(hsame u).trans hu, (hsame w).trans hw⟩

end Graph

namespace FlowGraph

theorem redirectEdge_cases (c : FlowGraph) (head oldTail newTail : Nat) :
    (c.redirectEdge head oldTail newTail).2 = c ∨ ∃ e g, c.graph.removeEdge head oldTail = .ok (e, g) ∧
      ((c.redirectEdge head oldTail newTail).2 = { c with graph := g } ∨
        ∃ e' g', g.insertEdge e' = .ok g' ∧ (c.redirectEdge head oldTail newTail).2 = { c with graph := g' }) := by
  unfold redirectEdge
  cases hremove : c.graph.removeEdge head oldTail with
  | error => exact .inl rfl
  | ok removed =>
    obtain ⟨e, g⟩ := removed
    refine .inr ⟨e, g, rfl, ?_⟩
    cases hinsert : g.insertEdge { e with head := head, tail := newTail } with
    | error => exact .inl (by simp only [hinsert])
    | ok g' => exact .inr ⟨_, g', hinsert, by simp only [hinsert]⟩

/-- The graphs that come from the empty one step by step. A block may be changed in place to any other. -/
inductive Built : FlowGraph → Prop
  | empty : Built .empty
  | newBlock {c c' : FlowGraph} {k : Nat} : Built c → c.newBlock = .ok (k, c') → Built c'
  | insertEdge {c c' : FlowGraph} {head tail : Nat} {condition : Option Condition} :
      Built c → c.insertEdge head tail condition = .ok c' → Built c'
  | removeEdge {c c' : FlowGraph} {head tail : Nat} {e : Edge} :
      Built c → c.removeEdge head tail = .ok (e, c') → Built c'
  | redirectEdge {c : FlowGraph} {head oldTail newTail : Nat} :
      Built c → Built (c.redirectEdge head oldTail newTail).2
  | setEntry {c c' : FlowGraph} {entry : Nat} : Built c → c.setEntry entry = .ok c' → Built c'
  | temp {c c' : FlowGraph} {ty : Ty} {v : Variable} : Built c → c.temp ty = .ok (v, c') → Built c'
  | modifyBlock {c c' : FlowGraph} {k : Nat} {f : Block → Outcome Block} :
      Built c → c.modifyBlock k f = .ok c' → Built c'

/-- The graphs that are built, and whose blocks and instructions have numbers as blocks give them out. -/
structure Made (c : FlowGraph) : Prop where
  built : c.Built
  numbered : c.Numbered

theorem setEntry_graph {c c' : FlowGraph} {entry : Nat} (h : c.setEntry entry = .ok c') : c'.graph = c.graph := by
  unfold setEntry at h
  split at h
  · cases h
    rfl
  · cases h

theorem Built.wired {c : FlowGraph} (h : c.Built) : c.graph.Wired := by
  induction h with
  | empty => exact Graph.wired_empty
  | newBlock _ hnew ih =>
    obtain ⟨next, -, hnew⟩ := bind_eq_ok.mp hnew
    obtain ⟨g, hg, hnew⟩ := bind_eq_ok.mp hnew
    cases hnew
    exact ih.insertVertex hg
  | insertEdge _ hedge ih =>
    obtain ⟨g, hg, hedge⟩ := bind_eq_ok.mp hedge
    cases hedge
    exact ih.insertEdge hg
  | removeEdge _ hedge ih =>
    obtain ⟨⟨e, g⟩, hg, hedge⟩ := bind_eq_ok.mp hedge
    cases hedge
    exact ih.removeEdge hg
  | @redirectEdge c head oldTail newTail _ ih =>
    obtain h | ⟨e, g, hg, h | ⟨e', g', hg', h⟩⟩ := redirectEdge_cases c head oldTail newTail <;> rw [h]
    · exact ih
    · exact ih.removeEdge hg
    · exact (ih.removeEdge hg).insertEdge hg'
  | setEntry _ hentry ih => exact setEntry_graph hentry ▸ ih
  | temp _ htemp ih => exact temp_vertices htemp ▸ ih
  | modifyBlock _ hblock ih =>
    obtain ⟨b, b', hb, -, rfl⟩ := modifyBlock_ok hblock
    exact ih.setVertex (Option.isSome_iff_exists.mpr ⟨b, block_eq_ok.mp hb⟩) b'

theorem Made.wired {c : FlowGraph} (h : c.Made) : c.graph.Wired := h.built.wired

theorem built_of_build {blocks : List (List Draft)} {edges : List (Nat × Nat × Option Condition)}
    {entry : Option Nat} {c : FlowGraph} (h : build blocks edges entry = .ok c) : c.Built := by
  obtain ⟨c₁, hblocks, h⟩ := bind_eq_ok.mp h
  obtain ⟨c₂, hedges, h⟩ := bind_eq_ok.mp h
  have h₁ : c₁.Built := by
    refine foldlM_induction (fun c drafts c' hc hdrafts => ?_) Built.empty hblocks
    obtain ⟨⟨k, c₀⟩, hnew, hdrafts⟩ := bind_eq_ok.mp hdrafts
    exact foldlM_induction (fun _ _ _ hc hd => .modifyBlock hc hd) (hc.newBlock hnew) hdrafts
  have h₂ : c₂.Built := foldlM_induction (fun _ _ _ hc he => hc.insertEdge he) h₁ hedges
  cases entry with
  | none =>
    cases h
    exact h₂
  | some e => exact h₂.setEntry h

theorem made_of_build {blocks : List (List Draft)} {edges : List (Nat × Nat × Option Condition)}
    {entry : Option Nat} {c : FlowGraph} (h : build blocks edges entry = .ok c) : c.Made :=
  ⟨built_of_build h, numbered_of_build h⟩

end FlowGraph

namespace Program

/-- The programs that come from the empty one step by step. A function may be changed in place, even to one of
another name. -/
inductive Built : Program → Prop
  | empty : Built .empty
  | addFunction {p : Program} {f : Function} : (∀ body ∈ f.body, body.Built) → Built p → Built (p.addFunction f)
  | addGlobal {p : Program} {g : GlobalVariable} : Built p → Built (p.addGlobal g)
  | setFunction {p : Program} {name : String} {f : Function} : (p.function? name).isSome →
      (∀ body ∈ f.body, body.Built) → Built p → Built (p.setFunction name f)

/-- The programs that are built, and whose functions, blocks and instructions stand under their own names and
numbers. -/
structure Made (p : Program) : Prop where
  built : p.Built
  numbered : p.Numbered

variable {p : Program}

theorem Built.body (h : p.Built) {name : String} {f : Function} (hf : p.function? name = some f) :
    ∀ body ∈ f.body, body.Built := by
  have inserted : ∀ {p : Program} {g : Function} {key : String}, (∀ body ∈ g.body, body.Built) →
      (p.function? name = some f → ∀ body ∈ f.body, body.Built) → (p.setFunction key g).function? name = some f →
        ∀ body ∈ f.body, body.Built := by
    intro p g key hg ih hf
    unfold function? Program.setFunction at hf
    rw [Table.get?_insert] at hf
    split at hf
    · cases hf
      exact hg
    · exact ih hf
  induction h with
  | empty => cases hf
  | addFunction hadded _ ih => exact inserted hadded ih hf
  | addGlobal _ ih => exact ih hf
  | setFunction _ hset _ ih => exact inserted hset ih hf

theorem Made.body (h : p.Made) {name : String} {f : Function} (hf : p.function? name = some f) :
    ∀ body ∈ f.body, body.Made := fun body hbody =>
  ⟨h.built.body hf body hbody, (numbered_iff.mp h.numbered name f hf).2 body hbody⟩

theorem Made.empty : Program.empty.Made := ⟨.empty, fun _ he => (List.not_mem_nil he).elim⟩

theorem Made.addFunction {f : Function} (hf : ∀ body ∈ f.body, body.Made) (h : p.Made) : (p.addFunction f).Made :=
  ⟨.addFunction (fun body hbody => (hf body hbody).built) h.built,
    numbered_of_addFunction h.numbered fun body hbody => (hf body hbody).numbered⟩

theorem Made.addGlobal {g : GlobalVariable} (h : p.Made) : (p.addGlobal g).Made := ⟨.addGlobal h.built, h.numbered⟩

end Program

end RegionGuard

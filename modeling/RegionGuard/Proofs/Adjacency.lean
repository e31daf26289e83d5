import RegionGuard.Proofs.OverlaidCalls
import RegionGuard.Proofs.ReversePostOrders
set_option autoImplicit false

namespace RegionGuard

inductive GraphRequest (ν ε : Type) where
  | insertVertex (x : ν)
  | insertEdge (e : ε)
  | removeEdge (head tail : Nat)

namespace GraphRequest

open RegionGuard.Graph (link unlink)

variable {ν ε : Type} [Vertex ν] [Arc ε]

/-- What a request answers, with the graph that it makes of another: an edge that is taken out is handed over. -/
def apply : GraphRequest ν ε → Graph ν ε → Outcome (Option ε × Graph ν ε)
  | .insertVertex x, g => (g.insertVertex x).map (none, ·)
  | .insertEdge e, g => (g.insertEdge e).map (none, ·)
  | .removeEdge head tail, g => (g.removeEdge head tail).map fun (e, g') => (some e, g')

/-- A request carried out in place, table by table. An edge is looked for by taking it out. -/
def perform : GraphRequest ν ε → Stateful (Graph ν ε) (Option ε)
  | .insertVertex x => do
    let g ← get
    if g.hasVertex (Vertex.index x) then Failure.raise (.request .duplicateVertex)
    modify fun g => { g with successors := g.successors.insert (Vertex.index x) ∅ }
    modify fun g => { g with predecessors := g.predecessors.insert (Vertex.index x) ∅ }
    modify fun g => { g with vertices := g.vertices.insert (Vertex.index x) x }
    return none
  | .insertEdge e => do
    let g ← get
    if g.edges.contains (Arc.head e, Arc.tail e) then Failure.raise (.request .duplicateEdge)
    unless g.hasVertex (Arc.head e) do Failure.raise (.vertexNotFound (Arc.head e))
    unless g.hasVertex (Arc.tail e) do Failure.raise (.vertexNotFound (Arc.tail e))
    modify fun g => { g with edges := g.edges.insert (Arc.head e, Arc.tail e) e }
    modify fun g => { g with successors := link g.successors (Arc.head e) (Arc.tail e) }
    modify fun g => { g with predecessors := link g.predecessors (Arc.tail e) (Arc.head e) }
    return none
  | .removeEdge head tail => do
    let g ← get
    modify fun g => { g with edges := g.edges.erase (head, tail) }
    let e ← Failure.orRaise (g.edges.get? (head, tail)) (.edgeNotFound head tail)
    modify fun g => { g with predecessors := unlink g.predecessors tail head }
    modify fun g => { g with successors := unlink g.successors head tail }
    return some e

open Stateful

/-- Table by table, a request comes to the same as all at once, and a refused one is refused in time. -/
theorem runFrom_perform (r : GraphRequest ν ε) (g : Graph ν ε) :
    r.perform.runFrom g = (Stateful.eval r.apply).runFrom g := by
  rw [runFrom_eval]
  cases r with
  | insertVertex x =>
    unfold perform apply Graph.insertVertex
    rw [runFrom_get_bind]
    by_cases hvertex : g.hasVertex (Vertex.index x)
    · simp only [hvertex]
      rfl
    · simp only [hvertex]
      rfl
  | insertEdge e =>
    unfold perform apply Graph.insertEdge
    rw [runFrom_get_bind]
    by_cases hedge : g.edges.contains (Arc.head e, Arc.tail e)
    · simp only [hedge]
      rfl
    by_cases hhead : g.hasVertex (Arc.head e)
    · by_cases htail : g.hasVertex (Arc.tail e)
      · simp only [hedge, hhead, htail]
        rfl
      · simp only [hedge, hhead, htail]
        rfl
    · simp only [hedge, hhead]
      rfl
  | removeEdge head tail =>
    unfold perform apply Graph.removeEdge Graph.edge
    rw [runFrom_get_bind, runFrom_modify_bind]
    cases hedge : g.edges.get? (head, tail) with
    | none =>
      -- Nothing has been taken out when the edge is missed.
      simp only [hedge, Table.erase_of_get?_none hedge]
      rfl
    | some e =>
      simp only [hedge]
      rfl

end GraphRequest

namespace Graph

variable {ν ε : Type} {g : Graph ν ε} {v w : Nat}

theorem mem_neighbors_iff {t : Table Nat (KeySet Nat)} : w ∈ neighbors t v ↔ ∃ s, t.get? v = some s ∧ w ∈ s.keys := by
  unfold neighbors
  cases t.get? v with
  | none => simp
  | some s => simp

theorem dominators_of_absent (hv : g.hasVertex v = false) : g.dominators v = .error (.error (.vertexNotFound v)) := by
  unfold dominators immediateDominators
  rw [reversePostOrder_of_absent hv]
  rfl

section Requests

variable [Vertex ν] [Arc ε]

/-- The graph that requests make of the empty one. Those that are refused are left out of account. -/
def history (requests : List (GraphRequest ν ε)) : Graph ν ε :=
  requests.foldl (fun g r => (r.perform.runFrom g).2) empty

theorem Wired.apply {a : Option ε} {g' : Graph ν ε} (wired : g.Wired) {r : GraphRequest ν ε}
    (h : r.apply g = .ok (a, g')) : g'.Wired := by
  cases r with
  | insertVertex x =>
    obtain ⟨g'', hinsert, hg'⟩ := map_eq_ok.mp h
    cases hg'
    exact wired.insertVertex hinsert
  | insertEdge e =>
    obtain ⟨g'', hinsert, hg'⟩ := map_eq_ok.mp h
    cases hg'
    exact wired.insertEdge hinsert
  | removeEdge head tail =>
    obtain ⟨⟨e, g''⟩, hremove, hg'⟩ := map_eq_ok.mp h
    cases hg'
    exact wired.removeEdge hremove

theorem Wired.perform (wired : g.Wired) (r : GraphRequest ν ε) : (r.perform.runFrom g).2.Wired := by
  rw [r.runFrom_perform, Stateful.runFrom_eval]
  cases happly : r.apply g with
  | error f => exact wired
  | ok answer => exact wired.apply happly

theorem wired_history (requests : List (GraphRequest ν ε)) : (history requests).Wired :=
  List.foldlRecOn requests _ wired_empty fun _ wired r _ => wired.perform r

/-- Whatever was asked of a graph that started out empty, and whether or not it was done: vertices, successors and
predecessors have the same keys, an edge is known by its ends, as a successor and as a predecessor, and joins two vertices.
Asked for something else, the graph does it as a whole or stays as it is. The edges out of a vertex, what is reached from it
and what dominates what behind it are found, and elsewhere there is an error. -/
theorem adjacency_agrees (requests : List (GraphRequest ν ε)) :
    let g := history requests
    (g.successors.keys = g.vertices.keys ∧ g.predecessors.keys = g.vertices.keys) ∧
    (∀ h t, (g.edges.get? (h, t)).isSome ↔ ∃ s, g.successors.get? h = some s ∧ t ∈ s.keys) ∧
    (∀ h t, (g.edges.get? (h, t)).isSome ↔ ∃ s, g.predecessors.get? t = some s ∧ h ∈ s.keys) ∧
    (∀ h t, (g.edges.get? (h, t)).isSome → g.hasVertex h ∧ g.hasVertex t) ∧
    (∀ (r : GraphRequest ν ε) a g', r.perform.runFrom g = (.ok a, g') ↔ r.apply g = .ok (a, g')) ∧
    (∀ (r : GraphRequest ν ε) f g', r.perform.runFrom g = (.error f, g') ↔ r.apply g = .error f ∧ g' = g) ∧
    ∀ v,
      (g.hasVertex v = true →
        (∃ es, g.edgesOut v = .ok es) ∧ (∃ order, g.reachable v = .ok order) ∧ ∃ d, g.dominators v = .ok d) ∧
      (g.hasVertex v = false →
        g.edgesOut v = .error (.error (.vertexNotFound v)) ∧ g.reachable v = .error (.error (.vertexNotFound v)) ∧
          g.dominators v = .error (.error (.vertexNotFound v))) := by
  intro g
  have wired : g.Wired := wired_history requests
  refine ⟨⟨Table.keys_congr wired.hasSuccessors, Table.keys_congr wired.hasPredecessors⟩,
    fun h t => (wired.successors h t).symm.trans mem_neighbors_iff,
    fun h t => (wired.predecessors h t).symm.trans mem_neighbors_iff, wired.ends, fun r a g' => ?done,
    fun r f g' => ?refused, fun v => ⟨fun hv => ?present, fun hv => ?absent⟩⟩
  case done =>
    rw [r.runFrom_perform, Stateful.runFrom_eval]
    cases r.apply g with
    | error f => simp
    | ok answer => simp [Prod.ext_iff]
  case refused =>
    rw [r.runFrom_perform, Stateful.runFrom_eval]
    cases r.apply g with
    | error f => simp [eq_comm]
    | ok answer => simp
  case present =>
    exact ⟨wired.exists_edgesOut hv, ⟨_, wired.reversePostOrder_ok hv⟩, ⟨_, wired.dominators_ok hv⟩⟩
  case absent =>
    exact ⟨wired.edgesOut_of_absent hv, reversePostOrder_of_absent hv, dominators_of_absent hv⟩

end Requests

end Graph

end RegionGuard

import RegionGuard.Failure
import RegionGuard.Table
set_option autoImplicit false

namespace RegionGuard

class Vertex (ν : Type) where
  index : ν → Nat

/-- What can join two vertices: it leaves `head` and arrives at `tail`. -/
class Arc (ε : Type) where
  head : ε → Nat
  tail : ε → Nat

structure Graph (ν ε : Type) where
  vertices : Table Nat ν
  edges : Table (Nat × Nat) ε
  successors : Table Nat (KeySet Nat)
  predecessors : Table Nat (KeySet Nat)
deriving DecidableEq

structure PlainVertex where
  index : Nat
deriving DecidableEq

structure PlainEdge where
  head : Nat
  tail : Nat
deriving DecidableEq

instance : Vertex PlainVertex := ⟨PlainVertex.index⟩
instance : Arc PlainEdge := ⟨PlainEdge.head, PlainEdge.tail⟩

namespace Graph

variable {ν ε : Type}

def empty : Graph ν ε := ⟨∅, ∅, ∅, ∅⟩

instance : Inhabited (Graph ν ε) := ⟨empty⟩

def hasVertex (g : Graph ν ε) (v : Nat) : Bool := g.vertices.contains v

def vertex (g : Graph ν ε) (v : Nat) : Outcome ν :=
  Failure.orRaise (g.vertices.get? v) (.vertexNotFound v)

def edge (g : Graph ν ε) (head tail : Nat) : Outcome ε :=
  Failure.orRaise (g.edges.get? (head, tail)) (.edgeNotFound head tail)

def successorIndices (g : Graph ν ε) (v : Nat) : Outcome (List Nat) :=
  Failure.orRaise ((g.successors.get? v).map Table.keys) (.vertexNotFound v)

def predecessorIndices (g : Graph ν ε) (v : Nat) : Outcome (List Nat) :=
  Failure.orRaise ((g.predecessors.get? v).map Table.keys) (.vertexNotFound v)

def edgesOut (g : Graph ν ε) (v : Nat) : Outcome (List ε) := do
  let tails ← g.successorIndices v
  tails.mapM fun tail => Failure.orStop (g.edges.get? (v, tail)) .missingEntry

def insertVertex [Vertex ν] (g : Graph ν ε) (x : ν) : Outcome (Graph ν ε) :=
  let v := Vertex.index x
  if g.hasVertex v then Failure.raise (.request .duplicateVertex)
  else pure
    { g with
      vertices := g.vertices.insert v x
      successors := g.successors.insert v ∅
      predecessors := g.predecessors.insert v ∅ }

def link (t : Table Nat (KeySet Nat)) (v w : Nat) : Table Nat (KeySet Nat) :=
  t.insert v (((t.get? v).getD ∅).add w)

def unlink (t : Table Nat (KeySet Nat)) (v w : Nat) : Table Nat (KeySet Nat) :=
  match t.get? v with
  | some s => t.insert v (s.erase w)
  | none => t

/-- Adds an edge between two vertices that no edge joins yet. -/
def insertEdge [Arc ε] (g : Graph ν ε) (e : ε) : Outcome (Graph ν ε) :=
  let head := Arc.head e
  let tail := Arc.tail e
  if g.edges.contains (head, tail) then Failure.raise (.request .duplicateEdge)
  else if !g.hasVertex head then Failure.raise (.vertexNotFound head)
  else if !g.hasVertex tail then Failure.raise (.vertexNotFound tail)
  else pure
    { g with
      edges := g.edges.insert (head, tail) e
      successors := link g.successors head tail
      predecessors := link g.predecessors tail head }

def removeEdge (g : Graph ν ε) (head tail : Nat) : Outcome (ε × Graph ν ε) := do
  let e ← g.edge head tail
  return (e,
    { g with
      edges := g.edges.erase (head, tail)
      successors := unlink g.successors head tail
      predecessors := unlink g.predecessors tail head })

def setVertex (g : Graph ν ε) (v : Nat) (x : ν) : Graph ν ε :=
  { g with vertices := g.vertices.insert v x }

end Graph

end RegionGuard

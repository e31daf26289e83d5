import RegionGuard.Graph.Basic
set_option autoImplicit false

/-!
# Depth-first search

A depth-first search leaves an order of the vertices that can be reached, and a tree: it enters every vertex
but the root from a parent. Together with the vertices that precede each one, the parents bound from where a
vertex can be entered around them, and so what dominates it.

Georgiadis, Loukas: Linear-Time Algorithms for Dominators and Related Problems.
-/

namespace RegionGuard

structure Search where
  seen : List Nat
  finished : List Nat
deriving DecidableEq

namespace Search

/-- Enters `v` unless it is seen, and searches on from its neighbors in their order. Each level marks
one vertex, so a depth of one more than the number of vertices that have neighbors is enough. -/
def visit (next : Nat → List Nat) : Nat → Search → Nat → Search
  | 0, s, _ => s
  | depth + 1, s, v =>
    if v ∈ s.seen then s
    else
      let inner := (next v).foldl (visit next depth) { s with seen := v :: s.seen }
      { inner with finished := v :: inner.finished }

end Search

namespace Graph

variable {ν ε : Type}

/-- The successors of a vertex; none where it is unknown. -/
def successorsOf (g : Graph ν ε) (v : Nat) : List Nat := ((g.successors.get? v).map Table.keys).getD []

def predecessorsOf (g : Graph ν ε) (v : Nat) : List Nat :=
  ((g.predecessors.get? v).map Table.keys).getD []

def searchAvoiding (g : Graph ν ε) (excluded : List Nat) (root : Nat) : Search :=
  Search.visit g.successorsOf (g.successors.size + 2) ⟨excluded, []⟩ root

/-- The vertices reachable from `root`, each before the vertices that are left before it. -/
def reversePostOrder (g : Graph ν ε) (root : Nat) : Outcome (List Nat) := do
  unless g.hasVertex root do Failure.raise (.vertexNotFound root)
  let order := (g.searchAvoiding [] root).finished
  unless order.all g.successors.contains do Failure.stop .missingEntry
  return order

def reachable (g : Graph ν ε) (root : Nat) : Outcome (List Nat) := g.reversePostOrder root

end Graph

/-- The tree of a depth-first search. Vertices are named by their positions in the order of entering, so
the root is 0 and a parent comes before its children. -/
structure SearchTree where
  order : List Nat
  parents : List Nat
deriving DecidableEq

/-- The progress of a depth-first search that keeps a stack of its own. -/
structure Walk where
  /-- The vertices to look at, the next one first, each with the position that it was seen from. -/
  pending : List (Nat × Nat)
  tree : SearchTree

namespace Walk

def start (root : Nat) : Walk := ⟨[(0, root)], ⟨[], []⟩⟩

/-- Looks at the next vertex, and enters it unless that was done before. -/
def step (next : Nat → List Nat) (s : Walk) : Walk :=
  match s.pending with
  | [] => s
  | (p, v) :: rest =>
    if v ∈ s.tree.order then { s with pending := rest }
    else
      let ahead := (next v).filter fun w => w ∉ v :: s.tree.order
      { pending := ahead.map (s.tree.order.length, ·) ++ rest
        tree := ⟨s.tree.order ++ [v], s.tree.parents ++ [p]⟩ }

/-- Takes steps until nothing is pending. -/
def run (next : Nat → List Nat) : Nat → Walk → Walk
  | 0, s => s
  | steps + 1, s => if s.pending.isEmpty then s else run next steps (s.step next)

end Walk

structure Forest where
  ancestors : Table Nat Nat
  labels : Table Nat Nat

namespace Forest

def empty : Forest := ⟨∅, ∅⟩

def label (f : Forest) (v : Nat) : Nat := (f.labels.get? v).getD v

/-- Moves the ancestor of `v` to the top of its path, and the least label below the top to `v`. -/
def compress : Nat → Forest → Nat → Forest
  | 0, f, _ => f
  | depth + 1, f, v =>
    match f.ancestors.get? v with
    | none => f
    | some u =>
      if f.ancestors.contains u then
        let f := compress depth f u
        { ancestors := f.ancestors.insert v ((f.ancestors.get? u).getD u)
          labels := f.labels.insert v (min (f.label v) (f.label u)) }
      else f

/-- Lowers a bound to the label of `v`. An ancestor lies further up, which limits the depth. -/
def lower (x : Forest × Nat) (v : Nat) : Forest × Nat :=
  let f := compress (v + 1) x.1 v
  (f, min x.2 (f.label v))

def link (f : Forest) (v ancestor label : Nat) : Forest :=
  ⟨f.ancestors.insert v ancestor, f.labels.insert v label⟩

end Forest

namespace SearchTree

def size (t : SearchTree) : Nat := t.order.length

def parent (t : SearchTree) (v : Nat) : Nat := t.parents.getD v 0

/-- Bounds one position from the later ones, which are linked already. No bound is less than the size if
nothing precedes the position. -/
def bound (t : SearchTree) (preceding : Nat → List Nat) (w : Nat) (s : Forest × Table Nat Nat) :
    Forest × Table Nat Nat :=
  let (f, semi) := (preceding w).foldl Forest.lower (s.1, t.size)
  (f.link w (t.parent w) semi, s.2.insert w semi)

/-- For every position but the root the least one from which it can be entered through later positions
only. -/
def semidominators (t : SearchTree) (preceding : Nat → List Nat) : Table Nat Nat :=
  ((List.range t.size).tail.foldr (t.bound preceding) (.empty, ∅)).2

def climb (idoms : List Nat) (bound : Nat) : Nat → Nat → Nat
  | 0, v => v
  | steps + 1, v => if v ≤ bound then v else climb idoms bound steps (idoms.getD v 0)

/-- The immediate dominator of every position but the root: of its parent and what dominates the parent,
the nearest that is no further down than its semidominator. -/
def immediateDominators (t : SearchTree) (preceding : Nat → List Nat) : List Nat :=
  let semis := t.semidominators preceding
  (List.range t.size).foldl
    (fun idoms w => idoms ++ [climb idoms ((semis.get? w).getD w) w (t.parent w)]) []

end SearchTree

namespace Graph

variable {ν ε : Type}

/-- The tree of the search from `root`. Each step takes one of the entries that were pending, of which
there is one for the root and at most one for every edge. -/
def searchTree (g : Graph ν ε) (root : Nat) : SearchTree :=
  (Walk.run g.successorsOf ((g.successors.values.flatMap Table.keys).length + 1) (.start root)).tree

def preceding (g : Graph ν ε) (t : SearchTree) (w : Nat) : List Nat :=
  (g.predecessorsOf (t.order.getD w 0)).filterMap t.order.idxOf?

def treeDominators (g : Graph ν ε) (root : Nat) : Table Nat Nat :=
  let t := g.searchTree root
  let idoms := t.immediateDominators (g.preceding t)
  Table.ofList (idoms.zipIdx.tail.map fun e => (t.order.getD e.2 0, t.order.getD e.1 0))

end Graph

end RegionGuard

import RegionGuard.Graph.Search
set_option autoImplicit false

namespace RegionGuard

structure Dominators where
  root : Nat
  idoms : Table Nat Nat
deriving DecidableEq

namespace Dominators

def immediate? (d : Dominators) (v : Nat) : Option Nat := d.idoms.get? v

def climbs (idoms : Table Nat Nat) : Nat → Nat → Nat → Bool
  | 0, u, v => v == u
  | steps + 1, u, v =>
    v == u || match idoms.get? v with
      | some w => climbs idoms steps u w
      | none => false

def dominates (d : Dominators) (u v : Nat) : Bool := climbs d.idoms d.idoms.size u v

end Dominators

namespace Graph

variable {ν ε : Type}

/-- The immediate dominators of the vertices reachable from `root`, but for the root itself. -/
def immediateDominators (g : Graph ν ε) (root : Nat) : Outcome (Table Nat Nat) := do
  let order ← g.reversePostOrder root
  unless order.all fun v => v == root || g.predecessors.contains v do Failure.stop .missingEntry
  return g.treeDominators root

def dominators (g : Graph ν ε) (root : Nat) : Outcome Dominators := do
  let idoms ← g.immediateDominators root
  return ⟨root, idoms⟩

end Graph

structure Loop where
  header : Nat
  nodes : KeySet Nat
deriving DecidableEq

instance : Vertex Loop := ⟨Loop.header⟩

abbrev LoopTree := Graph Loop PlainEdge

namespace Loop

def contains (l : Loop) (v : Nat) : Bool := l.nodes.contains v

def isNesting (outer inner : Loop) : Bool := outer.header != inner.header && outer.contains inner.header

def text (l : Loop) : String :=
  "Loop 0x" ++ Hex.upper l.header ++ ": \x7b"
    ++ ", ".intercalate (l.nodes.keys.map fun v => "0x" ++ Hex.upper v) ++ "\x7d"

def smallest? : List Loop → Option Loop
  | [] => none
  | l :: rest =>
    match smallest? rest with
    | some other => if l.nodes.size ≤ other.nodes.size then some l else some other
    | none => some l

end Loop

namespace Graph

variable {ν ε : Type}

def backEdges (g : Graph ν ε) (root : Nat) : Outcome (List (Nat × Nat)) := do
  let d ← g.dominators root
  let reachable ← g.reachable root
  return g.edges.keys.filter fun e => reachable.contains e.1 && d.dominates e.2 e.1

def loopNodes (g : Graph ν ε) (reachable : List Nat) (header : Nat) (latches : List Nat) : KeySet Nat :=
  let entering := fun v => (g.predecessorsOf v).filter reachable.contains
  let found := latches.foldl (Search.visit entering (g.predecessors.size + 2)) ⟨[header], []⟩
  KeySet.ofKeys found.seen

def naturalLoops (g : Graph ν ε) (root : Nat) : Outcome (List Loop) := do
  let reachable ← g.reachable root
  let back ← g.backEdges root
  let headers := (KeySet.ofKeys (back.map (·.2))).keys
  return headers.map fun h => ⟨h, g.loopNodes reachable h ((back.filter (·.2 == h)).map (·.1))⟩

def loopTree (g : Graph ν ε) (root : Nat) : Outcome LoopTree := do
  let loops ← g.naturalLoops root
  let tree ← loops.foldlM (fun t l => t.insertVertex l) Graph.empty
  loops.foldlM (fun t inner =>
    match Loop.smallest? (loops.filter (·.isNesting inner)) with
    | some parent => t.insertEdge ⟨parent.header, inner.header⟩
    | none => pure t) tree

end Graph

end RegionGuard

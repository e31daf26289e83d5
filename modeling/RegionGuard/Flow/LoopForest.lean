import RegionGuard.Flow.DefUse
import RegionGuard.Graph.Dominators
set_option autoImplicit false

namespace RegionGuard

structure NaturalLoop where
  header : Nat
  blocks : KeySet Nat
  preheader : Option Nat
  latches : List Nat
  exiting : List Nat
  parent : Option Nat
  depth : Nat
deriving DecidableEq

structure LoopForest where
  loops : Table Nat NaturalLoop

namespace NaturalLoop

def contains (l : NaturalLoop) (block : Nat) : Bool := l.blocks.contains block

/-- The block from which alone control enters a loop, if it goes nowhere else. -/
def preheaderOf (c : FlowGraph) (header : Nat) (outside : List Nat) : Outcome (Option Nat) :=
  match outside with
  | [single] => do
    let successors ← c.successors single
    return if successors = [header] then some single else none
  | _ => pure none

def ofLoop (c : FlowGraph) (tree : LoopTree) (l : Loop) : Outcome NaturalLoop := do
  let (latches, outside) := (← c.predecessors l.header).partition l.contains
  let preheader ← preheaderOf c l.header outside
  let exiting ← l.nodes.keys.filterM fun b => do
    let successors ← c.successors b
    return successors.any fun t => !l.contains t
  let parents ← tree.predecessorIndices l.header
  return ⟨l.header, l.nodes, preheader, latches, exiting, parents.head?, 0⟩

end NaturalLoop

namespace LoopForest

def depthOf (loops : Table Nat NaturalLoop) : Nat → Option Nat → Nat
  | 0, _ => 0
  | _, none => 0
  | steps + 1, some header => depthOf loops steps ((loops.get? header).bind (·.parent)) + 1

def ofGraph (c : FlowGraph) : Outcome LoopForest := do
  let entry ← c.entryIndex
  let tree ← c.graph.loopTree entry
  let described ← tree.vertices.values.mapM (NaturalLoop.ofLoop c tree)
  let loops := Table.ofList (described.map fun l => (l.header, l))
  return ⟨loops.map fun header l => { l with depth := depthOf loops (loops.size + 1) (some header) }⟩

def toList (f : LoopForest) : List NaturalLoop := f.loops.values

def loop? (f : LoopForest) (header : Nat) : Option NaturalLoop := f.loops.get? header

def deepest? : List NaturalLoop → Option NaturalLoop
  | [] => none
  | l :: rest =>
    match deepest? rest with
    | some other => if l.depth ≤ other.depth then some other else some l
    | none => some l

def innermost? (f : LoopForest) (block : Nat) : Option NaturalLoop :=
  deepest? (f.toList.filter (·.contains block))

def outward (f : LoopForest) : Nat → Option NaturalLoop → List NaturalLoop
  | 0, _ => []
  | _, none => []
  | steps + 1, some l => l :: outward f steps (l.parent.bind f.loop?)

/-- The loops around a block, innermost first. -/
def nest (f : LoopForest) (block : Nat) : List NaturalLoop :=
  f.outward (f.loops.size + 1) (f.innermost? block)

end LoopForest

namespace NaturalLoop

/-- Whether a value is the same on every iteration: it is no variable, or is written outside. -/
def isInvariant (l : NaturalLoop) (d : DefUse) : Value → Bool
  | .variable v =>
    match d.definition? v with
    | some place => !l.contains place.block
    | none => false
  | _ => true

end NaturalLoop

end RegionGuard

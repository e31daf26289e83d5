import RegionGuard.IL.FlowGraph
set_option autoImplicit false

/-!
# Forward dataflow problems

A problem says how an instruction changes a state and how states meet. Its solution assigns a state to
both ends of every block and of every instruction; it is computed block by block from a queue, and the
states inside the blocks are filled in once nothing changes any more.
-/

namespace RegionGuard

structure DataflowProblem (σ : Type) where
  transfer : Location → Instruction → σ → Outcome σ
  join : σ → σ → Outcome σ
  boundary : σ
  top : σ
  /-- How often the state at the end of one block can change. -/
  height : Nat

/-- States keyed by block, and by block and instruction. -/
structure DataflowSolution (σ : Type) where
  blockIn : Table Nat σ
  blockOut : Table Nat σ
  stateIn : Table (Nat × Nat) σ
  stateOut : Table (Nat × Nat) σ

namespace DataflowSolution

variable {σ : Type}

def blockIn? (s : DataflowSolution σ) (block : Nat) : Option σ := s.blockIn.get? block

def blockOut? (s : DataflowSolution σ) (block : Nat) : Option σ := s.blockOut.get? block

def stateIn? (s : DataflowSolution σ) (l : Location) : Option σ := s.stateIn.get? (l.block, l.instruction)

def stateOut? (s : DataflowSolution σ) (l : Location) : Option σ :=
  s.stateOut.get? (l.block, l.instruction)

end DataflowSolution

namespace DataflowProblem

variable {σ : Type}

def throughBlock (p : DataflowProblem σ) (b : Block) (s : σ) : Outcome σ :=
  b.instructions.foldlM (fun s i => p.transfer ⟨b.index, i.index⟩ i s) s

def joinEnds (p : DataflowProblem σ) (ends : Table Nat σ) (blocks : List Nat) : Outcome (Option σ) :=
  blocks.foldlM (fun s? b => do
    let s' ← Failure.orStop (ends.get? b) .missingEntry
    match s? with
    | none => return some s'
    | some s => return some (← p.join s s')) none

/-- The state entering a block: the boundary at the entry and out of reach, elsewhere the join over the
reachable predecessors in increasing order. -/
def entering (p : DataflowProblem σ) (c : FlowGraph) (entry : Nat) (reachable : List Nat)
    (ends : Table Nat σ) (block : Nat) : Outcome σ :=
  if block = entry ∨ block ∉ reachable then pure p.boundary
  else do
    let predecessors ← c.predecessors block
    let s? ← p.joinEnds ends (predecessors.filter reachable.contains)
    return s?.getD p.boundary

/-- Recomputes the states at the ends of the queued blocks until the queue is empty. A block whose end
changes puts its successors back into the queue. -/
def iterate [DecidableEq σ] (p : DataflowProblem σ) (c : FlowGraph) (entry : Nat)
    (reachable : List Nat) : Nat → List Nat → Table Nat σ → Outcome (Table Nat σ)
  | _, [], ends => pure ends
  | 0, _ :: _, _ => Failure.stop .unbounded
  | visits + 1, block :: queue, ends => do
    let s ← p.entering c entry reachable ends block
    let b ← c.block block
    let s' ← p.throughBlock b s
    if ends.get? block = some s' then iterate p c entry reachable visits queue ends
    else
      let successors ← c.successors block
      let woken := successors.filter fun t => reachable.contains t && !queue.contains t
      iterate p c entry reachable visits (queue ++ woken) (ends.insert block s')

/-- Enough visits: every block is queued once at first, and once more for every change at the end of
every other block. -/
def visitBound (p : DataflowProblem σ) (blocks : Nat) : Nat := blocks + blocks * blocks * (p.height + 1)

def record (p : DataflowProblem σ) (solution : DataflowSolution σ) (b : Block) (s : σ) :
    Outcome (DataflowSolution σ) := do
  let (s', solution) ← b.instructions.foldlM (fun (s, solution) i => do
    let s' ← p.transfer ⟨b.index, i.index⟩ i s
    return (s', { solution with
      stateIn := solution.stateIn.insert (b.index, i.index) s
      stateOut := solution.stateOut.insert (b.index, i.index) s' }))
    (s, { solution with blockIn := solution.blockIn.insert b.index s })
  return { solution with blockOut := solution.blockOut.insert b.index s' }

def solve [DecidableEq σ] (p : DataflowProblem σ) (c : FlowGraph) : Outcome (DataflowSolution σ) := do
  let entry ← c.entryIndex
  let order ← c.graph.reversePostOrder entry
  let start := Table.ofList (c.blocks.map fun b => (b.index, p.top))
  let ends ← p.iterate c entry order (p.visitBound order.length) order start
  c.blocks.foldlM (fun solution b => do
    let s ← p.entering c entry order ends b.index
    p.record solution b s) ⟨∅, ∅, ∅, ∅⟩

end DataflowProblem

end RegionGuard

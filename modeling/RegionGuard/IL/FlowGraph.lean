import RegionGuard.Graph.Dominators
import RegionGuard.IL.Block
set_option autoImplicit false

namespace RegionGuard

/-- When a conditional edge is taken: on a nonzero value, or on zero. -/
inductive Condition where
  | isTrue (v : Value)
  | isFalse (v : Value)
deriving DecidableEq, Repr

namespace Condition

def value : Condition → Value
  | .isTrue v => v
  | .isFalse v => v

def whenTrue : Condition → Bool
  | .isTrue _ => true
  | .isFalse _ => false

def isSatisfiedBy (c : Condition) (w : Word) : Bool := (w != 0) == c.whenTrue

def text : Condition → String
  | .isTrue v => v.text
  | .isFalse v => "!" ++ v.text

end Condition

structure Edge where
  head : Nat
  tail : Nat
  condition : Option Condition
  comment : Option String
deriving DecidableEq, Repr

instance : Arc Edge := ⟨Edge.head, Edge.tail⟩

namespace Edge

def make (head tail : Nat) (condition : Option Condition) : Edge := ⟨head, tail, condition, none⟩

def text (e : Edge) : String :=
  (match e.comment with
    | some c => "// " ++ c ++ "\n"
    | none => "")
    ++ "(0x" ++ Hex.upper e.head ++ "->0x" ++ Hex.upper e.tail ++ ")"
    ++ (match e.condition with
      | some c => " ? (" ++ c.text ++ ")"
      | none => "")

end Edge

/-- Blocks and edges with an optional entry. `nextBlock` and `nextTemp` number what comes next. -/
structure FlowGraph where
  graph : Graph Block Edge
  nextBlock : Nat
  nextTemp : Nat
  entry : Option Nat
deriving DecidableEq

namespace FlowGraph

def empty : FlowGraph := ⟨.empty, 0, 0, none⟩

instance : Inhabited FlowGraph := ⟨empty⟩

def setEntry (c : FlowGraph) (entry : Nat) : Outcome FlowGraph :=
  if c.graph.hasVertex entry then pure { c with entry := some entry }
  else Failure.raise (.request .entryNotFound)

def entryIndex (c : FlowGraph) : Outcome Nat := Failure.orRaise c.entry .entryMissing

def block (c : FlowGraph) (index : Nat) : Outcome Block := c.graph.vertex index

def blocks (c : FlowGraph) : List Block := c.graph.vertices.values

def instruction (c : FlowGraph) (l : Location) : Outcome Instruction := do
  let b ← c.block l.block
  b.instruction l.instruction

def position (c : FlowGraph) (l : Location) : Outcome Nat := do
  let b ← c.block l.block
  Failure.orRaise (b.position? l.instruction) (.instructionNotFound l.block l.instruction)

def modifyBlock (c : FlowGraph) (index : Nat) (f : Block → Outcome Block) : Outcome FlowGraph := do
  let b ← c.block index
  let b' ← f b
  return { c with graph := c.graph.setVertex index b' }

def modifyInstruction (c : FlowGraph) (l : Location) (f : Instruction → Instruction) :
    Outcome FlowGraph :=
  c.modifyBlock l.block fun b => b.modify l.instruction f

def successors (c : FlowGraph) (index : Nat) : Outcome (List Nat) := c.graph.successorIndices index

def predecessors (c : FlowGraph) (index : Nat) : Outcome (List Nat) := c.graph.predecessorIndices index

def temp (c : FlowGraph) (ty : Ty) : Outcome (Variable × FlowGraph) := do
  let next ← Failure.successor c.nextTemp
  return (⟨s!"carat.temp_{c.nextTemp}", ty⟩, { c with nextTemp := next })

/-- Adds an empty block and gives its index. -/
def newBlock (c : FlowGraph) : Outcome (Nat × FlowGraph) := do
  let next ← Failure.successor c.nextBlock
  let g ← c.graph.insertVertex (.make c.nextBlock)
  return (c.nextBlock, { c with graph := g, nextBlock := next })

def insertEdge (c : FlowGraph) (head tail : Nat) (condition : Option Condition) :
    Outcome FlowGraph := do
  let g ← c.graph.insertEdge (.make head tail condition)
  return { c with graph := g }

def removeEdge (c : FlowGraph) (head tail : Nat) : Outcome (Edge × FlowGraph) := do
  let (e, g) ← c.graph.removeEdge head tail
  return (e, { c with graph := g })

/-- Makes an edge arrive elsewhere, keeping its condition. When the new edge is refused, the old one is
gone already. -/
def redirectEdge (c : FlowGraph) (head oldTail newTail : Nat) : Outcome Unit × FlowGraph :=
  match c.graph.removeEdge head oldTail with
  | .error f => (.error f, c)
  | .ok (e, g) =>
    match g.insertEdge { e with head := head, tail := newTail } with
    | .error f => (.error f, { c with graph := g })
    | .ok g' => (.ok (), { c with graph := g' })

def dominators (c : FlowGraph) : Outcome Dominators := do
  let entry ← c.entryIndex
  c.graph.dominators entry

structure Draft where
  operation : Operation
  comment : Option String
  tags : List (String × String)

def appendDraft (index : Nat) (c : FlowGraph) (d : Draft) : Outcome FlowGraph :=
  c.modifyBlock index fun b => b.insertWith b.instructions.length fun i =>
    { Instruction.make i d.operation with comment := d.comment }.setTags d.tags

def build (blocks : List (List Draft)) (edges : List (Nat × Nat × Option Condition))
    (entry : Option Nat) : Outcome FlowGraph := do
  let c ← blocks.foldlM (fun c drafts => do
    let (index, c) ← c.newBlock
    drafts.foldlM (appendDraft index) c) empty
  let c ← edges.foldlM (fun c e => c.insertEdge e.1 e.2.1 e.2.2) c
  match entry with
  | some e => c.setEntry e
  | none => pure c

def text (c : FlowGraph) : String :=
  String.join (c.blocks.map fun b => b.text ++ "\n")
    ++ String.join (c.graph.edges.values.map fun e => "edge " ++ e.text ++ "\n")

end FlowGraph

abbrev Edit (α : Type) := StateT FlowGraph (Except Failure) α

namespace Edit

/-- Runs a step that answers with the changed graph. -/
def step (f : FlowGraph → Outcome FlowGraph) : Edit Unit := do
  let c ← get
  set (← f c)

def eval {α : Type} (f : FlowGraph → Outcome (α × FlowGraph)) : Edit α := do
  let (a, c) ← f (← get)
  set c
  return a

def ask {α : Type} (f : FlowGraph → Outcome α) : Edit α := do
  f (← get)

end Edit

end RegionGuard

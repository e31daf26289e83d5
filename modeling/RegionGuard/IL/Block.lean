import RegionGuard.Failure
import RegionGuard.Graph.Basic
import RegionGuard.IL.Operation
set_option autoImplicit false

/-!
# Instructions and blocks

A block numbers its instructions as it receives them and never gives a number out twice, so a number
keeps naming the same instruction wherever others are inserted. In a block that was read from a text a
number may occur twice; it names the first of its instructions then.
-/

namespace RegionGuard

/-- An operation with its number in the block, a comment and tags. -/
structure Instruction where
  operation : Operation
  index : Nat
  comment : Option String
  metadata : Table String String
deriving DecidableEq

namespace Instruction

def make (index : Nat) (operation : Operation) : Instruction := ⟨operation, index, none, ∅⟩

def tag? (i : Instruction) (key : String) : Option String := i.metadata.get? key

def hasTag (i : Instruction) (key : String) : Bool := i.metadata.contains key

def setTag (i : Instruction) (key value : String) : Instruction :=
  { i with metadata := i.metadata.insert key value }

def setTags (i : Instruction) (tags : List (String × String)) : Instruction :=
  tags.foldl (fun i t => i.setTag t.1 t.2) i

def text (i : Instruction) : String :=
  let tags := i.metadata.entries.map fun e => e.1 ++ "=" ++ e.2
  Hex.upperPair i.index ++ " " ++ i.operation.text
    ++ (if tags.isEmpty then "" else " !\x7b" ++ ", ".intercalate tags ++ "\x7d")
    ++ (match i.comment with
      | some c => " // " ++ c
      | none => "")

end Instruction

/-- A basic block. `nextIndex` is the number of the next instruction. -/
structure Block where
  index : Nat
  nextIndex : Nat
  instructions : List Instruction
deriving DecidableEq

instance : Vertex Block := ⟨Block.index⟩

namespace Block

def make (index : Nat) : Block := ⟨index, 0, []⟩

/-- Where the instruction of the given number stands. -/
def position? (b : Block) (index : Nat) : Option Nat := b.instructions.findIdx? (·.index == index)

def find? (b : Block) (index : Nat) : Option Instruction := b.instructions.find? (·.index == index)

def instruction (b : Block) (index : Nat) : Outcome Instruction :=
  Failure.orRaise (b.find? index) (.instructionNotFound b.index index)

def position (b : Block) (index : Nat) : Outcome Nat :=
  Failure.orRaise (b.position? index) (.instructionNotFound b.index index)

def insertWith (b : Block) (position : Nat) (make : Nat → Instruction) : Outcome Block := do
  if b.instructions.length < position then
    Failure.raise (.request (.positionOutOfBounds position b.index))
  let next ← Failure.successor b.nextIndex
  return { b with
    nextIndex := next
    instructions := b.instructions.insertIdx position (make b.nextIndex) }

def insertOperation (b : Block) (position : Nat) (o : Operation) : Outcome Block :=
  b.insertWith position (.make · o)

def append (b : Block) (o : Operation) : Outcome Block := b.insertOperation b.instructions.length o

def insertBefore (b : Block) (index : Nat) (o : Operation) : Outcome Block := do
  let position ← b.position index
  b.insertOperation position o

def insertAfter (b : Block) (index : Nat) (o : Operation) : Outcome Block := do
  let position ← b.position index
  b.insertOperation (position + 1) o

def remove (b : Block) (index : Nat) : Outcome (Instruction × Block) := do
  let position ← b.position index
  let removed ← b.instruction index
  return (removed, { b with instructions := b.instructions.eraseIdx position })

def modify (b : Block) (index : Nat) (f : Instruction → Instruction) : Outcome Block := do
  let position ← b.position index
  return { b with instructions := b.instructions.modify position f }

/-- Where code has to go in order to run last: before a closing return, else at the end. -/
def terminatorPosition (b : Block) : Nat :=
  match b.instructions.getLast? with
  | some i => if i.operation.isReturn then b.instructions.length - 1 else b.instructions.length
  | none => 0

def firstNonPhi (b : Block) : Nat := (b.instructions.takeWhile (·.operation.isPhi)).length

def text (b : Block) : String :=
  "[ Block: 0x" ++ Hex.upper b.index ++ " ]\n"
    ++ String.join (b.instructions.map fun i => i.text ++ "\n")

end Block

end RegionGuard

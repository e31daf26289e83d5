import RegionGuard.Configuration
import RegionGuard.IL.Program
set_option autoImplicit false

namespace RegionGuard

namespace Tag

def injected : String := "carat.injected"

def tracked : String := "carat.tracked"

/-- On accesses that are decided, with the rule. -/
def guarded : String := "carat.guarded"

def rule : String := "carat.rule"

end Tag

namespace Instruction

def isInjected (i : Instruction) : Bool := i.hasTag Tag.injected

end Instruction

namespace Block

def inject (b : Block) (position : Nat) (tags : List (String × String)) :
    List Operation → Outcome Block
  | [] => pure b
  | o :: rest => do
    let inserted ← b.insertWith position fun i => (Instruction.make i o).setTags tags
    inserted.inject (position + 1) tags rest

def positionAfter (b : Block) (index : Nat) : Outcome Nat := do
  let position ← b.position index
  let following := b.instructions.drop (position + 1)
  return position + 1 + (following.takeWhile Instruction.isInjected).length

end Block

abbrev Drafting (α : Type) := StateT (List Operation) (StateT FlowGraph (Except Failure)) α

namespace Drafting

def perform (o : Operation) : Drafting Unit := modify (· ++ [o])

def compute (ty : Ty) (operation : Variable → Operation) : Drafting Value := do
  let dst ← (StateT.lift (Edit.eval (·.temp ty)) : Drafting Variable)
  perform (operation dst)
  return .variable dst

def collect {α : Type} (x : Drafting α) : Edit (α × List Operation) := StateT.run x []

end Drafting

namespace Hooks

def signatures (h : Hooks) : List (String × List (String × Ty)) :=
  let word := Ty.integer 64
  [(h.notifyMalloc, [("ptr", .pointer), ("size", word)]),
    (h.notifyCalloc, [("ptr", .pointer), ("size", word), ("nmemb", word)]),
    (h.notifyRealloc, [("ptr", .pointer), ("size", word), ("old", .pointer)]),
    (h.notifyFree, [("ptr", .pointer)]),
    (h.notifyGlobal, [("ptr", .pointer), ("size", word), ("id", word)]),
    (h.notifyEscape, [("dest", .pointer)]),
    (h.guardAddress, [("address", word), ("is_write", .integer 32)]),
    (h.guardCalleeStack, [("frame_size", word)]),
    (h.pinPointer, [("ptr", .pointer)])]

end Hooks

namespace Program

def declareIfMissing (p : Program) (name : String) (arguments : List (String × Ty)) : Program :=
  match p.function? name with
  | some _ => p
  | none =>
    p.addFunction
      (.declaration name (arguments.mapIdx fun i a => ⟨i, a.1, a.2⟩) .void)

/-- Declares the entry points that injected code calls. -/
def declareHooks (p : Program) (h : Hooks) : Program :=
  h.signatures.foldl (fun p s => p.declareIfMissing s.1 s.2) p

end Program

def Configuration.instruments (c : Configuration) (f : Function) : Bool :=
  !f.isDeclaration && c.shouldInstrument f.name

end RegionGuard

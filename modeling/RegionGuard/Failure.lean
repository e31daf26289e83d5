import RegionGuard.Access
import RegionGuard.IL.Value
set_option autoImplicit false

/-!
# Failures

An `Error` is a cause that a caller may handle. A `Fatal` is a stop that no caller handles: a word that
overflows, an index that is missing where the data promise it, or a protection change that takes back a
permission already relied on.
-/

namespace RegionGuard

inductive AnalysisError where
  | duplicateDefinition (v : Variable) (function : String)
  | stopped (location : Location)
deriving DecidableEq, Repr

inductive RequestError where
  | duplicateVertex
  | duplicateEdge
  | entryNotFound
  | positionOutOfBounds (position block : Nat)
  | nameTaken (name : String)
  | unknownHandle (handle : Nat)
  | threadPresent (thread : Word) (space : String)
  | threadAbsent (thread : Word) (space : String)
  | usage
deriving DecidableEq, Repr

inductive ExecutionError where
  | undefinedVariable (v : Variable)
  | missingArgument (argument : Argument)
  | noAddress (value : Value)
  | callDepth (function : String)
  | noPredecessor (dst : Variable)
  | noIncoming (dst : Variable) (block : Nat)
  | stuck (block : Nat)
  | stackOverflow (dst : Variable)
  | notScalar (ty : Ty)
  | strayPhi (dst : Variable)
  | notFunction (address : Word)
  | expectsArgument (function : String) (index : Nat)
  | shiftTooFar (bits : Nat) (amount : Word)
  | divisionByZero
  | noField (ty : Ty) (field : Nat)
  | notIndexable (ty : Ty)
deriving DecidableEq, Repr

inductive InstrumentationError where
  | missingArgument (location : Location) (index : Nat)
  | initializerNotFound (function : String)
  | misplacedRange (location : Location)
deriving DecidableEq, Repr

inductive RegionError where
  | notIdentityMapped (start physical : Word)
  | zeroLength (start : Word)
  | wraps (start : Word)
  | lengthMismatch (length wanted : Word)
  | resizeToZero (start : Word)
  | shrinks (start size : Word)
  | allocationOverflow (count size : Word)
  | noStack
deriving DecidableEq, Repr

inductive MemoryShortage where
  | eviction (start : Word)
  | growth (start size : Word)
  | partialGrowth (granted size : Word)
  | block (size : Word)
deriving DecidableEq, Repr

inductive Defect where
  | noEntry
  | duplicateDefinition (v : Variable) (function : String)
  | phiAfterNonPhi (location : Location)
  | phiNotPredecessor (location : Location) (block : Nat)
  | undefined (v : Variable) (location : Location)
  | doesNotReachPhi (v : Variable) (location : Location)
  | returnInside (location : Location)
  | unknownCallee (location : Location) (function : String)
  | doesNotDominate (v : Variable) (location : Location)
  | notAnArgument (argument : Argument) (location : Location)
  | unknownGlobal (name : String) (location : Location)
deriving DecidableEq, Repr

/-- A failure that a caller may handle. -/
inductive Error where
  | analysis (cause : AnalysisError)
  | entryMissing
  | request (cause : RequestError)
  | execution (cause : ExecutionError)
  | stepLimit (limit : Word)
  | bodyMissing (function : String)
  | functionNotFound (function : String)
  | edgeNotFound (head tail : Nat)
  | vertexNotFound (vertex : Nat)
  | violation (address : Word) (access : Access)
  | instructionNotFound (block instruction : Nat)
  | instrumentation (cause : InstrumentationError)
  | invalidRegion (cause : RegionError)
  | unreadable
  | malformed
  | memoryFault (address : Word)
  | outOfMemory (cause : MemoryShortage)
  | collision (start neighbor : Word)
  | regionNotFound (start : Word)
  | regionOverlap (start : Word)
  | regionPinned (start : Word)
  | unexpectedFault (space : String) (fault : Fault)
  | verification (function : String) (defect : Defect)
deriving DecidableEq, Repr

/-- A stop that no caller handles. -/
inductive Fatal where
  | overflow
  | missingEntry
  /-- A division whose divisor reads as zero although its word is not. -/
  | zeroDivisor
  | capacity
  | unbounded
  /-- A new protection lacks permissions that validated accesses rely on; the texts show both. -/
  | latchedPermission (protection : String) (start : Word) (requested : String)
deriving DecidableEq, Repr

inductive Failure where
  | error (e : Error)
  | fatal (f : Fatal)
deriving DecidableEq, Repr

abbrev Outcome (α : Type) := Except Failure α

/-- A computation whose changes to the state stand even when it fails. -/
abbrev Stateful (σ α : Type) := ExceptT Failure (StateM σ) α

def Word.hex (w : Word) : String := "0x" ++ Hex.lower w.toNat

def AnalysisError.message : AnalysisError → String
  | .duplicateDefinition v f => v.text ++ " is defined more than once in " ++ f
  | .stopped l => "stopped at " ++ l.text

def RequestError.message : RequestError → String
  | .duplicateVertex => "duplicate vertex index"
  | .duplicateEdge => "duplicate edge"
  | .entryNotFound => "Index does not exist for set_entry"
  | .positionOutOfBounds p b => s!"Position {p} is out of bounds for block 0x" ++ Hex.upper b
  | .nameTaken name => "address space " ++ name ++ " already registered"
  | .unknownHandle h => s!"no address space AspaceHandle({h})"
  | .threadPresent t space => s!"thread {t.toNat} already in address space " ++ space
  | .threadAbsent t space => s!"thread {t.toNat} not in address space " ++ space
  | .usage => "usage: carat <module.json> [config.json]"

def ExecutionError.message : ExecutionError → String
  | .undefinedVariable v => v.text ++ " used before it is defined"
  | .missingArgument a => "missing argument " ++ a.text
  | .noAddress v => v.text ++ " has no address"
  | .callDepth f => "call depth exceeded calling " ++ f
  | .noPredecessor d => d.text ++ " reached without a predecessor"
  | .noIncoming d b => d.text ++ " has no value from block 0x" ++ Hex.lower b
  | .stuck b => "no edge out of block 0x" ++ Hex.lower b ++ " can be taken"
  | .stackOverflow d => "stack overflow allocating " ++ d.text
  | .notScalar t => t.text ++ " is not a scalar type"
  | .strayPhi d => d.text ++ " is not at the start of its block"
  | .notFunction a => "call to " ++ Word.hex a ++ ", not a function"
  | .expectsArgument f i => f ++ s!" expects argument {i}"
  | .shiftTooFar bits amount => s!"shift of {bits} bits by {amount.toNat} bits"
  | .divisionByZero => "Division by zero"
  | .noField t f => t.text ++ s!" has no field {f}"
  | .notIndexable t => "cannot index into " ++ t.text

def InstrumentationError.message : InstrumentationError → String
  | .missingArgument l i => "allocator call at " ++ l.text ++ s!" is missing argument {i}"
  | .initializerNotFound f => "global initialization function " ++ f ++ " not found"
  | .misplacedRange l =>
    "range guard placed at Before(FunctionLocation \x7b "
      ++ s!"block: {l.block}, instruction: {l.instruction}" ++ " \x7d)"

def RegionError.message : RegionError → String
  | .notIdentityMapped s p => Word.hex s ++ " is mapped to " ++ Word.hex p
  | .zeroLength s => Word.hex s ++ " has zero length"
  | .wraps s => Word.hex s ++ " wraps the address space"
  | .lengthMismatch l w =>
    "moving " ++ Word.hex l ++ " bytes to a region of " ++ Word.hex w ++ " bytes"
  | .resizeToZero s => "resizing " ++ Word.hex s ++ " to zero length"
  | .shrinks s n => "defragmenting " ++ Word.hex s ++ " would shrink it to " ++ Word.hex n ++ " bytes"
  | .allocationOverflow c n =>
    s!"calloc of {c.toNat} elements of " ++ Word.hex n ++ " bytes"
  | .noStack => "address space has no stack"

def MemoryShortage.message : MemoryShortage → String
  | .eviction s => "no room to evict region " ++ Word.hex s
  | .growth s n => "host cannot grow " ++ Word.hex s ++ " to " ++ Word.hex n ++ " bytes"
  | .partialGrowth g n => "host granted " ++ Word.hex g ++ " of " ++ Word.hex n ++ " bytes"
  | .block n => "no block of " ++ Word.hex n ++ " bytes"

def Defect.message : Defect → String
  | .noEntry => "control flow graph has no entry block"
  | .duplicateDefinition v f =>
    "An error in the analysis: " ++ (AnalysisError.duplicateDefinition v f).message
  | .phiAfterNonPhi l => "phi at " ++ l.text ++ " follows non-phi"
  | .phiNotPredecessor l b =>
    "phi at " ++ l.text ++ " names 0x" ++ Hex.upper b ++ ", which is not a predecessor"
  | .undefined v l => v.text ++ " used at " ++ l.text ++ " is undefined"
  | .doesNotReachPhi v l => v.text ++ " does not reach the phi at " ++ l.text
  | .returnInside l => "return at " ++ l.text ++ " does not end the function"
  | .unknownCallee l f => "call at " ++ l.text ++ " to unknown function " ++ f
  | .doesNotDominate v l => v.text ++ " does not dominate its use at " ++ l.text
  | .notAnArgument a l => a.text ++ " at " ++ l.text ++ " is not an argument"
  | .unknownGlobal g l => "unknown global @" ++ g ++ " at " ++ l.text

/-- The text of an error. Files that cannot be read or parsed are reported without their detail. -/
def Error.message : Error → String
  | .analysis c => "An error in the analysis: " ++ c.message
  | .entryMissing => "Control flow graph has no entry block"
  | .request c => "Custom error: " ++ c.message
  | .execution c => "Executor error: " ++ c.message
  | .stepLimit n => s!"Executor exceeded the limit of {n.toNat} steps"
  | .bodyMissing f => "Function \x60" ++ f ++ "\x60 has no body"
  | .functionNotFound f => "Function \x60" ++ f ++ "\x60 not found"
  | .edgeNotFound h t => s!"Unable to find edge {h} -> {t}"
  | .vertexNotFound v => s!"Vertex {v} not found"
  | .violation a k => "Guard violation: " ++ k.text ++ " of " ++ Word.hex a
  | .instructionNotFound b i => s!"Instruction {i} not found in block {b}"
  | .instrumentation c => "Instrumentation failed: " ++ c.message
  | .invalidRegion c => "Invalid region: " ++ c.message
  | .unreadable => "IO error"
  | .malformed => "Json error"
  | .memoryFault a => "Memory fault at " ++ Word.hex a
  | .outOfMemory c => "Out of memory: " ++ c.message
  | .collision s n => "Growing region " ++ Word.hex s ++ " collides with region " ++ Word.hex n
  | .regionNotFound s => "Region " ++ Word.hex s ++ " not found"
  | .regionOverlap s => "Region " ++ Word.hex s ++ " overlaps a tracked region"
  | .regionPinned s => "Region " ++ Word.hex s ++ " is pinned"
  | .unexpectedFault space f =>
    "Unexpected exception in address space \x60" ++ space ++ "\x60: " ++ f.text
  | .verification f d => "Verification of \x60" ++ f ++ "\x60 failed: " ++ d.message

def Error.kind : Error → String
  | .analysis _ => "Analysis"
  | .entryMissing => "ControlFlowGraphEntryNotFound"
  | .request _ => "Custom"
  | .execution _ => "Executor"
  | .stepLimit _ => "ExecutorStepLimit"
  | .bodyMissing _ => "FunctionHasNoBody"
  | .functionNotFound _ => "FunctionNotFound"
  | .edgeNotFound _ _ => "GraphEdgeNotFound"
  | .vertexNotFound _ => "GraphVertexNotFound"
  | .violation _ _ => "GuardViolation"
  | .instructionNotFound _ _ => "InstructionNotFound"
  | .instrumentation _ => "Instrumentation"
  | .invalidRegion _ => "InvalidRegion"
  | .unreadable => "Io"
  | .malformed => "Json"
  | .memoryFault _ => "MemoryFault"
  | .outOfMemory _ => "OutOfMemory"
  | .collision _ _ => "RegionCollision"
  | .regionNotFound _ => "RegionNotFound"
  | .regionOverlap _ => "RegionOverlap"
  | .regionPinned _ => "RegionPinned"
  | .unexpectedFault _ _ => "UnexpectedException"
  | .verification _ _ => "Verification"

def Fatal.message? : Fatal → Option String
  | .latchedPermission p s r =>
    some ("protection " ++ p ++ " of region " ++ Word.hex s ++ " drops latched permissions " ++ r)
  | _ => none

namespace Failure

def raise {α : Type} {m : Type → Type} [MonadExceptOf Failure m] (e : Error) : m α :=
  throw (.error e)

def stop {α : Type} {m : Type → Type} [MonadExceptOf Failure m] (f : Fatal) : m α :=
  throw (.fatal f)

def orRaise {α : Type} {m : Type → Type} [Monad m] [MonadExceptOf Failure m] (x : Option α)
    (e : Error) : m α :=
  match x with
  | some a => pure a
  | none => raise e

def orStop {α : Type} {m : Type → Type} [Monad m] [MonadExceptOf Failure m] (x : Option α)
    (f : Fatal) : m α :=
  match x with
  | some a => pure a
  | none => stop f

def successor {m : Type → Type} [Monad m] [MonadExceptOf Failure m] (n : Nat) : m Nat :=
  if n + 1 < Word.modulus then pure (n + 1) else stop .overflow

end Failure

end RegionGuard

import RegionGuard.IL.Program
set_option autoImplicit false

namespace RegionGuard

/-- Where the variables of a function are written and read, in the order of the instructions. -/
structure DefUse where
  function : Function
  definitions : List (Variable × Location)
  reads : List (Variable × Location)

namespace DefUse

def define (function : String) (definitions : List (Variable × Location)) (v : Variable)
    (l : Location) : Outcome (List (Variable × Location)) :=
  if definitions.any (·.1 = v) then Failure.raise (.analysis (.duplicateDefinition v function))
  else pure (definitions ++ [(v, l)])

def ofFunction (f : Function) : Outcome DefUse := do
  let _ ← f.flowGraph
  let definitions ← f.located.foldlM (fun ds (l, i) =>
    match i.operation.written? with
    | some v => define f.name ds v l
    | none => pure ds) []
  return ⟨f, definitions, f.located.flatMap fun (l, i) => i.operation.variablesRead.map fun v => (v, l)⟩

def definition? (d : DefUse) (v : Variable) : Option Location := d.definitions.lookup v

def definingInstruction? (d : DefUse) (v : Variable) : Option Instruction := do
  let l ← d.definition? v
  d.function.instruction? l

def definingOperation? (d : DefUse) (v : Value) : Option Operation := do
  let written ← v.asVariable?
  let i ← d.definingInstruction? written
  return i.operation

def uses (d : DefUse) (v : Variable) : List Location := (d.reads.filter (·.1 = v)).map (·.2)

end DefUse

end RegionGuard

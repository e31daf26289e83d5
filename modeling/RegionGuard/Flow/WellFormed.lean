import RegionGuard.Flow.DefUse
set_option autoImplicit false

/-!
# Well-formed functions

A function is well formed when it has an entry, its phis come first in their blocks and name
predecessors only, its returns end it, its calls, globals and arguments exist, and every use of a
variable is dominated by its one definition.
-/

namespace RegionGuard

namespace WellFormed

structure Context where
  program : Program
  function : Function
  graph : FlowGraph
  defUse : DefUse
  dominators : Dominators
  reachable : List Nat

namespace Context

def refuse {α : Type} (x : Context) (d : Defect) : Outcome α :=
  Failure.raise (.verification x.function.name d)

def isAvailable (x : Context) (definition : Location) (block position : Nat) : Bool :=
  if !x.reachable.contains block then true
  else if definition.block != block then x.dominators.dominates definition.block block
  else
    match (x.graph.block block).toOption.bind (·.position? definition.instruction) with
    | some p => p < position
    | none => false

def definition (x : Context) (v : Variable) (l : Location) : Outcome Location :=
  match x.defUse.definition? v with
  | some place => pure place
  | none => x.refuse (.undefined v l)

def checkIncoming (x : Context) (predecessors : List Nat) (l : Location) (v : Value) (block : Nat) :
    Outcome Unit := do
  unless predecessors.contains block do x.refuse (.phiNotPredecessor l block)
  match v with
  | .variable v =>
    let place ← x.definition v l
    let b ← x.graph.block block
    unless x.isAvailable place block b.instructions.length do x.refuse (.doesNotReachPhi v l)
  | _ => pure ()

def checkRead (x : Context) (l : Location) (position : Nat) (v : Value) : Outcome Unit :=
  match v with
  | .variable v => do
    let place ← x.definition v l
    unless x.isAvailable place l.block position do x.refuse (.doesNotDominate v l)
  | .argument a =>
    if x.function.arguments[a.index]? = some a then pure () else x.refuse (.notAnArgument a l)
  | .global name => if (x.program.global? name).isSome then pure () else x.refuse (.unknownGlobal name l)
  | _ => pure ()

/-- What an operation other than a phi promises beyond its operands; `isLast` when it ends a block
without successors. -/
def checkOperation (x : Context) (l : Location) (isLast : Bool) (o : Operation) : Outcome Unit :=
  match o with
  | .ret _ => if isLast then pure () else x.refuse (.returnInside l)
  | .call _ (.direct callee) _ =>
    if (x.program.function? callee).isSome then pure () else x.refuse (.unknownCallee l callee)
  | _ => pure ()

def checkFrom (x : Context) (b : Block) (predecessors successors : List Nat) :
    Nat → Bool → List Instruction → Outcome Unit
  | _, _, [] => pure ()
  | position, afterOther, i :: rest => do
    let l : Location := ⟨b.index, i.index⟩
    match i.operation with
    | .phi _ incoming =>
      if afterOther then x.refuse (.phiAfterNonPhi l)
      for (v, block) in incoming do x.checkIncoming predecessors l v block
      checkFrom x b predecessors successors (position + 1) afterOther rest
    | o =>
      x.checkOperation l (rest.isEmpty && successors.isEmpty) o
      for v in o.reads do x.checkRead l position v
      checkFrom x b predecessors successors (position + 1) true rest

def checkBlock (x : Context) (b : Block) : Outcome Unit := do
  let predecessors ← x.graph.predecessors b.index
  let successors ← x.graph.successors b.index
  x.checkFrom b predecessors successors 0 false b.instructions

end Context

def definitions (f : Function) : Outcome DefUse :=
  match DefUse.ofFunction f with
  | .error (.error (.analysis (.duplicateDefinition v name))) =>
    Failure.raise (.verification f.name (.duplicateDefinition v name))
  | o => o

end WellFormed

namespace Program

open WellFormed

/-- Fails unless a function of the program is well formed. -/
def verifyFunction (p : Program) (f : Function) : Outcome Unit := do
  let c ← f.flowGraph
  let entry ← Failure.orRaise c.entry (.verification f.name .noEntry)
  let d ← definitions f
  let dominators ← c.dominators
  let reachable ← c.graph.reachable entry
  let x : Context := ⟨p, f, c, d, dominators, reachable⟩
  c.blocks.forM x.checkBlock

/-- Fails unless every function with a body is well formed. -/
def verify (p : Program) : Outcome Unit :=
  p.functions.values.forM fun f => if f.isDeclaration then pure () else p.verifyFunction f

end Program

end RegionGuard

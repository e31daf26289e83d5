import RegionGuard.Flow.LoopForest
set_option autoImplicit false

namespace RegionGuard

namespace Preheader

def agree : List (Value × Nat) → Option Value
  | [] => none
  | (v, _) :: rest => if rest.all (·.1 = v) then some v else none

def redirect (head oldTail newTail : Nat) : Edit Unit :=
  Edit.step fun c =>
    let (o, c') := c.redirectEdge head oldTail newTail
    o.map fun _ => c'

def merge (preheader : Nat) (dst : Variable) (arriving : List (Value × Nat)) : Edit Value :=
  match agree arriving with
  | some v => pure v
  | none => do
    let temp ← Edit.eval (·.temp dst.ty)
    Edit.step (·.modifyBlock preheader fun b => b.insertOperation b.firstNonPhi (.phi temp arriving))
    return .variable temp

def setIncoming (incoming : List (Value × Nat)) (i : Instruction) : Instruction :=
  match i.operation with
  | .phi dst _ => { i with operation := .phi dst incoming }
  | _ => i

def reroute (header preheader : Nat) (outside : List Nat) (i : Instruction) : Edit Unit :=
  match i.operation with
  | .phi dst incoming =>
    let (arriving, staying) := incoming.partition fun e => outside.contains e.2
    if arriving.isEmpty then pure ()
    else do
      let merged ← merge preheader dst arriving
      Edit.step (·.modifyInstruction ⟨header, i.index⟩ (setIncoming (staying ++ [(merged, preheader)])))
  | _ => pure ()

/-- Puts a new block between a header and the blocks outside that branch to it. -/
def insert (header : Nat) (outside : List Nat) : Edit Unit := do
  let preheader ← Edit.eval FlowGraph.newBlock
  for head in outside do redirect head header preheader
  Edit.step (·.insertEdge preheader header none)
  let b ← Edit.ask (·.block header)
  for i in b.instructions do reroute header preheader outside i

/-- Inserts preheaders one by one, each time in front of the first loop that lacks one. A loop that
nothing enters from outside is skipped. -/
def insertAll : Nat → List Nat → Edit Nat
  | 0, _ => Failure.stop .unbounded
  | rounds + 1, skipped => do
    let forest ← Edit.ask LoopForest.ofGraph
    match forest.toList.find? fun l => l.preheader.isNone && !skipped.contains l.header with
    | none => return 0
    | some l =>
      let predecessors ← Edit.ask (·.predecessors l.header)
      let outside := predecessors.filter fun b => !l.contains b
      if outside.isEmpty then insertAll rounds (l.header :: skipped)
      else
        insert l.header outside
        let further ← insertAll rounds skipped
        return further + 1

/-- Inserts every missing preheader and answers how many there were. Each round settles one header. -/
def simplify : Edit Nat := do
  let c ← get
  insertAll (c.blocks.length + 1) []

end Preheader

def Function.simplifyLoops (f : Function) : Outcome (Nat × Function) := f.edit Preheader.simplify

end RegionGuard

import RegionGuard.IL.FlowGraph
set_option autoImplicit false

namespace RegionGuard

inductive Linkage where
  | external
  | weak
  | internal
  | hidden
deriving DecidableEq, Repr

namespace Linkage

def isExternallyVisible : Linkage → Bool
  | .external | .weak => true
  | .internal | .hidden => false

def text : Linkage → String
  | .external => "External"
  | .weak => "Weak"
  | .internal => "Internal"
  | .hidden => "Private"

end Linkage

structure Function where
  name : String
  arguments : List Argument
  returnType : Ty
  linkage : Linkage
  body : Option FlowGraph
deriving DecidableEq

namespace Function

def declaration (name : String) (arguments : List Argument) (returnType : Ty) : Function :=
  ⟨name, arguments, returnType, .external, none⟩

def isDeclaration (f : Function) : Bool := f.body.isNone

def flowGraph (f : Function) : Outcome FlowGraph := Failure.orRaise f.body (.bodyMissing f.name)

/-- The blocks in order; none for a declaration. -/
def blocks (f : Function) : List Block := (f.body.map FlowGraph.blocks).getD []

def block? (f : Function) (index : Nat) : Option Block := do
  let c ← f.body
  (c.block index).toOption

def instruction? (f : Function) (l : Location) : Option Instruction := do
  let c ← f.body
  (c.instruction l).toOption

def located (f : Function) : List (Location × Instruction) :=
  f.blocks.flatMap fun b => b.instructions.map fun i => (⟨b.index, i.index⟩, i)

def mentionedVariables (f : Function) : List Variable :=
  let all := f.located.flatMap fun (_, i) => i.operation.written?.toList ++ i.operation.variablesRead
  all.eraseDups.mergeSort fun v w => compare v.text w.text != .gt

def edit {α : Type} (f : Function) (e : Edit α) : Outcome (α × Function) := do
  let c ← f.flowGraph
  let (a, c') ← e.run c
  return (a, { f with body := some c' })

def text (f : Function) : String :=
  "fn @" ++ f.name ++ "(" ++ ", ".intercalate (f.arguments.map Argument.text) ++ ") -> "
    ++ f.returnType.text
    ++ (match f.body with
      | some c => " \x7b\n" ++ c.text ++ "\x7d"
      | none => ";")

end Function

structure GlobalVariable where
  name : String
  ty : Ty
  linkage : Linkage
  isDefined : Bool
deriving DecidableEq, Repr

namespace GlobalVariable

def isDeclaration (g : GlobalVariable) : Bool := !g.isDefined

def size? (g : GlobalVariable) : Option Word := g.ty.size?

def text (g : GlobalVariable) : String :=
  "@" ++ g.name ++ ": " ++ g.ty.text ++ " (" ++ g.linkage.text ++ ")"
    ++ (if g.isDefined then "" else " extern")

end GlobalVariable

structure Program where
  functions : Table String Function
  globals : Table String GlobalVariable
deriving DecidableEq

namespace Program

def empty : Program := ⟨∅, ∅⟩

instance : Inhabited Program := ⟨empty⟩

def function? (p : Program) (name : String) : Option Function := p.functions.get? name

def function (p : Program) (name : String) : Outcome Function :=
  Failure.orRaise (p.function? name) (.functionNotFound name)

def global? (p : Program) (name : String) : Option GlobalVariable := p.globals.get? name

def setFunction (p : Program) (name : String) (f : Function) : Program :=
  { p with functions := p.functions.insert name f }

def addFunction (p : Program) (f : Function) : Program := p.setFunction f.name f

def addGlobal (p : Program) (g : GlobalVariable) : Program :=
  { p with globals := p.globals.insert g.name g }

def definedNames (p : Program) : List String :=
  (p.functions.values.filter (!·.isDeclaration)).map (·.name)

def editFunctions {α : Type} (p : Program) (f : Function → Outcome (α × Function)) :
    Outcome (List α × Program) := do
  let (answers, functions) ← p.functions.entries.foldlM
    (fun (answers, t) (name, g) => do
      let (a, g') ← f g
      return (a :: answers, t.insert name g'))
    (([] : List α), p.functions)
  return (answers.reverse, { p with functions := functions })

def instruction (p : Program) (l : ProgramLocation) : Outcome Instruction := do
  let f ← p.function l.function
  let c ← f.flowGraph
  c.instruction l.location

def text (p : Program) : String :=
  String.join (p.globals.values.map fun g => g.text ++ "\n")
    ++ String.join (p.functions.values.map fun f => f.text ++ "\n")

end Program

end RegionGuard

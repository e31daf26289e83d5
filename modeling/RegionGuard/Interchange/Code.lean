import RegionGuard.Configuration
import RegionGuard.IL.Program
import RegionGuard.Json.Decoder
set_option autoImplicit false

namespace RegionGuard

open Decoder (Alternative choice tags record)

def Json.tagged (tag : String) (content : Json) : Json := .object [(tag, content)]

mutual

def Ty.encode : Ty → Json
  | .void => .string "Void"
  | .integer bits => .tagged "Integer" (.ofNat bits)
  | .pointer => .string "Pointer"
  | .array element length => .tagged "Array" (.array [Ty.encode element, .ofWord length])
  | .struct fields => .tagged "Struct" (.array (Ty.encodeAll fields))
  | .function => .string "Function"

def Ty.encodeAll : List Ty → List Json
  | [] => []
  | t :: ts => Ty.encode t :: Ty.encodeAll ts

end

def Ty.decodeWithin : Nat → Decoder Ty
  | 0 => fun _ _ => none
  | levels + 1 =>
    choice
      [("Void", .unit .void),
        ("Integer", .content (Decoder.nat.map .integer)),
        ("Pointer", .unit .pointer),
        ("Array", .content
          ((Decoder.pair (Ty.decodeWithin levels) .word).map fun p => .array p.1 p.2)),
        ("Struct", .content ((Decoder.list (Ty.decodeWithin levels)).map .struct)),
        ("Function", .unit .function)]

/-- Every level of a type opens a container. -/
def Ty.decode : Decoder Ty := fun depth => Ty.decodeWithin depth depth

namespace Variable

def encode (v : Variable) : Json := .object [("name", .string v.name), ("ty", v.ty.encode)]

def decode : Decoder Variable := record ["name", "ty"] fun r => do
  return ⟨← r.required "name" .string, ← r.required "ty" Ty.decode⟩

end Variable

namespace Argument

def encode (a : Argument) : Json :=
  .object [("index", .ofNat a.index), ("name", .string a.name), ("ty", a.ty.encode)]

def decode : Decoder Argument := record ["index", "name", "ty"] fun r => do
  return ⟨← r.required "index" .nat, ← r.required "name" .string, ← r.required "ty" Ty.decode⟩

end Argument

namespace Constant

def encode (c : Constant) : Json := .object [("value", .ofWord c.value), ("bits", .ofNat c.bits)]

/-- Reads a constant as it stands, without reducing it to its width. -/
def decode : Decoder Constant := record ["value", "bits"] fun r => do
  return ⟨← r.required "value" .word, ← r.required "bits" .nat⟩

end Constant

namespace Value

def encode : Value → Json
  | .variable v => .tagged "Variable" v.encode
  | .argument a => .tagged "Argument" a.encode
  | .global name => .tagged "Global" (.string name)
  | .function name => .tagged "Function" (.string name)
  | .constant c => .tagged "Constant" c.encode
  | .null => .string "Null"

def decode : Decoder Value := choice
  [("Variable", .content (Variable.decode.map .variable)),
    ("Argument", .content (Argument.decode.map .argument)),
    ("Global", .content (Decoder.string.map .global)),
    ("Function", .content (Decoder.string.map .function)),
    ("Constant", .content (Constant.decode.map .constant)),
    ("Null", .unit .null)]

end Value

namespace CastKind

def tag : CastKind → String
  | .bitcast => "Bitcast"
  | .ptrToInt => "PtrToInt"
  | .intToPtr => "IntToPtr"
  | .zeroExtend => "ZeroExtend"
  | .signExtend => "SignExtend"
  | .truncate => "Truncate"

def all : List CastKind := [.bitcast, .ptrToInt, .intToPtr, .zeroExtend, .signExtend, .truncate]

def decode : Decoder CastKind := tags (all.map fun k => (k.tag, k))

end CastKind

namespace BinaryOperator

def tag : BinaryOperator → String
  | .add => "Add"
  | .sub => "Sub"
  | .mul => "Mul"
  | .udiv => "Udiv"
  | .sdiv => "Sdiv"
  | .urem => "Urem"
  | .shl => "Shl"
  | .lshr => "Lshr"
  | .ashr => "Ashr"
  | .and => "And"
  | .or => "Or"
  | .xor => "Xor"

def all : List BinaryOperator :=
  [.add, .sub, .mul, .udiv, .sdiv, .urem, .shl, .lshr, .ashr, .and, .or, .xor]

def decode : Decoder BinaryOperator := tags (all.map fun o => (o.tag, o))

end BinaryOperator

namespace Predicate

def tag : Predicate → String
  | .eq => "Eq"
  | .ne => "Ne"
  | .ult => "Ult"
  | .ule => "Ule"
  | .ugt => "Ugt"
  | .uge => "Uge"
  | .slt => "Slt"
  | .sle => "Sle"
  | .sgt => "Sgt"
  | .sge => "Sge"

def all : List Predicate := [.eq, .ne, .ult, .ule, .ugt, .uge, .slt, .sle, .sgt, .sge]

def decode : Decoder Predicate := tags (all.map fun p => (p.tag, p))

end Predicate

namespace CallTarget

def encode : CallTarget → Json
  | .direct name => .tagged "Direct" (.string name)
  | .indirect address => .tagged "Indirect" address.encode

def decode : Decoder CallTarget := choice
  [("Direct", .content (Decoder.string.map .direct)),
    ("Indirect", .content (Value.decode.map .indirect))]

end CallTarget

namespace Operation

def encode : Operation → Json
  | .alloca dst allocated count =>
    .tagged "Alloca"
      (.object [("dst", dst.encode), ("allocated", allocated.encode), ("count", count.encode)])
  | .load dst pointer => .tagged "Load" (.object [("dst", dst.encode), ("pointer", pointer.encode)])
  | .store pointer value =>
    .tagged "Store" (.object [("pointer", pointer.encode), ("value", value.encode)])
  | .cast dst kind src =>
    .tagged "Cast" (.object [("dst", dst.encode), ("kind", .string kind.tag), ("src", src.encode)])
  | .elementPtr dst base source indices inbounds =>
    .tagged "GetElementPtr"
      (.object [("dst", dst.encode), ("base", base.encode), ("source", source.encode),
        ("indices", .ofList Value.encode indices), ("inbounds", .bool inbounds)])
  | .binary dst op lhs rhs =>
    .tagged "Binary"
      (.object [("dst", dst.encode), ("op", .string op.tag), ("lhs", lhs.encode), ("rhs", rhs.encode)])
  | .compare dst predicate lhs rhs =>
    .tagged "Compare"
      (.object [("dst", dst.encode), ("predicate", .string predicate.tag), ("lhs", lhs.encode),
        ("rhs", rhs.encode)])
  | .select dst condition onTrue onFalse =>
    .tagged "Select"
      (.object [("dst", dst.encode), ("condition", condition.encode), ("on_true", onTrue.encode),
        ("on_false", onFalse.encode)])
  | .phi dst incoming =>
    .tagged "Phi"
      (.object [("dst", dst.encode),
        ("incoming", .ofList (fun e => .array [e.1.encode, .ofNat e.2]) incoming)])
  | .call dst target arguments =>
    .tagged "Call"
      (.object [("dst", .ofOption Variable.encode dst), ("target", target.encode),
        ("arguments", .ofList Value.encode arguments)])
  | .ret value => .tagged "Return" (.object [("value", .ofOption Value.encode value)])
  | .nop => .string "Nop"

def decode : Decoder Operation := choice
  [("Alloca", .content (record ["dst", "allocated", "count"] fun r => do
      return .alloca (← r.required "dst" Variable.decode) (← r.required "allocated" Ty.decode)
        (← r.required "count" Value.decode))),
    ("Load", .content (record ["dst", "pointer"] fun r => do
      return .load (← r.required "dst" Variable.decode) (← r.required "pointer" Value.decode))),
    ("Store", .content (record ["pointer", "value"] fun r => do
      return .store (← r.required "pointer" Value.decode) (← r.required "value" Value.decode))),
    ("Cast", .content (record ["dst", "kind", "src"] fun r => do
      return .cast (← r.required "dst" Variable.decode) (← r.required "kind" CastKind.decode)
        (← r.required "src" Value.decode))),
    ("GetElementPtr", .content (record ["dst", "base", "source", "indices", "inbounds"] fun r => do
      return .elementPtr (← r.required "dst" Variable.decode) (← r.required "base" Value.decode)
        (← r.required "source" Ty.decode) (← r.required "indices" (.list Value.decode))
        (← r.required "inbounds" .bool))),
    ("Binary", .content (record ["dst", "op", "lhs", "rhs"] fun r => do
      return .binary (← r.required "dst" Variable.decode) (← r.required "op" BinaryOperator.decode)
        (← r.required "lhs" Value.decode) (← r.required "rhs" Value.decode))),
    ("Compare", .content (record ["dst", "predicate", "lhs", "rhs"] fun r => do
      return .compare (← r.required "dst" Variable.decode)
        (← r.required "predicate" Predicate.decode) (← r.required "lhs" Value.decode)
        (← r.required "rhs" Value.decode))),
    ("Select", .content (record ["dst", "condition", "on_true", "on_false"] fun r => do
      return .select (← r.required "dst" Variable.decode) (← r.required "condition" Value.decode)
        (← r.required "on_true" Value.decode) (← r.required "on_false" Value.decode))),
    ("Phi", .content (record ["dst", "incoming"] fun r => do
      return .phi (← r.required "dst" Variable.decode)
        (← r.required "incoming" (.list (.pair Value.decode .nat))))),
    ("Call", .content (record ["dst", "target", "arguments"] fun r => do
      return .call (← r.optional "dst" Variable.decode) (← r.required "target" CallTarget.decode)
        (← r.required "arguments" (.list Value.decode)))),
    ("Return", .content (record ["value"] fun r => do
      return .ret (← r.optional "value" Value.decode))),
    ("Nop", .unit .nop)]

end Operation

namespace Instruction

def encode (i : Instruction) : Json :=
  .object [("operation", i.operation.encode), ("index", .ofNat i.index),
    ("comment", .ofOption .string i.comment),
    ("metadata", .object (i.metadata.entries.map fun e => (e.1, .string e.2)))]

def decode : Decoder Instruction := record ["operation", "index", "comment", "metadata"] fun r => do
  return ⟨← r.required "operation" Operation.decode, ← r.required "index" .nat,
    ← r.optional "comment" .string, ← r.defaulted "metadata" ∅ (.table Json.Literal.text? .string)⟩

end Instruction

namespace Block

def encode (b : Block) : Json :=
  .object [("index", .ofNat b.index), ("next_instruction_index", .ofNat b.nextIndex),
    ("instructions", .ofList Instruction.encode b.instructions)]

def decode : Decoder Block := record ["index", "next_instruction_index", "instructions"] fun r => do
  return ⟨← r.required "index" .nat, ← r.required "next_instruction_index" .nat,
    ← r.required "instructions" (.list Instruction.decode)⟩

end Block

namespace Condition

def encode : Condition → Json
  | .isTrue v => .tagged "True" v.encode
  | .isFalse v => .tagged "False" v.encode

def decode : Decoder Condition := choice
  [("True", .content (Value.decode.map .isTrue)), ("False", .content (Value.decode.map .isFalse))]

end Condition

namespace Edge

def encode (e : Edge) : Json :=
  .object [("head", .ofNat e.head), ("tail", .ofNat e.tail),
    ("condition", .ofOption Condition.encode e.condition),
    ("comment", .ofOption .string e.comment)]

def decode : Decoder Edge := record ["head", "tail", "condition", "comment"] fun r => do
  return ⟨← r.required "head" .nat, ← r.required "tail" .nat, ← r.optional "condition" Condition.decode,
    ← r.optional "comment" .string⟩

end Edge

def Json.ofIndexed {α : Type} (f : α → Json) (t : Table Nat α) : Json :=
  .object (t.entries.map fun e => (toString e.1, f e.2))

namespace FlowGraph

def encodeGraph? (g : Graph Block Edge) : Option Json :=
  let neighbors := Json.ofIndexed fun s : KeySet Nat => .nats s.keys
  if g.edges.isEmpty then
    some (.object [("vertices", .ofIndexed Block.encode g.vertices), ("edges", .object []),
      ("successors", neighbors g.successors), ("predecessors", neighbors g.predecessors)])
  else none

def decodeGraph : Decoder (Graph Block Edge) :=
  let neighbors := Decoder.table Decoder.natKey (Decoder.keySet .nat)
  record ["vertices", "edges", "successors", "predecessors"] fun r => do
    return ⟨← r.required "vertices" (.table Decoder.natKey Block.decode),
      ← r.required "edges" (.table (fun _ => none) Edge.decode),
      ← r.required "successors" neighbors, ← r.required "predecessors" neighbors⟩

def encode? (c : FlowGraph) : Option Json := do
  let graph ← encodeGraph? c.graph
  return .object [("graph", graph), ("next_index", .ofNat c.nextBlock),
    ("next_temp_index", .ofNat c.nextTemp), ("entry", .ofOption .ofNat c.entry)]

def decode : Decoder FlowGraph := record ["graph", "next_index", "next_temp_index", "entry"] fun r => do
  return ⟨← r.required "graph" decodeGraph, ← r.required "next_index" .nat,
    ← r.required "next_temp_index" .nat, ← r.optional "entry" .nat⟩

end FlowGraph

namespace Linkage

def all : List Linkage := [.external, .weak, .internal, .hidden]

def decode : Decoder Linkage := tags (all.map fun l => (l.text, l))

end Linkage

namespace Function

def encode? (f : Function) : Option Json := do
  let body ← match f.body with
    | some c => c.encode?
    | none => some .null
  return .object [("name", .string f.name), ("arguments", .ofList Argument.encode f.arguments),
    ("return_type", f.returnType.encode), ("linkage", .string f.linkage.text),
    ("control_flow_graph", body)]

def decode : Decoder Function :=
  record ["name", "arguments", "return_type", "linkage", "control_flow_graph"] fun r => do
    return ⟨← r.required "name" .string, ← r.required "arguments" (.list Argument.decode),
      ← r.required "return_type" Ty.decode, ← r.defaulted "linkage" .external Linkage.decode,
      ← r.optional "control_flow_graph" FlowGraph.decode⟩

end Function

namespace GlobalVariable

def encode (g : GlobalVariable) : Json :=
  .object [("name", .string g.name), ("ty", g.ty.encode), ("linkage", .string g.linkage.text),
    ("defined", .bool g.isDefined)]

def decode : Decoder GlobalVariable := record ["name", "ty", "linkage", "defined"] fun r => do
  return ⟨← r.required "name" .string, ← r.required "ty" Ty.decode,
    ← r.defaulted "linkage" .external Linkage.decode, ← r.required "defined" .bool⟩

end GlobalVariable

namespace Program

def encode? (p : Program) : Option Json := do
  let functions ← p.functions.entries.mapM fun e => return (e.1, ← e.2.encode?)
  return .object [("functions", .object functions),
    ("globals", .object (p.globals.entries.map fun e => (e.1, e.2.encode)))]

def decode : Decoder Program := record ["functions", "globals"] fun r => do
  return ⟨← r.required "functions" (.table Json.Literal.text? Function.decode),
    ← r.defaulted "globals" ∅ (.table Json.Literal.text? GlobalVariable.decode)⟩

end Program

namespace Location

def encode (l : Location) : Json :=
  .object [("block", .ofNat l.block), ("instruction", .ofNat l.instruction)]

def decode : Decoder Location := record ["block", "instruction"] fun r => do
  return ⟨← r.required "block" .nat, ← r.required "instruction" .nat⟩

end Location

namespace ProgramLocation

def encode (l : ProgramLocation) : Json :=
  .object [("function", .string l.function), ("location", l.location.encode)]

def decode : Decoder ProgramLocation := record ["function", "location"] fun r => do
  return ⟨← r.required "function" .string, ← r.required "location" Location.decode⟩

end ProgramLocation

namespace AllocatorMode

def decode : Decoder AllocatorMode := tags ([AllocatorMode.user, .kernel].map fun m => (m.text, m))

end AllocatorMode

namespace Hooks

def encode (h : Hooks) : Json :=
  .object [("notify_malloc", .string h.notifyMalloc), ("notify_calloc", .string h.notifyCalloc),
    ("notify_realloc", .string h.notifyRealloc), ("notify_free", .string h.notifyFree),
    ("notify_global", .string h.notifyGlobal), ("notify_escape", .string h.notifyEscape),
    ("guard_address", .string h.guardAddress), ("guard_callee_stack", .string h.guardCalleeStack),
    ("pin_pointer", .string h.pinPointer)]

def decode : Decoder Hooks :=
  record
    ["notify_malloc", "notify_calloc", "notify_realloc", "notify_free", "notify_global",
      "notify_escape", "guard_address", "guard_callee_stack", "pin_pointer"] fun r => do
    let name := fun field (byDefault : Hooks → String) =>
      r.defaulted field (byDefault .default) .string
    return ⟨← name "notify_malloc" notifyMalloc, ← name "notify_calloc" notifyCalloc,
      ← name "notify_realloc" notifyRealloc, ← name "notify_free" notifyFree,
      ← name "notify_global" notifyGlobal, ← name "notify_escape" notifyEscape,
      ← name "guard_address" guardAddress, ← name "guard_callee_stack" guardCalleeStack,
      ← name "pin_pointer" pinPointer⟩

end Hooks

namespace Configuration

def encode (c : Configuration) : Json :=
  .object [("globals", .bool c.globals), ("mallocs", .bool c.mallocs), ("frees", .bool c.frees),
    ("escapes", .bool c.escapes), ("protection", .bool c.protection),
    ("restriction", .bool c.restriction), ("verification", .bool c.verification),
    ("optimize_guards", .bool c.optimizeGuards), ("allocator_mode", .string c.allocatorMode.text),
    ("debug", .bool c.debug), ("hooks", c.hooks.encode),
    ("global_init_function", .string c.globalInitFunction),
    ("skip_functions", .strings c.skipFunctions.keys)]

def decode : Decoder Configuration :=
  record
    ["globals", "mallocs", "frees", "escapes", "protection", "restriction", "verification",
      "optimize_guards", "allocator_mode", "debug", "hooks", "global_init_function",
      "skip_functions"] fun r => do
    let flag := fun field (byDefault : Configuration → Bool) =>
      r.defaulted field (byDefault .default) .bool
    return ⟨← flag "globals" globals, ← flag "mallocs" mallocs, ← flag "frees" frees,
      ← flag "escapes" escapes, ← flag "protection" protection, ← flag "restriction" restriction,
      ← flag "verification" verification, ← flag "optimize_guards" optimizeGuards,
      ← r.defaulted "allocator_mode" .user AllocatorMode.decode, ← flag "debug" debug,
      ← r.defaulted "hooks" .default Hooks.decode,
      ← r.defaulted "global_init_function" "main" .string,
      ← r.defaulted "skip_functions" ∅ (.keySet .string)⟩

end Configuration

end RegionGuard

import RegionGuard.IL.Value
set_option autoImplicit false

namespace RegionGuard

inductive CastKind where
  /-- Reads a value as another type of the same width. -/
  | bitcast
  | ptrToInt
  | intToPtr
  | zeroExtend
  | signExtend
  | truncate
deriving DecidableEq, Repr

inductive BinaryOperator where
  | add | sub | mul | udiv | sdiv | urem | shl | lshr | ashr | and | or | xor
deriving DecidableEq, Repr

inductive Predicate where
  | eq | ne | ult | ule | ugt | uge | slt | sle | sgt | sge
deriving DecidableEq, Repr

/-- Who is called: a function by name, or whatever function an address belongs to. -/
inductive CallTarget where
  | direct (name : String)
  | indirect (address : Value)
deriving DecidableEq, Repr

inductive Operation where
  | alloca (dst : Variable) (allocated : Ty) (count : Value)
  | load (dst : Variable) (pointer : Value)
  | store (pointer value : Value)
  | cast (dst : Variable) (kind : CastKind) (src : Value)
  /-- Computes an address: the first index counts objects of type `source`, each further one steps into
  the aggregate reached so far. -/
  | elementPtr (dst : Variable) (base : Value) (source : Ty) (indices : List Value) (inbounds : Bool)
  | binary (dst : Variable) (op : BinaryOperator) (lhs rhs : Value)
  | compare (dst : Variable) (predicate : Predicate) (lhs rhs : Value)
  | select (dst : Variable) (condition onTrue onFalse : Value)
  /-- Takes the value paired with the block that control came from. -/
  | phi (dst : Variable) (incoming : List (Value × Nat))
  | call (dst : Option Variable) (target : CallTarget) (arguments : List Value)
  | ret (value : Option Value)
  | nop
deriving DecidableEq, Repr

namespace CastKind

def text : CastKind → String
  | .bitcast => "bitcast"
  | .ptrToInt => "ptrtoint"
  | .intToPtr => "inttoptr"
  | .zeroExtend => "zext"
  | .signExtend => "sext"
  | .truncate => "trunc"

end CastKind

namespace BinaryOperator

def text : BinaryOperator → String
  | .add => "add"
  | .sub => "sub"
  | .mul => "mul"
  | .udiv => "udiv"
  | .sdiv => "sdiv"
  | .urem => "urem"
  | .shl => "shl"
  | .lshr => "lshr"
  | .ashr => "ashr"
  | .and => "and"
  | .or => "or"
  | .xor => "xor"

end BinaryOperator

namespace Predicate

def inverse : Predicate → Predicate
  | .eq => .ne
  | .ne => .eq
  | .ult => .uge
  | .ule => .ugt
  | .ugt => .ule
  | .uge => .ult
  | .slt => .sge
  | .sle => .sgt
  | .sgt => .sle
  | .sge => .slt

/-- The predicate that holds with its operands exchanged. -/
def swapped : Predicate → Predicate
  | .eq => .eq
  | .ne => .ne
  | .ult => .ugt
  | .ule => .uge
  | .ugt => .ult
  | .uge => .ule
  | .slt => .sgt
  | .sle => .sge
  | .sgt => .slt
  | .sge => .sle

def text : Predicate → String
  | .eq => "eq"
  | .ne => "ne"
  | .ult => "ult"
  | .ule => "ule"
  | .ugt => "ugt"
  | .uge => "uge"
  | .slt => "slt"
  | .sle => "sle"
  | .sgt => "sgt"
  | .sge => "sge"

end Predicate

namespace CallTarget

def name? : CallTarget → Option String
  | .direct name => some name
  | .indirect _ => none

def text : CallTarget → String
  | .direct name => "@" ++ name
  | .indirect address => "*" ++ address.text

end CallTarget

namespace Operation

def notify (name : String) (arguments : List Value) : Operation := .call none (.direct name) arguments

def isStore : Operation → Bool
  | .store .. => true
  | _ => false

def isPhi : Operation → Bool
  | .phi .. => true
  | _ => false

def isReturn : Operation → Bool
  | .ret _ => true
  | _ => false

def isAlloca : Operation → Bool
  | .alloca .. => true
  | _ => false

def callee? : Operation → Option String
  | .call _ target _ => target.name?
  | _ => none

def pointer? : Operation → Option Value
  | .load _ pointer => some pointer
  | .store pointer _ => some pointer
  | _ => none

def written? : Operation → Option Variable
  | .alloca dst _ _ => some dst
  | .load dst _ => some dst
  | .cast dst _ _ => some dst
  | .elementPtr dst _ _ _ _ => some dst
  | .binary dst _ _ _ => some dst
  | .compare dst _ _ _ => some dst
  | .select dst _ _ _ => some dst
  | .phi dst _ => some dst
  | .call dst _ _ => dst
  | .store _ _ | .ret _ | .nop => none

/-- The values read, in operand order; an indirect target comes before the arguments. -/
def reads : Operation → List Value
  | .alloca _ _ count => [count]
  | .load _ pointer => [pointer]
  | .store pointer value => [pointer, value]
  | .cast _ _ src => [src]
  | .elementPtr _ base _ indices _ => base :: indices
  | .binary _ _ lhs rhs => [lhs, rhs]
  | .compare _ _ lhs rhs => [lhs, rhs]
  | .select _ condition onTrue onFalse => [condition, onTrue, onFalse]
  | .phi _ incoming => incoming.map (·.1)
  | .call _ (.direct _) arguments => arguments
  | .call _ (.indirect address) arguments => address :: arguments
  | .ret value => value.toList
  | .nop => []

def mapReads (f : Value → Value) : Operation → Operation
  | .alloca dst allocated count => .alloca dst allocated (f count)
  | .load dst pointer => .load dst (f pointer)
  | .store pointer value => .store (f pointer) (f value)
  | .cast dst kind src => .cast dst kind (f src)
  | .elementPtr dst base source indices inbounds =>
    .elementPtr dst (f base) source (indices.map f) inbounds
  | .binary dst op lhs rhs => .binary dst op (f lhs) (f rhs)
  | .compare dst predicate lhs rhs => .compare dst predicate (f lhs) (f rhs)
  | .select dst condition onTrue onFalse => .select dst (f condition) (f onTrue) (f onFalse)
  | .phi dst incoming => .phi dst (incoming.map fun e => (f e.1, e.2))
  | .call dst (.direct name) arguments => .call dst (.direct name) (arguments.map f)
  | .call dst (.indirect address) arguments => .call dst (.indirect (f address)) (arguments.map f)
  | .ret value => .ret (value.map f)
  | .nop => .nop

def variablesRead (o : Operation) : List Variable := o.reads.filterMap Value.asVariable?

def joinValues (values : List Value) : String := ", ".intercalate (values.map Value.text)

def text : Operation → String
  | .alloca dst allocated count =>
    dst.text ++ " = alloca " ++ allocated.text ++ ", " ++ count.text
  | .load dst pointer => dst.text ++ " = [" ++ pointer.text ++ "]"
  | .store pointer value => "[" ++ pointer.text ++ "] = " ++ value.text
  | .cast dst kind src => dst.text ++ " = " ++ kind.text ++ " " ++ src.text
  | .elementPtr dst base source indices inbounds =>
    dst.text ++ " = gep" ++ (if inbounds then " inbounds" else "") ++ " " ++ source.text ++ ", "
      ++ base.text ++ ", " ++ joinValues indices
  | .binary dst op lhs rhs => dst.text ++ " = " ++ op.text ++ " " ++ lhs.text ++ ", " ++ rhs.text
  | .compare dst predicate lhs rhs =>
    dst.text ++ " = cmp " ++ predicate.text ++ " " ++ lhs.text ++ ", " ++ rhs.text
  | .select dst condition onTrue onFalse =>
    dst.text ++ " = " ++ condition.text ++ " ? " ++ onTrue.text ++ " : " ++ onFalse.text
  | .phi dst incoming =>
    dst.text ++ " = phi ["
      ++ ", ".intercalate (incoming.map fun e => e.1.text ++ " 0x" ++ Hex.upper e.2) ++ "]"
  | .call dst target arguments =>
    let callText := "call " ++ target.text ++ "(" ++ joinValues arguments ++ ")"
    match dst with
    | some v => v.text ++ " = " ++ callText
    | none => callText
  | .ret (some value) => "ret " ++ value.text
  | .ret none => "ret"
  | .nop => "nop"

theorem reads_mapReads (f : Value → Value) (o : Operation) : (o.mapReads f).reads = o.reads.map f := by
  cases o with
  | phi dst incoming => simp [mapReads, reads, Function.comp_def]
  | call dst target arguments => cases target <;> simp [mapReads, reads]
  | ret value => cases value <;> simp [mapReads, reads]
  | _ => simp [mapReads, reads]

theorem written?_mapReads (f : Value → Value) (o : Operation) : (o.mapReads f).written? = o.written? := by
  cases o with
  | call dst target arguments => cases target <;> rfl
  | _ => rfl

end Operation

end RegionGuard

import RegionGuard.IL.Ty
import RegionGuard.Word
set_option autoImplicit false

namespace RegionGuard

structure Location where
  block : Nat
  instruction : Nat
deriving DecidableEq, Repr

structure ProgramLocation where
  function : String
  location : Location
deriving DecidableEq, Repr

def Location.text (l : Location) : String :=
  "0x" ++ Hex.upper l.block ++ ":" ++ Hex.upperPair l.instruction

def ProgramLocation.text (l : ProgramLocation) : String := "@" ++ l.function ++ ":" ++ l.location.text

structure Variable where
  name : String
  ty : Ty
deriving DecidableEq, Repr

structure Argument where
  index : Nat
  name : String
  ty : Ty
deriving DecidableEq, Repr

/-- An integer of up to 64 bits. -/
structure Constant where
  value : Word
  bits : Nat
deriving DecidableEq, Repr

inductive Value where
  | variable (v : Variable)
  | argument (a : Argument)
  | global (name : String)
  | function (name : String)
  | constant (c : Constant)
  | null
deriving DecidableEq, Repr

def Variable.text (v : Variable) : String := "%" ++ v.name ++ ":" ++ v.ty.text

def Argument.text (a : Argument) : String := s!"%arg{a.index}." ++ a.name ++ ":" ++ a.ty.text

namespace Constant

def trim (value : Word) (bits : Nat) : Word :=
  if 64 ≤ bits then value else UInt64.ofNat (value.toNat % Nat.pow 2 bits)

def make (value : Word) (bits : Nat) : Constant := ⟨trim value bits, bits⟩

def signBits (c : Constant) : Nat := if c.bits = 0 ∨ 64 ≤ c.bits then 64 else c.bits

/-- The value read as a two's complement number of its width. -/
def signed (c : Constant) : Int := Int.bmod c.value.toNat (Nat.pow 2 c.signBits)

def isZero (c : Constant) : Bool := c.value = 0

def text (c : Constant) : String := s!"0x" ++ Hex.upper c.value.toNat ++ s!":{c.bits}"

end Constant

namespace Value

def ty : Value → Ty
  | .variable v => v.ty
  | .argument a => a.ty
  | .global _ | .function _ | .null => .pointer
  | .constant c => .integer c.bits

def isPointer (v : Value) : Bool := v.ty.isPointer

def asVariable? : Value → Option Variable
  | .variable v => some v
  | _ => none

def asConstant? : Value → Option Constant
  | .constant c => some c
  | _ => none

def isImmutable : Value → Bool
  | .global _ | .function _ | .constant _ | .null => true
  | .variable _ | .argument _ => false

def text : Value → String
  | .variable v => v.text
  | .argument a => a.text
  | .global name => "@" ++ name
  | .function name => "@" ++ name ++ "()"
  | .constant c => c.text
  | .null => "null"

def ofWord (value : Word) (bits : Nat) : Value := .constant (.make value bits)

end Value

end RegionGuard

import RegionGuard.Failure
import RegionGuard.IL.Operation
set_option autoImplicit false

namespace RegionGuard.Evaluation

def scalarBits (t : Ty) : Outcome Nat := Failure.orRaise t.bits (.execution (.notScalar t))

def checkShift (bits : Nat) (amount : Word) : Outcome Unit :=
  if bits ≤ amount.toNat then Failure.raise (.execution (.shiftTooFar bits amount)) else pure ()

def checkDivisor (divisor : Word) : Outcome Unit :=
  if divisor = 0 then Failure.raise (.execution .divisionByZero) else pure ()

def signedQuotient (a b : Int) : Outcome Word :=
  if b = 0 then Failure.stop .zeroDivisor else pure (Word.ofInt (a.tdiv b))

/-- The word that an operator computes, before it is reduced to the width of the left operand. -/
def binaryWord (op : BinaryOperator) (lhs rhs : Constant) : Outcome Word := do
  let l := lhs.value
  let r := rhs.value
  match op with
  | .add => return l + r
  | .sub => return l - r
  | .mul => return l * r
  | .udiv => checkDivisor r; return l / r
  | .sdiv => checkDivisor r; signedQuotient lhs.signed rhs.signed
  | .urem => checkDivisor r; return l % r
  | .shl => checkShift lhs.bits r; return l <<< r
  | .lshr => checkShift lhs.bits r; return l >>> r
  | .ashr => checkShift lhs.bits r; return Word.ofInt (lhs.signed >>> (r.toNat % 64))
  | .and => return l &&& r
  | .or => return l ||| r
  | .xor => return l ^^^ r

def binary (op : BinaryOperator) (lhs rhs : Constant) : Outcome Constant := do
  let w ← binaryWord op lhs rhs
  return .make w lhs.bits

def holds (p : Predicate) (lhs rhs : Constant) : Bool :=
  match p with
  | .eq => lhs.value = rhs.value
  | .ne => lhs.value ≠ rhs.value
  | .ult => lhs.value < rhs.value
  | .ule => lhs.value ≤ rhs.value
  | .ugt => rhs.value < lhs.value
  | .uge => rhs.value ≤ lhs.value
  | .slt => lhs.signed < rhs.signed
  | .sle => lhs.signed ≤ rhs.signed
  | .sgt => rhs.signed < lhs.signed
  | .sge => rhs.signed ≤ lhs.signed

@[simp] theorem holds_inverse (p : Predicate) (l r : Constant) : holds p.inverse l r = !holds p l r := by
  cases p with
  | eq | ne => simp [holds, Predicate.inverse]
  | ult | ule | ugt | uge => simp [holds, Predicate.inverse, ← decide_not]
  | slt | sle | sgt | sge => simp [holds, Predicate.inverse, ← decide_not]

@[simp] theorem holds_swapped (p : Predicate) (l r : Constant) : holds p.swapped r l = holds p l r := by
  cases p with
  | eq | ne => simp [holds, Predicate.swapped, eq_comm]
  | ult | ule | ugt | uge | slt | sle | sgt | sge => rfl

def compare (p : Predicate) (lhs rhs : Constant) : Constant :=
  .make (if holds p lhs rhs then 1 else 0) 1

def cast (kind : CastKind) (src : Constant) (ty : Ty) : Outcome Constant := do
  let bits ← scalarBits ty
  match kind with
  | .signExtend => return .make (Word.ofInt src.signed) bits
  | _ => return .make src.value bits

def layout (w : Option Word) : Outcome Word := Failure.orStop w .overflow

/-- What the indices after the first add to an address inside an object of the given type. -/
def innerOffset (ty : Ty) : List Constant → Outcome Word
  | [] => pure 0
  | index :: rest =>
    match ty with
    | .struct fields => do
      let field := index.value.toNat
      match ty.fieldOffset field, fields[field]? with
      | some offset, some inner =>
        let here ← layout offset
        let below ← innerOffset inner rest
        return here + below
      | _, _ => Failure.raise (.execution (.noField ty field))
    | .array element _ => do
      let size ← layout element.size?
      let below ← innerOffset element rest
      return Word.ofInt index.signed * size + below
    | _ => Failure.raise (.execution (.notIndexable ty))

def elementOffset (source : Ty) : List Constant → Outcome Word
  | [] => pure 0
  | index :: rest => do
    let size ← layout source.size?
    let below ← innerOffset source rest
    return Word.ofInt index.signed * size + below

end RegionGuard.Evaluation

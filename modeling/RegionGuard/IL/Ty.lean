import RegionGuard.Word
set_option autoImplicit false

namespace RegionGuard

def pointerBits : Nat := 64

inductive Ty where
  | void
  | integer (bits : Nat)
  | pointer
  | array (element : Ty) (length : Word)
  | struct (fields : List Ty)
  | function
deriving Repr

namespace Ty

mutual

def beq : Ty → Ty → Bool
  | .void, .void => true
  | .integer a, .integer b => a == b
  | .pointer, .pointer => true
  | .array a m, .array b n => beq a b && m == n
  | .struct as, .struct bs => beqAll as bs
  | .function, .function => true
  | _, _ => false

def beqAll : List Ty → List Ty → Bool
  | [], [] => true
  | a :: as, b :: bs => beq a b && beqAll as bs
  | _, _ => false

end

mutual

theorem beq_iff : ∀ a b : Ty, beq a b = true ↔ a = b
  | .void, b => by cases b <;> simp [beq]
  | .integer n, b => by cases b <;> simp [beq]
  | .pointer, b => by cases b <;> simp [beq]
  | .array a m, b => by
    cases b <;> simp [beq]
    rw [beq_iff a]
    intro _
    trivial
  | .struct as, b => by
    cases b <;> simp [beq]
    rw [beqAll_iff as]
  | .function, b => by cases b <;> simp [beq]

theorem beqAll_iff : ∀ as bs : List Ty, beqAll as bs = true ↔ as = bs
  | [], bs => by cases bs <;> simp [beqAll]
  | a :: as, bs => by
    cases bs
    · simp [beqAll]
    · simp [beqAll, beq_iff a, beqAll_iff as]

end

instance : DecidableEq Ty := fun a b => decidable_of_iff _ (beq_iff a b)

def isPointer (t : Ty) : Bool := t = .pointer

def isInteger : Ty → Bool
  | .integer _ => true
  | _ => false

/-- The width of a scalar; aggregates have none. -/
def bits : Ty → Option Nat
  | .integer n => some n
  | .pointer => some pointerBits
  | _ => none

mutual

def text : Ty → String
  | .void => "void"
  | .integer n => s!"i{n}"
  | .pointer => "ptr"
  | .array element length => s!"[{length.toNat} x " ++ text element ++ "]"
  | .struct fields => "\x7b" ++ ", ".intercalate (textAll fields) ++ "\x7d"
  | .function => "fn"

def textAll : List Ty → List String
  | [] => []
  | f :: fs => text f :: textAll fs

end

def alignTo? (offset alignment : Word) : Option Word := do
  let top ← Word.add? offset alignment
  Word.mul? ((top - 1) / alignment) alignment

def integerBytes? (n : Nat) : Option Word := do
  let top ← Word.ofNat? (n + 7)
  return top / 8

mutual

/-- The alignment in bytes: that of a scalar is its size rounded up to a power of two, at most eight;
that of an aggregate is the largest among its parts. -/
def alignment? : Ty → Option Word
  | .void | .function => some 1
  | .integer n => do
    let bytes ← integerBytes? n
    return UInt64.ofNat (min (Word.powerAbove bytes.toNat) 8)
  | .pointer => some 8
  | .array element _ => alignment? element
  | .struct fields => largestAlignment? fields

def largestAlignment? : List Ty → Option Word
  | [] => some 1
  | f :: fs => do
    let a ← alignment? f
    let b ← largestAlignment? fs
    return max a b

end

mutual

/-- The bytes an object occupies, padding at its end included. -/
def size? : Ty → Option Word
  | .void | .function => some 0
  | .integer n => do
    let bytes ← integerBytes? n
    let a ← alignment? (.integer n)
    alignTo? bytes a
  | .pointer => some 8
  | .array element length => do
    let size ← size? element
    Word.mul? size length
  | .struct fields => do
    let offset ← offsetAfter? 0 fields
    let a ← largestAlignment? fields
    alignTo? offset a

/-- The end of a sequence of fields laid out from `offset` on, each at its own alignment. -/
def offsetAfter? (offset : Word) : List Ty → Option Word
  | [] => some offset
  | f :: fs => do
    let a ← alignment? f
    let start ← alignTo? offset a
    let size ← size? f
    let stop ← Word.add? start size
    offsetAfter? stop fs

end

def fieldOffset (t : Ty) (index : Nat) : Option (Option Word) :=
  match t with
  | .struct fields =>
    fields[index]?.map fun field => do
      let before ← offsetAfter? 0 (fields.take index)
      let a ← alignment? field
      alignTo? before a
  | _ => none

def elementType? (t : Ty) (index : Nat) : Option Ty :=
  match t with
  | .array element _ => some element
  | .struct fields => fields[index]?
  | _ => none

end Ty

end RegionGuard

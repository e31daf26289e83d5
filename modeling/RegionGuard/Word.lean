set_option autoImplicit false

namespace RegionGuard

namespace Hex

def lower (n : Nat) : String := String.ofList (Nat.toDigits 16 n)

def upper (n : Nat) : String := String.ofList ((Nat.toDigits 16 n).map Char.toUpper)

def upperPair (n : Nat) : String := if n < 16 then "0" ++ upper n else upper n

def digit (n : Nat) : Char := Nat.digitChar n

def ofBytes (bytes : List UInt8) : String :=
  String.ofList (bytes.flatMap fun b => [digit (b.toNat / 16), digit (b.toNat % 16)])

def digitValue? (c : Char) : Option Nat :=
  if c.isDigit then some (c.toNat - '0'.toNat)
  else if 'a' ≤ c ∧ c ≤ 'f' then some (c.toNat - 'a'.toNat + 10)
  else if 'A' ≤ c ∧ c ≤ 'F' then some (c.toNat - 'A'.toNat + 10)
  else none

def toBytes? : List Char → Option (List UInt8)
  | [] => some []
  | [_] => none
  | h :: l :: rest => do
    let high ← digitValue? h
    let low ← digitValue? l
    let bytes ← toBytes? rest
    return UInt8.ofNat (high * 16 + low) :: bytes

end Hex

abbrev Word := UInt64

namespace Word

/-- The number of values a word can take. -/
def modulus : Nat := 0x10000000000000000

def maximum : Word := 0xFFFFFFFFFFFFFFFF

def ofNat? (n : Nat) : Option Word :=
  if n < modulus then some (UInt64.ofNat n) else none

def add? (a b : Word) : Option Word := ofNat? (a.toNat + b.toNat)

def sub? (a b : Word) : Option Word := if b ≤ a then some (a - b) else none

def mul? (a b : Word) : Option Word := ofNat? (a.toNat * b.toNat)

def addSaturating (a b : Word) : Word := (add? a b).getD maximum

def mulSaturating (a b : Word) : Word := (mul? a b).getD maximum

def ofInt (i : Int) : Word := UInt64.ofNat (i % (modulus : Int)).toNat

def powerAbove (n : Nat) : Nat := if n ≤ 1 then 1 else Nat.pow 2 ((n - 1).log2 + 1)

theorem ofNat?_eq_some_iff {n : Nat} {w : Word} : ofNat? n = some w ↔ n = w.toNat := by
  unfold ofNat? modulus
  split
  · rename_i h
    constructor
    · intro e
      cases e
      exact (UInt64.toNat_ofNat_of_lt h).symm
    · intro e
      subst e
      rw [UInt64.ofNat_toNat]
  · rename_i h
    constructor
    · intro e
      cases e
    · intro e
      exact absurd (e ▸ w.toNat_lt) h

theorem toNat_pos {w : Word} (h : w ≠ 0) : 0 < w.toNat :=
  Nat.pos_of_ne_zero fun hzero => h (UInt64.toNat_inj.mp hzero)

theorem add?_eq_some_iff {a b c : Word} : add? a b = some c ↔ a.toNat + b.toNat = c.toNat :=
  ofNat?_eq_some_iff

theorem mul?_eq_some_iff {a b c : Word} : mul? a b = some c ↔ a.toNat * b.toNat = c.toNat :=
  ofNat?_eq_some_iff

end Word

/-- A signed 64-bit result, unless it is out of range. -/
def signed? (i : Int) : Option Int :=
  if -0x8000000000000000 ≤ i ∧ i < 0x8000000000000000 then some i else none

def signedWrap (i : Int) : Int := i.bmod Word.modulus

end RegionGuard

import RegionGuard.Word
set_option autoImplicit false

namespace RegionGuard

namespace Json

structure Literal where
  spelling : String
deriving DecidableEq, Inhabited, Repr

namespace Literal

/-- A character as it is spelled: quotes, backslashes and control characters are escaped. -/
def escape (c : Char) : List Char :=
  match c with
  | '"' => ['\\', '"']
  | '\\' => ['\\', '\\']
  | '\x08' => ['\\', 'b']
  | '\x0c' => ['\\', 'f']
  | '\n' => ['\\', 'n']
  | '\r' => ['\\', 'r']
  | '\t' => ['\\', 't']
  | c =>
    if c.toNat < 0x20 then
      ['\\', 'u', '0', '0', Hex.digit (c.toNat / 16), Hex.digit (c.toNat % 16)]
    else [c]

def ofText (s : String) : Literal := ⟨String.ofList (s.toList.flatMap escape)⟩

instance : Coe String Literal := ⟨ofText⟩

def shortEscape? : Char → Option Char
  | '"' => some '"'
  | '\\' => some '\\'
  | '/' => some '/'
  | 'b' => some '\x08'
  | 'f' => some '\x0c'
  | 'n' => some '\n'
  | 'r' => some '\r'
  | 't' => some '\t'
  | _ => none

def unit? (a b c d : Char) : Option Nat := do
  let a ← Hex.digitValue? a
  let b ← Hex.digitValue? b
  let c ← Hex.digitValue? c
  let d ← Hex.digitValue? d
  return ((a * 16 + b) * 16 + c) * 16 + d

def units : List Char → Option (List Nat)
  | [] => some []
  | '\\' :: 'u' :: a :: b :: c :: d :: rest => do
    let unit ← unit? a b c d
    return unit :: (← units rest)
  | '\\' :: e :: rest => do
    let e ← shortEscape? e
    return e.toNat :: (← units rest)
  | c :: rest => (units rest).map (c.toNat :: ·)

def isHighSurrogate (n : Nat) : Bool := 0xD800 ≤ n && n ≤ 0xDBFF

def isLowSurrogate (n : Nat) : Bool := 0xDC00 ≤ n && n ≤ 0xDFFF

def joinSurrogates (high low : Nat) : Char := Char.ofNat (0x10000 + (high - 0xD800) * 0x400 + (low - 0xDC00))

def joinUnits : List Nat → Option (List Char)
  | [] => some []
  | [n] => if isHighSurrogate n || isLowSurrogate n then none else some [Char.ofNat n]
  | n :: m :: rest =>
    if isHighSurrogate n && isLowSurrogate m then (joinUnits rest).map (joinSurrogates n m :: ·)
    else if isHighSurrogate n || isLowSurrogate n then none
    else (joinUnits (m :: rest)).map (Char.ofNat n :: ·)

def text? (l : Literal) : Option String := do
  let units ← units l.spelling.toList
  return String.ofList (← joinUnits units)

def isText (l : Literal) (s : String) : Bool := l.text? == some s

/-- Splits what follows an opening quote into a spelling and what follows the closing quote. Escapes are
complete, and control characters do not occur. -/
def scan : List Char → Option (List Char × List Char)
  | [] => none
  | '"' :: rest => some ([], rest)
  | '\\' :: 'u' :: a :: b :: c :: d :: rest => do
    let _ ← unit? a b c d
    let (cs, rest) ← scan rest
    return ('\\' :: 'u' :: a :: b :: c :: d :: cs, rest)
  | '\\' :: e :: rest => do
    let _ ← shortEscape? e
    let (cs, rest) ← scan rest
    return ('\\' :: e :: cs, rest)
  | c :: rest =>
    if c.toNat < 0x20 then none
    else do
      let (cs, rest) ← scan rest
      return (c :: cs, rest)

end Literal

end Json

inductive Json where
  | null
  | bool (b : Bool)
  | integer (i : Int)
  | fraction
  | string (l : Json.Literal)
  | array (items : List Json)
  | object (members : List (Json.Literal × Json))
deriving Inhabited, Repr

namespace Json

def ofNat (n : Nat) : Json := .integer n

def ofWord (w : Word) : Json := .integer w.toNat

def ofOption {α : Type} (f : α → Json) : Option α → Json
  | some a => f a
  | none => .null

def ofList {α : Type} (f : α → Json) (l : List α) : Json := .array (l.map f)

def ofText (s : String) : Json := .string (.ofText s)

def strings (l : List String) : Json := ofList ofText l

def nats (l : List Nat) : Json := ofList ofNat l

def ofMembers (l : List (String × Json)) : Json := .object (l.map fun m => (.ofText m.1, m.2))

def member? (j : Json) (name : String) : Option Json :=
  match j with
  | .object members => (members.find? (·.1.isText name)).map (·.2)
  | _ => none

def text? (j : Json) : Option String :=
  match j with
  | .string l => l.text?
  | _ => none

end Json

end RegionGuard

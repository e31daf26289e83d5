import RegionGuard.Json.Value
import RegionGuard.Table
set_option autoImplicit false

/-!
# Decoding JSON values

A decoder knows how much deeper containers may nest. A record may be written as an object, whose unknown
members are ignored, or as an array of its fields in order; a choice is a bare tag, or an object with
the tag as its only member.
-/

namespace RegionGuard

/-- Takes the number of containers that may still be opened, and a value. -/
abbrev Decoder (α : Type) := Nat → Json → Option α

namespace Decoder

def nesting : Nat := 128

/-- Opens one container. The last unit is never given out. -/
def enter : Nat → Option Nat
  | n + 2 => some (n + 1)
  | _ => none

def natBelow (bound : Nat) : Decoder Nat := fun _ j =>
  match j with
  | .integer (.ofNat n) => if n < bound then some n else none
  | _ => none

def nat : Decoder Nat := natBelow Word.modulus

def word : Decoder Word := fun d j => (nat d j).map UInt64.ofNat

def signed : Decoder Int := fun _ j =>
  match j with
  | .integer i => signed? i
  | _ => none

def bool : Decoder Bool := fun _ j =>
  match j with
  | .bool b => some b
  | _ => none

def string : Decoder String := fun _ j => j.text?

def optional {α : Type} (d : Decoder α) : Decoder (Option α) := fun depth j =>
  match j with
  | .null => some none
  | j => (d depth j).map some

def list {α : Type} (d : Decoder α) : Decoder (List α) := fun depth j => do
  let depth ← enter depth
  match j with
  | .array items => items.mapM (d depth)
  | _ => none

def pair {α β : Type} (first : Decoder α) (second : Decoder β) : Decoder (α × β) := fun depth j => do
  let depth ← enter depth
  match j with
  | .array [a, b] => return (← first depth a, ← second depth b)
  | _ => none

def table {κ α : Type} [Ord κ] [Std.TransOrd κ] [Std.LawfulEqOrd κ] (key : Json.Literal → Option κ)
    (d : Decoder α) : Decoder (Table κ α) := fun depth j => do
  let depth ← enter depth
  match j with
  | .object members =>
    members.foldlM (fun t m => do
      let k ← key m.1
      let a ← d depth m.2
      return t.insert k a) Table.empty
  | _ => none

def keySet {κ : Type} [Ord κ] [Std.TransOrd κ] [Std.LawfulEqOrd κ] (d : Decoder κ) :
    Decoder (KeySet κ) := fun depth j => (list d depth j).map KeySet.ofKeys

/-- A key that is a number, spelled in decimal digits without leading zeros or escapes. -/
def natKey (l : Json.Literal) : Option Nat :=
  match l.spelling.toList with
  | [] => none
  | '0' :: _ :: _ => none
  | cs =>
    if cs.all Char.isDigit then
      let n := cs.foldl (fun n c => n * 10 + (c.toNat - '0'.toNat)) 0
      if n < Word.modulus then some n else none
    else none

inductive Slot where
  | present (j : Json)
  | missing
  | cut

structure Record where
  depth : Nat
  slots : List (String × Slot)

namespace Record

def slot (r : Record) (name : String) : Slot := (r.slots.lookup name).getD .missing

def required {α : Type} (r : Record) (name : String) (d : Decoder α) : Option α :=
  match r.slot name with
  | .present j => d r.depth j
  | _ => none

def optional {α : Type} (r : Record) (name : String) (d : Decoder α) : Option (Option α) :=
  match r.slot name with
  | .present j => Decoder.optional d r.depth j
  | .missing => some none
  | .cut => none

def defaulted {α : Type} (r : Record) (name : String) (a : α) (d : Decoder α) : Option α :=
  match r.slot name with
  | .present j => d r.depth j
  | _ => some a

end Record

/-- The slots of a record written as an object. Every name stands for a text, and a field does not occur
twice. -/
def slotsOfMembers (names : List String) (members : List (Json.Literal × Json)) :
    Option (List (String × Slot)) := do
  let members ← members.mapM fun m => do return (← m.1.text?, m.2)
  names.mapM fun name =>
    match members.filter (·.1 == name) with
    | [] => some (name, .missing)
    | [m] => some (name, .present m.2)
    | _ => none

def slotsOfItems : List String → List Json → Option (List (String × Slot))
  | [], [] => some []
  | [], _ :: _ => none
  | name :: names, [] => (slotsOfItems names []).map ((name, .cut) :: ·)
  | name :: names, j :: js => (slotsOfItems names js).map ((name, .present j) :: ·)

def record {α : Type} (names : List String) (build : Record → Option α) : Decoder α :=
  fun depth j => do
    let depth ← enter depth
    match j with
    | .object members => build ⟨depth, ← slotsOfMembers names members⟩
    | .array items => build ⟨depth, ← slotsOfItems names items⟩
    | _ => none

inductive Alternative (α : Type) where
  | unit (a : α)
  | content (d : Decoder α)

def choice {α : Type} (alternatives : List (String × Alternative α)) : Decoder α := fun depth j =>
  match j with
  | .string tag => do
    match alternatives.lookup (← tag.text?) with
    | some (.unit a) => some a
    | _ => none
  | .object [(tag, content)] => do
    let depth ← enter depth
    match alternatives.lookup (← tag.text?), content with
    | some (.unit a), .null => some a
    | some (.content d), j => d depth j
    | _, _ => none
  | _ => none

def tags {α : Type} (alternatives : List (String × α)) : Decoder α :=
  choice (alternatives.map fun a => (a.1, .unit a.2))

def map {α β : Type} (f : α → β) (d : Decoder α) : Decoder β := fun depth j => (d depth j).map f

/-- Decodes a whole value. -/
def run {α : Type} (d : Decoder α) (j : Json) : Option α := d nesting j

end Decoder

end RegionGuard

import RegionGuard.Json.Decoder
import RegionGuard.Stateful
set_option autoImplicit false

namespace RegionGuard

variable {α β σ τ ρ : Type}

class Emit (α : Type) where
  emit : α → Json
  components : α → List Json := fun a => [emit a]

export Emit (emit)

instance : Emit Json := { emit := id }
instance : Emit Unit := { emit := fun _ => .null }
instance : Emit Nat := { emit := .ofNat }
instance : Emit Int := { emit := .integer }
instance : Emit Word := { emit := .ofWord }
instance : Emit Bool := { emit := .bool }
instance : Emit String := { emit := .ofText }
instance [Emit α] : Emit (Option α) := { emit := .ofOption emit }
instance [Emit α] : Emit (List α) := { emit := .ofList emit }
instance [Emit α] [Emit β] : Emit (α × β) where
  emit p := .array (emit p.1 :: Emit.components p.2)
  components p := emit p.1 :: Emit.components p.2

/-- What a request can hold. A tuple is one array, at whose end optional components may be missing. -/
class Accept (α : Type) where
  accept : Json → Option α
  ofComponents : List Json → Option α := fun l =>
    match l with
    | [j] => accept j
    | _ => none

export Accept (accept)

namespace Accept

def optional [Accept α] : Json → Option (Option α)
  | .null => some none
  | j => (accept j).map some

def optionalComponent [Accept α] : List Json → Option (Option α)
  | [] => some none
  | [j] => optional j
  | _ => none

def list [Accept α] : Json → Option (List α)
  | .null => some []
  | .array l => l.mapM accept
  | _ => none

def pairComponents [Accept α] [Accept β] : List Json → Option (α × β)
  | a :: rest => return (← accept a, ← ofComponents rest)
  | [] => return (← ofComponents [], ← ofComponents [])

def integer : Json → Option Int
  | .integer i => some i
  | _ => none

def pair [Accept α] [Accept β] : Json → Option (α × β)
  | .array l => pairComponents l
  | _ => none

end Accept

instance : Accept Json := { accept := some }
instance : Accept Nat := { accept := Decoder.nat.run }
instance : Accept Word := { accept := Decoder.word.run }
instance : Accept Int := { accept := Accept.integer }
instance : Accept String := { accept := Decoder.string.run }
instance : Accept Bool := { accept := Decoder.bool.run }
instance [Accept α] : Accept (Option α) where
  accept := Accept.optional
  ofComponents := Accept.optionalComponent
instance [Accept α] : Accept (List α) := { accept := Accept.list }
instance [Accept α] [Accept β] : Accept (α × β) where
  accept := Accept.pair
  ofComponents := Accept.pairComponents

def Json.field [Accept α] (j : Json) (name : String) : Option α := accept ((j.member? name).getD .null)

class Call (τ : Type) (ρ : Type) where
  call : τ → List Json → Option ρ

export Call (call)

abbrev Step (σ : Type) := Stateful σ Json

namespace Call

def done (r : ρ) : List Json → Option ρ
  | [] => some r
  | _ => none

/-- Takes the next argument; optional ones may be missing at the end. -/
def next [Accept α] [Call τ ρ] (f : α → τ) : List Json → Option ρ
  | [] => do call (f (← Accept.ofComponents [])) []
  | a :: rest => do call (f (← accept a)) rest

def toStep [Emit α] (x : Stateful σ α) : Stateful σ Json := do
  let a ← x
  return emit a

end Call

instance [Accept α] [Call τ ρ] : Call (α → τ) ρ := ⟨Call.next⟩
instance [Emit α] : Call (Stateful σ α) (Stateful σ Json) := ⟨fun x => Call.done (Call.toStep x)⟩

abbrev Script (ρ : Type) := List (String × (List Json → Option ρ))

namespace Script

def select (script : Script ρ) (j : Json) : Option (String × ρ) :=
  match j with
  | .array (name :: arguments) => do
    let name ← name.text?
    let f ← script.lookup name
    return (name, ← f arguments)
  | _ => none

/-- Runs the steps of a session one after the other and collects what `answer` makes of each result and
the state after it. -/
def run (script : Script (Step σ)) (answer : String → Outcome Json → σ → Json) :
    σ → List Json → Option (List Json × σ)
  | s, [] => some ([], s)
  | s, j :: rest => do
    let (name, x) ← script.select j
    let (o, s') := x.runFrom s
    let (answers, last) ← run script answer s' rest
    return (answer name o s' :: answers, last)

end Script

end RegionGuard

import RegionGuard.Space.Basic
import RegionGuard.Table
set_option autoImplicit false

namespace RegionGuard

structure Registry where
  spaces : List AddressSpace
  registered : KeySet Nat

namespace Registry

def empty : Registry := ⟨[], ∅⟩

def entries (r : Registry) : List (Nat × AddressSpace) :=
  (r.spaces.mapIdx fun handle s => (handle, s)).filter fun e => r.registered.contains e.1

def size (r : Registry) : Nat := r.registered.size

def create (r : Registry) (s : AddressSpace) : Outcome (Nat × Registry) :=
  if r.entries.any fun e => e.2.name == s.name then Failure.raise (.request (.nameTaken s.name))
  else
    let handle := r.spaces.length
    pure (handle, ⟨r.spaces ++ [s], r.registered.add handle⟩)

def get? (r : Registry) (handle : Nat) : Option AddressSpace := (r.entries.find? (·.1 == handle)).map (·.2)

def find? (r : Registry) (name : String) : Option (Nat × AddressSpace) :=
  r.entries.find? fun e => e.2.name == name

def put (r : Registry) (handle : Nat) (s : AddressSpace) : Registry :=
  { r with spaces := r.spaces.set handle s }

/-- Drops an address space with its threads and regions. -/
def destroy (r : Registry) (handle : Nat) : Outcome Registry :=
  match r.get? handle with
  | none => Failure.raise (.request (.unknownHandle handle))
  | some s => pure { r.put handle s.destroy with registered := r.registered.erase handle }

end Registry

end RegionGuard

import RegionGuard.Word
set_option autoImplicit false

namespace RegionGuard

/-- How memory is touched. -/
inductive Access where
  | read
  | write
deriving DecidableEq, Repr

namespace Access

def ofIsWrite (isWrite : Bool) : Access := if isWrite then .write else .read

def isWrite : Access → Bool
  | .read => false
  | .write => true

def text : Access → String
  | .read => "read"
  | .write => "write"

/-- The accesses a validation of this one also covers: a store proves its pointer readable too. -/
def covered : Access → List Access
  | .read => [.read]
  | .write => [.read, .write]

end Access

structure Fault where
  address : Word
  access : Access
  thread : Option Word
deriving DecidableEq, Repr

namespace Fault

def text (f : Fault) : String :=
  let place := f.access.text ++ " fault at 0x" ++ Hex.lower f.address.toNat
  match f.thread with
  | none => place
  | some thread => place ++ s!" in thread {thread.toNat}"

end Fault

end RegionGuard

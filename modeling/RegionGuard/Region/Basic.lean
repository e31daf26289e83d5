import RegionGuard.Access
import RegionGuard.Failure
set_option autoImplicit false

namespace RegionGuard

structure Protection where
  bits : UInt32
deriving DecidableEq, Repr

namespace Protection

def none : Protection := ⟨0⟩
def read : Protection := ⟨1⟩
def write : Protection := ⟨2⟩
def exec : Protection := ⟨4⟩
def kernel : Protection := ⟨8⟩
def pin : Protection := ⟨16⟩
def eager : Protection := ⟨32⟩

instance : Union Protection := ⟨fun a b => ⟨a.bits ||| b.bits⟩⟩
instance : Inter Protection := ⟨fun a b => ⟨a.bits &&& b.bits⟩⟩

def readWrite : Protection := read ∪ write
def readWriteExec : Protection := readWrite ∪ exec

def all : Protection := ⟨63⟩

def truncate (bits : UInt32) : Protection := ⟨bits⟩ ∩ all

def contains (a b : Protection) : Bool := a ∩ b = b

/-- Whether some bit is set in both. -/
def meets (a b : Protection) : Bool := a ∩ b ≠ none

def ofAccess : Access → Protection
  | .read => read
  | .write => write

/-- Whether an access is allowed: a write needs the write bit, a read either bit. -/
def allows (p : Protection) : Access → Bool
  | .write => p.contains write
  | .read => p.meets readWrite

/-- Whether a container grants what is asked for: no access more than it has, and nothing to others
than the kernel where it belongs to the kernel. -/
def isWithin (request container : Protection) : Bool :=
  (container ∩ readWriteExec).contains (request ∩ readWriteExec)
    && (request.contains kernel || !container.contains kernel)

def names : List (Protection × String) :=
  [(read, "READ"), (write, "WRITE"), (exec, "EXEC"), (kernel, "KERN"), (pin, "PIN"), (eager, "EAGER"),
    (readWrite, "RW"), (readWriteExec, "RWX")]

def text (p : Protection) : String :=
  if p = none then "NONE"
  else
    let known := (names.filter fun n => p.contains n.1).map (·.2)
    let unknown := p.bits &&& ~~~all.bits
    " | ".intercalate (known ++ if unknown = 0 then [] else ["0x" ++ Hex.lower unknown.toNat])

end Protection

structure Region where
  start : Word
  physicalStart : Word
  length : Word
  protection : Protection
  requested : Protection
deriving DecidableEq, Repr

/-- The fields on which two regions have to agree in order to match. -/
structure MatchMask where
  start : Bool
  physicalStart : Bool
  length : Bool
  protection : Bool
deriving DecidableEq, Repr

namespace MatchMask

def ofBits (bits : Nat) : MatchMask :=
  ⟨bits.testBit 0, bits.testBit 1, bits.testBit 2, bits.testBit 3⟩

def byStart : MatchMask := ⟨true, false, false, false⟩

end MatchMask

namespace Region

/-- An identity-mapped region that nothing was requested of yet. -/
def make (start length : Word) (protection : Protection) : Region :=
  ⟨start, start, length, protection, .none⟩

def startingAt (start : Word) : Region := make start 0 .none

/-- The first address past the region, the largest word at most. -/
def stop (r : Region) : Word := Word.addSaturating r.start r.length

def isIdentityMapped (r : Region) : Bool := r.start = r.physicalStart

def isEmpty (r : Region) : Bool := r.length = 0

def isPinned (r : Region) : Bool := r.protection.contains .pin

def containsAddress (r : Region) (address : Word) : Bool := r.start ≤ address ∧ address < r.stop

def overlaps (r other : Region) : Bool := r.start < other.stop ∧ other.start < r.stop

def containsRegion (r other : Region) : Bool := r.start ≤ other.start ∧ other.stop ≤ r.stop

def latch (r : Region) (a : Access) : Region := { r with requested := r.requested ∪ .ofAccess a }

def agrees (r query : Region) (m : MatchMask) : Bool :=
  (!m.start || r.start == query.start) && (!m.physicalStart || r.physicalStart == query.physicalStart)
    && (!m.length || r.length == query.length) && (!m.protection || r.protection == query.protection)

def text (r : Region) : String :=
  "[" ++ Word.hex r.start ++ ", " ++ Word.hex r.stop ++ ") " ++ r.protection.text

end Region

end RegionGuard

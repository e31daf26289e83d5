import RegionGuard.Failure
import RegionGuard.Table
set_option autoImplicit false

namespace RegionGuard

namespace Memory

def pageSize : Nat := 1024

theorem pageSize_pos : 0 < pageSize := by decide

end Memory

abbrev Page := Vector UInt8 Memory.pageSize

structure Memory where
  pages : Table Nat Page

namespace Memory

def empty : Memory := ⟨∅⟩

def pageCount (m : Memory) : Nat := m.pages.size

def offset (address : Nat) : Fin pageSize := ⟨address % pageSize, Nat.mod_lt _ pageSize_pos⟩

def byte (m : Memory) (address : Nat) : UInt8 :=
  match m.pages.get? (address / pageSize) with
  | some page => page.get (offset address)
  | none => 0

def setByte (m : Memory) (address : Nat) (b : UInt8) : Memory :=
  let number := address / pageSize
  let page := (m.pages.get? number).getD (Vector.replicate pageSize 0)
  ⟨m.pages.insert number (page.set (offset address).val b (offset address).isLt)⟩

/-- Refuses a range that starts in the first page or ends past the last address. -/
def check (address : Word) (length : Nat) : Outcome Unit :=
  if address.toNat < pageSize ∨ Word.modulus ≤ address.toNat + length then
    Failure.raise (.memoryFault address)
  else pure ()

def read (m : Memory) (address : Word) (length : Nat) : Outcome (List UInt8) := do
  check address length
  return (List.range length).map fun i => m.byte (address.toNat + i)

def setBytes (m : Memory) : Nat → List UInt8 → Memory
  | _, [] => m
  | address, b :: rest => setBytes (m.setByte address b) (address + 1) rest

def write (m : Memory) (address : Word) (bytes : List UInt8) : Outcome Memory := do
  check address bytes.length
  return m.setBytes address.toNat bytes

def ofLittleEndian : List UInt8 → Nat
  | [] => 0
  | b :: rest => b.toNat + 256 * ofLittleEndian rest

/-- The low bytes of a value, the first weighing least. -/
def toLittleEndian : Nat → Nat → List UInt8
  | 0, _ => []
  | count + 1, n => UInt8.ofNat (n % 256) :: toLittleEndian count (n / 256)

/-- Reads a value of at most eight bytes. -/
def readWord (m : Memory) (address : Word) (bytes : Nat) : Outcome Word := do
  let l ← m.read address (min bytes 8)
  return UInt64.ofNat (ofLittleEndian l)

def writeWord (m : Memory) (address value : Word) (bytes : Nat) : Outcome Memory :=
  m.write address (toLittleEndian (min bytes 8) value.toNat)

def copy (m : Memory) (source destination length : Word) : Outcome Memory := do
  if 0x8000000000000000 ≤ length.toNat then Failure.stop .capacity
  let bytes ← m.read source length.toNat
  m.write destination bytes

end Memory

end RegionGuard

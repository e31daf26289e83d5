import RegionGuard.Region.Index
import RegionGuard.Stateful
import RegionGuard.Text.Quoted
set_option autoImplicit false

namespace RegionGuard

inductive FixedRegion where
  | tracked (start : Word)
  | released (region : Region)

structure AddressSpace where
  name : String
  kind : IndexKind
  regions : RegionIndex
  threads : List Word
  /-- The thread switched in; the largest word stands for none. -/
  current : Word
  stack : Option FixedRegion
  blob : Option FixedRegion

namespace FixedRegion

def start : FixedRegion → Word
  | .tracked start => start
  | .released r => r.start

end FixedRegion

namespace AddressSpace

def noThread : Word := Word.maximum

def empty (name : String) (kind : IndexKind) : AddressSpace :=
  ⟨name, kind, .empty kind, [], noThread, none, none⟩

/-- The first region that agrees with a question. -/
def findRegion (s : AddressSpace) (query : Region) (m : MatchMask) : Outcome Region :=
  Failure.orRaise (s.regions.find? query m) (.regionNotFound query.start)

def regionAt? (s : AddressSpace) (address : Word) : Option Region := s.regions.containing? address

def resolve? (s : AddressSpace) : FixedRegion → Option Region
  | .tracked start => s.regions.find? (.startingAt start) .byStart
  | .released r => some r

def stackRegion? (s : AddressSpace) : Option Region := s.stack.bind s.resolve?

def blobRegion? (s : AddressSpace) : Option Region := s.blob.bind s.resolve?

/-- Whether a region may neither move nor go: it is pinned, or starts where the stack or the blob does. -/
def isFixed (s : AddressSpace) (r : Region) : Bool :=
  r.isPinned || (s.stack.toList ++ s.blob.toList).any fun f => f.start == r.start

def checkShape (r : Region) : Outcome Unit := do
  unless r.isIdentityMapped do
    Failure.raise (.invalidRegion (.notIdentityMapped r.start r.physicalStart))
  if r.isEmpty then Failure.raise (.invalidRegion (.zeroLength r.start))
  if (Word.add? r.start r.length).isNone then Failure.raise (.invalidRegion (.wraps r.start))

def checkRoom (s : AddressSpace) (r : Region) : Outcome Unit :=
  match s.regions.overlapping? r with
  | some found => Failure.raise (.regionOverlap found.start)
  | none => pure ()

def addRegion (r : Region) : Stateful AddressSpace Region := do
  checkShape r
  Stateful.ask (·.checkRoom r)
  Stateful.change fun s => do
    let regions ← s.regions.insert r
    return { s with regions := regions }
  return r

/-- Stops tracking the first region that agrees with a question. -/
def removeRegion (query : Region) (m : MatchMask) : Stateful AddressSpace Region := do
  let r ← Stateful.ask (·.findRegion query m)
  let s ← get
  if s.isFixed r then Failure.raise (.regionPinned r.start)
  let (removed, regions) ← Failure.orRaise (s.regions.remove? r .byStart) (.regionNotFound query.start)
  set { s with regions := regions }
  return removed

def build (name : String) (kind : IndexKind) (stack blob : Option Region) : Outcome AddressSpace :=
  let add : Stateful AddressSpace (Option FixedRegion × Option FixedRegion) := do
    let fix := fun (r? : Option Region) => match r? with
      | some r => do
        let added ← addRegion r
        return some (FixedRegion.tracked added.start)
      | none => return none
    return (← fix stack, ← fix blob)
  match add.runFrom (empty name kind) with
  | (.ok (stack, blob), s) => pure { s with stack := stack, blob := blob }
  | (.error f, _) => throw f

def keepsLatched (requested protection : Protection) : Bool :=
  !(requested.contains .write && !protection.contains .write)
    && !(requested.contains .read && !protection.meets .readWrite)

def protectRegion (query : Region) (protection : Protection) : Stateful AddressSpace Unit := do
  let r ← Stateful.ask (·.findRegion query .byStart)
  unless keepsLatched r.requested protection do
    Failure.stop (.latchedPermission protection.text query.start r.requested.text)
  modify fun s => { s with regions := s.regions.modify r.start fun r => { r with protection := protection } }

/-- Whether one region contains all of another and grants what it asks for. -/
def grants (s : AddressSpace) (query : Region) : Bool :=
  match s.regions.overlapping? query with
  | some container => container.containsRegion query && query.protection.isWithin container.protection
  | none => false

def latchFixed (a : Access) (s : AddressSpace) : FixedRegion → AddressSpace × FixedRegion
  | .tracked start => ({ s with regions := s.regions.modify start (·.latch a) }, .tracked start)
  | .released r => (s, .released (r.latch a))

def latchStack (a : Access) (s : AddressSpace) : AddressSpace :=
  match s.stack with
  | some f =>
    let (s, f) := latchFixed a s f
    { s with stack := some f }
  | none => s

def latchBlob (a : Access) (s : AddressSpace) : AddressSpace :=
  match s.blob with
  | some f =>
    let (s, f) := latchFixed a s f
    { s with blob := some f }
  | none => s

def admits (address : Word) (a : Access) : Option Region → Bool
  | some r => r.containsAddress address && r.protection.allows a
  | none => false

def requestPermission (address : Word) (a : Access) : Stateful AddressSpace Unit := do
  let s ← get
  if admits address a s.stackRegion? then set (latchStack a s)
  else if admits address a s.blobRegion? then set (latchBlob a s)
  else
    match s.regionAt? address with
    | some r =>
      if r.protection.allows a then set { s with regions := s.regions.modify r.start (·.latch a) }
      else Failure.raise (.violation address a)
    | none => Failure.raise (.violation address a)

def pin (address : Word) : Stateful AddressSpace Region := do
  let s ← get
  let r ← Failure.orRaise (s.regionAt? address) (.regionNotFound address)
  let pinned := { r with protection := r.protection ∪ .pin }
  set { s with regions := s.regions.modify r.start fun _ => pinned }
  return pinned

def currentThread? (s : AddressSpace) : Option Word := if s.current = noThread then none else some s.current

def addThread (thread : Word) : Stateful AddressSpace Unit := do
  let s ← get
  if s.threads.contains thread then Failure.raise (.request (.threadPresent thread s.name))
  set { s with threads := s.threads ++ [thread] }

def switchedOut (thread : Word) (s : AddressSpace) : AddressSpace :=
  if s.current = thread then { s with current := noThread } else s

def removeThread (thread : Word) : Stateful AddressSpace Unit := do
  let s ← get
  unless s.threads.contains thread do Failure.raise (.request (.threadAbsent thread s.name))
  set (switchedOut thread { s with threads := s.threads.erase thread })

def switchIn (thread : Word) : Stateful AddressSpace Unit := do
  let s ← get
  unless s.threads.contains thread do Failure.raise (.request (.threadAbsent thread s.name))
  set { s with current := thread }

def switchOut (thread : Word) : Stateful AddressSpace Unit := modify (switchedOut thread)

def exception (f : Fault) : Stateful AddressSpace Unit := do
  let s ← get
  Failure.raise (.unexpectedFault s.name f)

/-- A summary, and on demand a line for every region. -/
def report (s : AddressSpace) (isDetailed : Bool) : String :=
  let line := fun r : Region => "  " ++ r.text ++ " requested " ++ r.requested.text ++ "\n"
  "address space " ++ s.name ++ s!": {s.regions.size} regions, {s.threads.length} threads\n"
    ++ (if isDetailed then String.join (s.regions.toList.map line) else "")

def summary (s : AddressSpace) : String :=
  "Aspace \x7b name: " ++ Quoted.text s.name ++ ", config: TrackerConfig \x7b index: " ++ s.kind.text
    ++ s!" \x7d, regions: Some({s.regions.size}) \x7d"

def release (s : AddressSpace) (f : FixedRegion) : FixedRegion :=
  match s.resolve? f with
  | some r => .released r
  | none => f

/-- Drops every thread and every region. The fixed regions keep answering requests. -/
def destroy (s : AddressSpace) : AddressSpace :=
  { s with
    threads := []
    current := noThread
    regions := s.regions.clear
    stack := s.stack.map s.release
    blob := s.blob.map s.release }

end AddressSpace

end RegionGuard

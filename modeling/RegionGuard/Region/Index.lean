import RegionGuard.Region.Basic
import RegionGuard.Table
set_option autoImplicit false

namespace RegionGuard

inductive IndexKind where
  | keyed
  | sorted
deriving DecidableEq, Repr

def IndexKind.text : IndexKind → String
  | .keyed => "BTree"
  | .sorted => "SortedList"

inductive RegionIndex where
  | keyed (regions : Table Word Region)
  | sorted (regions : Array Region)

namespace RegionIndex

def empty : IndexKind → RegionIndex
  | .keyed => .keyed ∅
  | .sorted => .sorted #[]

/-- The first position from `low` to `high` whose region fails a test, if all regions in front of some
position pass it and all others fail. -/
def bisect (regions : Array Region) (p : Region → Bool) (low high : Nat) : Nat :=
  if low < high then
    let middle := (low + high) / 2
    match regions[middle]? with
    | some r =>
      if p r then bisect regions p (middle + 1) high else bisect regions p low middle
    | none => low
  else low
termination_by high - low

def partitionPoint (regions : Array Region) (p : Region → Bool) : Nat :=
  bisect regions p 0 regions.size

def lowerBound (regions : Array Region) (start : Word) : Nat :=
  partitionPoint regions fun r => r.start < start

def before? (regions : Array Region) : Nat → Option Region
  | 0 => none
  | position + 1 => regions[position]?

def positionOf? (regions : Array Region) (query : Region) (m : MatchMask) : Option Nat :=
  if m.start then
    let position := lowerBound regions query.start
    match regions[position]? with
    | some r => if r.agrees query m then some position else none
    | none => none
  else regions.findIdx? (·.agrees query m)

def keyOf? (regions : Table Word Region) (query : Region) (m : MatchMask) : Option Word :=
  if m.start then
    match regions.get? query.start with
    | some r => if r.agrees query m then some r.start else none
    | none => none
  else (regions.values.find? (·.agrees query m)).map (·.start)

/-- Adds a region, unless another has its start. -/
def insert (x : RegionIndex) (r : Region) : Outcome RegionIndex :=
  match x with
  | .keyed t =>
    if t.contains r.start then Failure.raise (.regionOverlap r.start) else pure (.keyed (t.insert r.start r))
  | .sorted a =>
    let position := lowerBound a r.start
    match a[position]? with
    | some found =>
      if found.start = r.start then Failure.raise (.regionOverlap r.start)
      else pure (.sorted (a.insertIdxIfInBounds position r))
    | none => pure (.sorted (a.insertIdxIfInBounds position r))

/-- The first region that agrees with a question under a mask. -/
def find? (x : RegionIndex) (query : Region) (m : MatchMask) : Option Region :=
  match x with
  | .keyed t => (keyOf? t query m).bind t.get?
  | .sorted a => (positionOf? a query m).bind fun position => a[position]?

/-- Takes out the first region that agrees with a question under a mask. -/
def remove? (x : RegionIndex) (query : Region) (m : MatchMask) : Option (Region × RegionIndex) :=
  match x with
  | .keyed t => do
    let key ← keyOf? t query m
    let r ← t.get? key
    return (r, .keyed (t.erase key))
  | .sorted a => do
    let position ← positionOf? a query m
    let r ← a[position]?
    return (r, .sorted (a.eraseIdxIfInBounds position))

/-- A region that overlaps another: of those that start below its end, the last. -/
def overlapping? (x : RegionIndex) (query : Region) : Option Region :=
  if query.length = 0 then none
  else
    let found := match x with
      | .keyed t => t.last? (· < query.stop)
      | .sorted a => before? a (lowerBound a query.stop)
    found.filter fun r => query.start < r.stop

def containing? (x : RegionIndex) (address : Word) : Option Region :=
  let found := match x with
    | .keyed t => t.last? (· ≤ address)
    | .sorted a => before? a (partitionPoint a (·.start ≤ address))
  found.filter (·.containsAddress address)

def nextFrom? (x : RegionIndex) (start : Word) : Option Region :=
  match x with
  | .keyed t => t.first? (start ≤ ·)
  | .sorted a => a[lowerBound a start]?

def toList : RegionIndex → List Region
  | .keyed t => t.values
  | .sorted a => a.toList

def size : RegionIndex → Nat
  | .keyed t => t.size
  | .sorted a => a.size

def clear : RegionIndex → RegionIndex
  | .keyed _ => .keyed ∅
  | .sorted _ => .sorted #[]

def modify (x : RegionIndex) (start : Word) (f : Region → Region) : RegionIndex :=
  match x with
  | .keyed t =>
    match t.get? start with
    | some r => .keyed (t.insert start (f r))
    | none => x
  | .sorted a =>
    let position := lowerBound a start
    match a[position]? with
    | some r => if r.start = start then .sorted (a.setIfInBounds position (f r)) else x
    | none => x

end RegionIndex

end RegionGuard

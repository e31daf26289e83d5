import Mathlib.Data.List.InsertIdx
import RegionGuard.Monitor
import RegionGuard.Proofs.Entries
import RegionGuard.Proofs.Related
set_option autoImplicit false

namespace RegionGuard

def Region.forget (r : Region) : Region := { r with requested := .none }

namespace Region

@[simp] theorem forget_start (r : Region) : r.forget.start = r.start := rfl
@[simp] theorem forget_length (r : Region) : r.forget.length = r.length := rfl
@[simp] theorem forget_protection (r : Region) : r.forget.protection = r.protection := rfl
@[simp] theorem forget_stop (r : Region) : r.forget.stop = r.stop := rfl
@[simp] theorem forget_agrees (r query : Region) (m : MatchMask) :
    r.forget.agrees query m = r.agrees query m := rfl
@[simp] theorem forget_containsAddress (r : Region) (a : Word) :
    r.forget.containsAddress a = r.containsAddress a := rfl
@[simp] theorem forget_latch (r : Region) (a : Access) : (r.latch a).forget = r.forget := rfl
@[simp] theorem forget_isPinned (r : Region) : r.forget.isPinned = r.isPinned := rfl

end Region

namespace RegionIndex

def forget : RegionIndex → RegionIndex
  | .keyed t => .keyed (t.map fun _ r => r.forget)
  | .sorted a => .sorted (a.map Region.forget)

theorem insertIdx_forget (a : Array Region) (position : Nat) (r : Region) :
    (a.map Region.forget).insertIdxIfInBounds position r.forget =
      (a.insertIdxIfInBounds position r).map Region.forget := by
  cases a with
  | mk l => simp [List.map_insertIdx]

theorem eraseIdx_forget (a : Array Region) (position : Nat) :
    (a.map Region.forget).eraseIdxIfInBounds position =
      (a.eraseIdxIfInBounds position).map Region.forget := by
  cases a with
  | mk l => simp [List.eraseIdx_map]

section Bisection

variable (a : Array Region) (p : Region → Bool) (hp : ∀ r, p r.forget = p r)

include hp in
theorem bisect_forget (low high : Nat) :
    bisect (a.map Region.forget) p low high = bisect a p low high := by
  fun_induction bisect a p low high with
  | case1 low high hlt middle r hr hpr ih =>
    rw [bisect, if_pos hlt]
    simp only [Array.getElem?_map, middle] at hr ⊢
    rw [hr]
    simp only [Option.map_some, hp, hpr, if_true]
    exact ih
  | case2 low high hlt middle r hr hpr ih =>
    rw [bisect, if_pos hlt]
    simp only [Array.getElem?_map, middle] at hr ⊢
    rw [hr]
    simp only [Option.map_some, hp, hpr]
    exact ih
  | case3 low high hlt middle hr =>
    rw [bisect, if_pos hlt]
    simp only [Array.getElem?_map, middle] at hr ⊢
    rw [hr]
    rfl
  | case4 low high hlt =>
    rw [bisect, if_neg hlt]

include hp in
theorem partitionPoint_forget : partitionPoint (a.map Region.forget) p = partitionPoint a p := by
  rw [partitionPoint, Array.size_map]
  exact bisect_forget a p hp 0 a.size

theorem lowerBound_forget (start : Word) : lowerBound (a.map Region.forget) start = lowerBound a start :=
  partitionPoint_forget a _ (fun _ => rfl)

theorem before?_forget (position : Nat) :
    before? (a.map Region.forget) position = (before? a position).map Region.forget := by
  cases position with
  | zero => rfl
  | succ position => exact Array.getElem?_map

theorem positionOf?_forget (query : Region) (m : MatchMask) :
    positionOf? (a.map Region.forget) query m = positionOf? a query m := by
  unfold positionOf?
  rw [lowerBound_forget]
  split
  · simp only [Array.getElem?_map]
    cases a[lowerBound a query.start]? <;> rfl
  · simp [Array.findIdx?_map, Function.comp_def]

end Bisection

theorem keyOf?_forget (t : Table Word Region) (query : Region) (m : MatchMask) :
    keyOf? (t.map fun _ => Region.forget) query m = keyOf? t query m := by
  unfold keyOf?
  split
  · rw [Table.get?_map]
    cases t.get? query.start <;> rfl
  · rw [Table.values_map, List.find?_map, Option.map_map]
    rfl

theorem find?_forget (x : RegionIndex) (query : Region) (m : MatchMask) :
    x.forget.find? query m = (x.find? query m).map Region.forget := by
  cases x with
  | keyed t =>
    simp only [forget, find?, keyOf?_forget]
    cases keyOf? t query m with
    | none => rfl
    | some key => exact Table.get?_map _ t key
  | sorted a =>
    simp only [forget, find?, positionOf?_forget]
    cases positionOf? a query m with
    | none => rfl
    | some position => exact Array.getElem?_map

theorem remove?_forget (x : RegionIndex) (query : Region) (m : MatchMask) :
    x.forget.remove? query m = (x.remove? query m).map fun e => (e.1.forget, e.2.forget) := by
  cases x with
  | keyed t =>
    simp only [forget, remove?, keyOf?_forget, Table.get?_map]
    cases keyOf? t query m with
    | none => rfl
    | some key =>
      cases hr : t.get? key with
      | none => simp [hr]
      | some r => simp [hr, Table.map_erase]
  | sorted a =>
    simp only [forget, remove?, positionOf?_forget, Array.getElem?_map]
    cases positionOf? a query m with
    | none => rfl
    | some position =>
      cases hr : a[position]? with
      | none => simp [hr]
      | some r => simp [hr, eraseIdx_forget]

/-- A question by start names nothing but the start. -/
theorem remove?_byStart (x : RegionIndex) {r q : Region} (h : r.start = q.start) :
    x.remove? r .byStart = x.remove? q .byStart := by
  cases x with
  | keyed t => simp [remove?, keyOf?, Region.agrees, MatchMask.byStart, h]
  | sorted a => simp [remove?, positionOf?, Region.agrees, MatchMask.byStart, h]

theorem overlapping?_forget (x : RegionIndex) (query : Region) :
    x.forget.overlapping? query = (x.overlapping? query).map Region.forget := by
  unfold overlapping?
  split
  · rfl
  · cases x with
    | keyed t => simp only [forget, Table.last?_map, Option.filter_map]; rfl
    | sorted a => simp only [forget, lowerBound_forget, before?_forget, Option.filter_map]; rfl

theorem containing?_forget (x : RegionIndex) (address : Word) :
    x.forget.containing? address = (x.containing? address).map Region.forget := by
  unfold containing?
  cases x with
  | keyed t => simp only [forget, Table.last?_map, Option.filter_map]; rfl
  | sorted a =>
    simp only [forget]
    rw [partitionPoint_forget a _ (fun _ => rfl), before?_forget, Option.filter_map]
    rfl

theorem insert_forget (x : RegionIndex) (r : Region) :
    x.forget.insert r.forget = (x.insert r).map forget := by
  cases x with
  | keyed t =>
    simp only [forget, insert, Table.contains_map, Region.forget_start]
    split
    · rfl
    · rw [← Table.map_insert]
      rfl
  | sorted a =>
    simp only [forget, insert, lowerBound_forget, Array.getElem?_map, Region.forget_start]
    cases a[lowerBound a r.start]? with
    | none =>
      simp only [Option.map_none, insertIdx_forget]
      rfl
    | some found =>
      simp only [Option.map_some, Region.forget_start, insertIdx_forget]
      split <;> rfl

theorem modify_forget (x : RegionIndex) (start : Word) {f g : Region → Region}
    (h : ∀ r, (f r).forget = g r.forget) : (x.modify start f).forget = x.forget.modify start g := by
  cases x with
  | keyed t =>
    simp only [forget, modify, Table.get?_map]
    cases t.get? start with
    | none => rfl
    | some r =>
      simp only [Option.map_some, ← h, ← Table.map_insert]
  | sorted a =>
    unfold modify
    simp only [forget, lowerBound_forget, Array.getElem?_map]
    cases a[lowerBound a start]? with
    | none => rfl
    | some r =>
      simp only [Option.map_some, Region.forget_start]
      by_cases hs : r.start = start
      · simp only [hs, if_true, ← h, ← Array.map_setIfInBounds]
      · simp only [hs, if_false]

theorem modify_cases (x : RegionIndex) (start : Word) (f : Region → Region) :
    x.modify start f = x ∨
      (∃ t r, x = .keyed t ∧ t.get? start = some r ∧ x.modify start f = .keyed (t.insert start (f r))) ∨
      ∃ a i r, x = .sorted a ∧ a[i]? = some r ∧ x.modify start f = .sorted (a.setIfInBounds i (f r)) := by
  cases x with
  | keyed t =>
    cases h : t.get? start with
    | none => exact .inl (by simp [modify, h])
    | some r => exact .inr (.inl ⟨t, r, rfl, h, by simp [modify, h]⟩)
  | sorted a =>
    cases h : a[lowerBound a start]? with
    | none => exact .inl (by simp [modify, h])
    | some r =>
      by_cases hr : r.start = start
      · exact .inr (.inr ⟨a, lowerBound a start, r, rfl, h, by simp [modify, h, hr]⟩)
      · exact .inl (by simp [modify, h, hr])

theorem modify_latch_forget (x : RegionIndex) (start : Word) (a : Access) :
    (x.modify start (·.latch a)).forget = x.forget := by
  rcases modify_cases x start (·.latch a) with h | ⟨t, r, rfl, hr, h⟩ | ⟨regions, i, r, rfl, hr, h⟩
  · rw [h]
  · rw [h]
    have hf : (t.map fun _ => Region.forget).get? start = some r.forget := by
      rw [Table.get?_map, hr]
      rfl
    simp only [forget, Table.map_insert, Region.forget_latch, Table.insert_of_get? hf]
  · rw [h]
    simp only [forget, Array.map_setIfInBounds, Region.forget_latch]
    congr 1
    apply Array.ext_getElem?
    intro j
    rw [Array.getElem?_setIfInBounds, Array.size_map, Array.getElem?_map]
    split
    · rename_i hj
      have hi := Array.getElem?_eq_some_iff.mp hr
      rw [← hj, hr]
      simp [hi.1]
    · rfl

end RegionIndex

def FixedRegion.forget : FixedRegion → FixedRegion
  | .tracked start => .tracked start
  | .released r => .released r.forget

def FixedRegion.isTracked : FixedRegion → Bool
  | .tracked _ => true
  | .released _ => false

@[simp] theorem FixedRegion.start_forget (f : FixedRegion) : f.forget.start = f.start := by
  cases f <;> rfl

namespace AddressSpace

def forget (s : AddressSpace) : AddressSpace :=
  { s with
    regions := s.regions.forget
    stack := s.stack.map FixedRegion.forget
    blob := s.blob.map FixedRegion.forget }

theorem resolve?_forget (s : AddressSpace) (f : FixedRegion) :
    s.forget.resolve? f.forget = (s.resolve? f).map Region.forget := by
  cases f with
  | tracked start => exact RegionIndex.find?_forget _ _ _
  | released r => rfl

theorem stackRegion?_forget (s : AddressSpace) :
    s.forget.stackRegion? = s.stackRegion?.map Region.forget := by
  unfold stackRegion?
  cases h : s.stack with
  | none => simp [forget, h]
  | some f => simpa [forget, h] using resolve?_forget s f

theorem blobRegion?_forget (s : AddressSpace) :
    s.forget.blobRegion? = s.blobRegion?.map Region.forget := by
  unfold blobRegion?
  cases h : s.blob with
  | none => simp [forget, h]
  | some f => simpa [forget, h] using resolve?_forget s f

theorem regionAt?_forget (s : AddressSpace) (address : Word) :
    s.forget.regionAt? address = (s.regionAt? address).map Region.forget :=
  RegionIndex.containing?_forget _ _

theorem isFixed_forget (s : AddressSpace) (r : Region) : s.forget.isFixed r.forget = s.isFixed r := by
  unfold isFixed
  cases hs : s.stack <;> cases hb : s.blob <;> simp [forget, hs, hb]

theorem findRegion_forget (s : AddressSpace) (query : Region) (m : MatchMask) :
    s.forget.findRegion query m = (s.findRegion query m).map Region.forget := by
  unfold findRegion
  rw [show s.forget.regions = s.regions.forget from rfl, RegionIndex.find?_forget]
  cases s.regions.find? query m <;> rfl

theorem checkRoom_forget (s : AddressSpace) (r : Region) : s.forget.checkRoom r = s.checkRoom r := by
  unfold checkRoom
  rw [show s.forget.regions = s.regions.forget from rfl, RegionIndex.overlapping?_forget]
  cases s.regions.overlapping? r <;> rfl

theorem admits_forget (address : Word) (a : Access) (r : Option Region) :
    admits address a (r.map Region.forget) = admits address a r := by
  cases r <;> rfl

theorem latchFixed_forget (a : Access) (s : AddressSpace) (f : FixedRegion) :
    (latchFixed a s f).1.forget = s.forget ∧ (latchFixed a s f).2.forget = f.forget := by
  cases f with
  | tracked start =>
    refine ⟨?_, rfl⟩
    simp only [latchFixed, forget, RegionIndex.modify_latch_forget]
  | released r => exact ⟨rfl, rfl⟩

end AddressSpace

end RegionGuard

import RegionGuard.Proofs.Lodgings
set_option autoImplicit false

namespace RegionGuard

open Stateful

structure Holding where
  size : Word
  /-- Whether the monitor was told of the block, and not since that it was given back. -/
  isKnown : Bool
deriving DecidableEq, Repr

/-- The allocation for a block, if the monitor knows of it and it has bytes. -/
def Holding.allocation? (place : Word) (h : Holding) : Option Allocation :=
  if h.isKnown ∧ h.size ≠ 0 then some ⟨place, h.size, .heap⟩ else none

abbrev Holdings := Table Word Holding

namespace Holdings

def take (held : Holdings) (place size : Word) : Holdings := if place = 0 then held else held.insert place ⟨size, true⟩

def forget (held : Holdings) (place : Word) : Holdings :=
  held.map fun w h => if w = place then { h with isKnown := false } else h

/-- With a new block in place of an old one. A block that could not be resized is still held. -/
def resize (held : Holdings) (old place size : Word) : Holdings :=
  if place = 0 ∧ size ≠ 0 then held.forget old else take (held.erase old) place size

theorem get?_forget (held : Holdings) (place w : Word) :
    (held.forget place).get? w = (held.get? w).map fun h => if w = place then { h with isKnown := false } else h :=
  Table.get?_map_keyed _ _ _

theorem get?_forget_self {held : Holdings} {place : Word} {b : Holding} (hb : held.get? place = some b) :
    (held.forget place).get? place = some { b with isKnown := false } := by
  rw [get?_forget, hb, Option.map_some, if_pos rfl]

theorem get?_take {held : Holdings} {place : Word} (hplace : place ≠ 0) (size w : Word) :
    (held.take place size).get? w = if w = place then some ⟨size, true⟩ else held.get? w := by
  unfold take
  rw [if_neg hplace]
  exact Table.get?_insert _ _ _ _

theorem get?_erase_forget (held : Holdings) (place w : Word) :
    ((held.forget place).erase place).get? w = (held.erase place).get? w := by
  rw [Table.get?_erase, Table.get?_erase, get?_forget]
  split
  · rfl
  · cases held.get? w <;> rfl

theorem resize_failed {held : Holdings} {old size : Word} (hsize : size ≠ 0) : held.resize old 0 size = held.forget old :=
  if_pos ⟨rfl, hsize⟩

theorem resize_done {held : Holdings} {old place size : Word} (hplace : place ≠ 0) :
    held.resize old place size = take (held.erase old) place size :=
  if_neg fun hnone => hplace hnone.1

theorem get?_of_none {held : Holdings} {place : Word} (hnone : held.get? place = none) (w : Word) :
    (held.forget place).get? w = held.get? w ∧ (held.erase place).get? w = held.get? w := by
  rw [get?_forget, Table.get?_erase]
  by_cases hw : w = place
  · rw [hw, hnone, if_pos rfl]
    exact ⟨rfl, rfl⟩
  · exact ⟨by simp only [if_neg hw, Option.map_id'], if_neg hw⟩

theorem get?_resize_of_none {held : Holdings} {old : Word} (hnone : held.get? old = none) (place size w : Word) :
    (held.resize old place size).get? w = (held.take place size).get? w := by
  by_cases hplace : place = 0
  · subst hplace
    unfold resize
    split
    · exact (get?_of_none hnone w).1
    · exact (get?_of_none hnone w).2
  · rw [resize_done hplace, get?_take hplace, get?_take hplace, (get?_of_none hnone w).2]

end Holdings

namespace Monitor

variable {m m' : Monitor} {heap : Heap} {held held' : Holdings} {place size granted : Word}

structure Balance (m : Monitor) (heap : Heap) (held : Holdings) : Prop where
  lodged : m.space.Lodged heap Set.univ
  inStep : m.InStep True
  movable : ∀ r ∈ m.space.regions.toList, m.space.fixes r.start = false → r.isPinned = false
  base : heap.base = Machine.heapBase
  stop : heap.stop = Machine.heapBase + Machine.heapSize
  blocks : ∀ w, (heap.blocks.get? w).isSome = (held.get? w).isSome
  room : ∀ w h granted, held.get? w = some h → heap.blocks.get? w = some granted → h.size ≤ granted
  allocations : ∀ w, m.ledger.allocation? w = (held.get? w).bind (Holding.allocation? w)

namespace Balance

theorem congr (h : Balance m heap held) (hspace : m'.space = m.space)
    (hallocations : m'.ledger.allocations = m.ledger.allocations) : Balance m' heap held where
  lodged := hspace ▸ h.lodged
  inStep := Tracker.InStep.congr h.inStep hspace hallocations
  movable := hspace ▸ h.movable
  base := h.base
  stop := h.stop
  blocks := h.blocks
  room := h.room
  allocations w := (congrArg (·.get? w) hallocations).trans (h.allocations w)

theorem of_held (h : Balance m heap held) (hheld : ∀ w, held'.get? w = held.get? w) : Balance m heap held' where
  lodged := h.lodged
  inStep := h.inStep
  movable := h.movable
  base := h.base
  stop := h.stop
  blocks w := (h.blocks w).trans (congrArg _ (hheld w).symm)
  room w b granted hb := h.room w b granted ((hheld w).symm.trans hb)
  allocations w := by
    rw [hheld w]
    exact h.allocations w

theorem get?_eq_none_iff (h : Balance m heap held) : held.get? place = none ↔ heap.blocks.get? place = none := by
  rw [← Option.not_isSome_iff_eq_none, ← Option.not_isSome_iff_eq_none, h.blocks place]

theorem block (h : Balance m heap held) {b : Holding} (hb : held.get? place = some b) :
    ∃ granted, heap.blocks.get? place = some granted ∧ b.size ≤ granted ∧ heap.Room place granted := by
  have hsome : (heap.blocks.get? place).isSome := (h.blocks place).trans (congrArg _ hb)
  obtain ⟨granted, hgranted⟩ := Option.isSome_iff_exists.mp hsome
  exact ⟨granted, hgranted, h.room place b granted hb hgranted, h.lodged.laid.room hgranted⟩

theorem behind (h : Balance m heap held) (hroom : heap.Room place size) : Memory.pageSize ≤ place.toNat ∧ place ≠ 0 := by
  have hbase := UInt64.le_iff_toNat_le.mp (h.base ▸ hroom.base)
  have hpage : Memory.pageSize ≤ Machine.heapBase.toNat := by decide
  refine ⟨Nat.le_trans hpage hbase, ?_⟩
  rintro rfl
  exact absurd hbase (by decide)

theorem null (h : Balance m heap held) : held.get? 0 = none := by
  cases hb : held.get? 0 with
  | none => rfl
  | some b =>
    obtain ⟨granted, -, -, hroom⟩ := h.block hb
    exact absurd rfl (h.behind hroom).2

theorem takes (h : Balance m heap held) (hroom : heap.Room place granted) (hnone : heap.blocks.get? place = none)
    (hle : size ≤ granted) :
    Balance m { heap with blocks := heap.blocks.insert place granted } (held.insert place ⟨size, false⟩) where
  lodged := (h.lodged.takes hroom hnone).mono (Set.subset_univ _)
  inStep := h.inStep
  movable := h.movable
  base := h.base
  stop := h.stop
  blocks w := by
    rw [Table.get?_insert, Table.get?_insert, apply_ite Option.isSome, apply_ite Option.isSome, h.blocks w]
    rfl
  room w b n hb hn := by
    rw [Table.get?_insert] at hb hn
    split at hb
    · rename_i hw
      rw [if_pos hw] at hn
      cases hb
      exact Option.some.inj hn ▸ hle
    · rename_i hw
      rw [if_neg hw] at hn
      exact h.room w b n hb hn
  allocations w := by
    rw [Table.get?_insert]
    split
    · rename_i hw
      rw [hw, h.allocations place, h.get?_eq_none_iff.mpr hnone]
      rfl
    · exact h.allocations w

theorem vacant (h : Balance m heap held) {b : Holding} (hb : held.get? place = some b)
    (hnone : m.ledger.allocation? place = none) (n : Word) : (place, n) ∉ m.space.extents := by
  intro hn
  obtain ⟨granted, -, -, hroom⟩ := h.block hb
  obtain ⟨a, ha⟩ := h.inStep.listed trivial place n hn (h.lodged.free_of_room hroom)
  cases hnone.symm.trans ha

/-- A block may be given back once the monitor does not know of it. -/
theorem gives (h : Balance m heap held) {b : Holding} (hb : held.get? place = some b)
    (hnone : m.ledger.allocation? place = none) : Balance m (heap.free place) (held.erase place) where
  lodged := h.lodged.gives (h.vacant hb hnone) (Set.subset_insert _ _)
  inStep := h.inStep
  movable := h.movable
  base := h.base
  stop := h.stop
  blocks w := by
    rw [Table.get?_erase]
    change ((heap.blocks.erase place).get? w).isSome = _
    rw [Table.get?_erase, apply_ite Option.isSome, apply_ite Option.isSome, h.blocks w]
    rfl
  room w b n hb hn := by
    change (heap.blocks.erase place).get? w = some n at hn
    rw [Table.get?_erase] at hb hn
    split at hb
    · cases hb
    · rename_i hw
      rw [if_neg hw] at hn
      exact h.room w b n hb hn
  allocations w := by
    rw [Table.get?_erase]
    split
    · rename_i hw
      exact hw ▸ hnone
    · exact h.allocations w

theorem tracks (h : Balance m heap held) (hb : held.get? place = some ⟨size, false⟩) :
    (track place size .heap).Leads m (fun _ m' => m'.heap = m.heap ∧ Balance m' heap (held.insert place ⟨size, true⟩))
      fun _ _ => False := by
  obtain ⟨granted, hblock, hle, hroom⟩ := h.block hb
  have hnone : m.ledger.allocation? place = none := by
    rw [h.allocations, hb]
    rfl
  have hblocks : ∀ w, (heap.blocks.get? w).isSome = ((held.insert place ⟨size, true⟩).get? w).isSome := by
    intro w
    rw [h.blocks, Table.get?_insert]
    split
    · rename_i hw
      rw [hw, hb]
      rfl
    · rfl
  have hrooms : ∀ w b granted, (held.insert place ⟨size, true⟩).get? w = some b → heap.blocks.get? w = some granted →
      b.size ≤ granted := by
    intro w b granted hheld hgranted
    rw [Table.get?_insert] at hheld
    split at hheld
    · rename_i hw
      cases hheld
      exact h.room w ⟨size, false⟩ granted (hw ▸ hb) hgranted
    · exact h.room w b granted hheld hgranted
  -- A block without bytes is passed over, but counts as known.
  by_cases hsize : size = 0
  · unfold track
    refine .branch (fun _ => .answer ⟨rfl, { h with blocks := hblocks, room := hrooms, allocations := fun w => ?_ }⟩)
      fun hsome => absurd (.inr hsize) hsome
    rw [Table.get?_insert]
    split
    · rename_i hw
      rw [hw, hnone, hsize]
      rfl
    · exact h.allocations w
  have hnull := (h.behind hroom).2
  have hfills := track_fills h.lodged hblock (h.vacant hb hnone) hnull hsize hle .heap (Set.subset_insert _ _)
  refine ((track_leads m place size .heap).and ((track_inStep h.inStep place size .heap).and hfills)).mono
    (fun _ m' hm' => ?_) fun _ _ hm' => hm'.2.2
  obtain ⟨⟨hheap, hledger⟩, hstep, hlodged, hfixes, hmem⟩ := hm'
  rw [if_neg (not_or.mpr ⟨hnull, hsize⟩)] at hledger
  refine ⟨hheap, hlodged, hstep, fun r hr hfree => ?_, h.base, h.stop, hblocks, hrooms, fun w => ?_⟩
  · rcases (hmem r).mp hr with rfl | hr
    · change dataProtection.contains .pin = false
      decide
    · exact h.movable r hr (hfixes ▸ hfree)
  · have hget : m'.ledger.allocation? w = if w = place then some ⟨place, size, .heap⟩ else m.ledger.allocation? w := by
      rw [hledger]
      exact Table.get?_insert _ _ _ _
    rw [hget, Table.get?_insert]
    split
    · rename_i hw
      rw [hw]
      exact (if_pos ⟨rfl, hsize⟩).symm
    · exact h.allocations w

/-- The monitor is told that it need not know of a block any more. -/
theorem forgets (h : Balance m heap held) {b : Holding} (hb : held.get? place = some b) :
    (untrack place).Leads m
      (fun _ m' => m'.heap = m.heap ∧ Balance m' heap (held.forget place) ∧ m'.ledger.allocation? place = none)
      fun _ _ => False := by
  obtain ⟨granted, -, -, hroom⟩ := h.block hb
  have hunpinned : True → ∀ r ∈ m.tracker.regions, r.start = place → r.isPinned = false := by
    rintro - r hr rfl
    exact h.movable r hr (h.lodged.free_of_room hroom)
  refine ((untrack_leads m place).and ((untrack_inStep h.inStep hunpinned).and
    (untrack_leaves h.lodged h.inStep place h.movable))).mono (fun _ m' hm' => ?_) fun _ _ hm' => hm'.2.2
  obtain ⟨⟨hheap, hledger⟩, hstep, hlodged, hfixes, hsubset⟩ := hm'
  -- Whether the monitor knew of the block or not, it does not know of it any more.
  have hget : ∀ w, m'.ledger.allocation? w = if w = place then none else m.ledger.allocation? w := by
    intro w
    rw [hledger]
    cases ha : m.ledger.allocation? place with
    | none =>
      rw [Ledger.untrack?_of_none ha]
      split
      · rename_i hw
        exact hw ▸ ha
      · rfl
    | some a =>
      obtain rfl := (h.inStep.backed place a ha).1
      rw [Ledger.untrack?_of_some ha rfl]
      exact Table.get?_erase _ _ _
  refine ⟨hheap, ⟨hlodged.mono (Set.subset_univ _), hstep, fun r hr hfree => h.movable r (hsubset r hr) (hfixes ▸ hfree),
    h.base, h.stop, fun w => ?_, fun w b granted hb hgranted => ?_, fun w => ?_⟩, (hget place).trans (if_pos rfl)⟩
  · rw [Holdings.get?_forget, Option.isSome_map, h.blocks]
  · rw [Holdings.get?_forget] at hb
    obtain ⟨old, hold, rfl⟩ := Option.map_eq_some_iff.mp hb
    have := h.room w old granted hold hgranted
    split <;> exact this
  · rw [hget, Holdings.get?_forget, h.allocations]
    split
    · cases held.get? w <;> rfl
    · cases held.get? w <;> rfl

theorem notified (h : Balance m heap held) (hplace : place = 0 ∨ held.get? place = some ⟨size, false⟩) :
    (notifyMalloc place size).Leads m (fun _ m' => m'.heap = m.heap ∧ Balance m' heap (held.take place size))
      fun _ _ => False := by
  unfold notifyMalloc
  refine .bind (.update ?_)
  have h' : Balance { m with counters := { m.counters with allocations := m.counters.allocations + 1 } } heap held :=
    h.congr rfl rfl
  rcases hplace with rfl | hb
  · unfold track
    exact .branch (fun _ => .answer ⟨rfl, h'⟩) fun hsome => absurd (.inl rfl) hsome
  · refine (h'.tracks hb).mono (fun _ m' hm' => ⟨hm'.1, ?_⟩) fun _ _ he => he
    obtain ⟨granted, -, -, hroom⟩ := h.block hb
    unfold Holdings.take
    rw [if_neg (h.behind hroom).2]
    exact hm'.2

end Balance

/-- A monitor balances while nothing is held, if the text lies below the heap. -/
theorem balance_of_build {name : String} {kind : IndexKind} {stack blob : Option Region} {space : AddressSpace}
    (hbuild : AddressSpace.build name kind stack blob = .ok space) (hbase : heap.base = Machine.heapBase)
    (hstop : heap.stop = Machine.heapBase + Machine.heapSize) (hempty : heap.blocks = ∅)
    (hapart : ∀ r, stack = some r ∨ blob = some r → ∀ w, r.containsAddress w = true → heap.covers w = false) :
    Balance (make space heap) heap ∅ where
  lodged := (AddressSpace.lodged_of_build hbuild hempty hapart).mono (Set.empty_subset _)
  inStep := inStep_of_build heap hbuild
  movable r hr hfree := by
    have hfixed := ((AddressSpace.fixes_of_build hbuild).2 r.start).mpr ⟨_, AddressSpace.mem_extents.mpr ⟨r, hr, rfl, rfl⟩⟩
    exact absurd (hfree.symm.trans hfixed) Bool.false_ne_true
  base := hbase
  stop := hstop
  blocks w := by
    rw [hempty]
    rfl
  room _ _ _ hb := nomatch hb
  allocations _ := rfl

end Monitor

end RegionGuard

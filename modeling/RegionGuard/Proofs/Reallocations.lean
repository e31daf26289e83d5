import RegionGuard.Proofs.Lodgings
set_option autoImplicit false

namespace RegionGuard

open Stateful

namespace Memory

variable {m m' : Memory}

/-- Whether an address lies outside some bytes. -/
def Outside (address : Nat) (start : Word) (length : Nat) : Prop :=
  address < start.toNat ∨ start.toNat + length ≤ address

theorem byte_setByte_of_ne {address place : Nat} (hne : address ≠ place) (b : UInt8) :
    (m.setByte place b).byte address = m.byte address := by
  unfold setByte byte
  dsimp only
  rw [Table.get?_insert]
  by_cases hpage : address / pageSize = place / pageSize
  · have hoffset : (offset place).val ≠ (offset address).val := by
      intro heq
      have hmod : place % pageSize = address % pageSize := heq
      rw [← Nat.div_add_mod address pageSize, ← Nat.div_add_mod place pageSize, hpage, hmod] at hne
      exact hne rfl
    rw [if_pos hpage, hpage]
    refine (Vector.getElem_set_ne (offset place).isLt (offset address).isLt hoffset).trans ?_
    cases m.pages.get? (place / pageSize) with
    | some page => rfl
    | none => exact Vector.getElem_replicate _
  · rw [if_neg hpage]

theorem byte_setBytes {address : Nat} {bytes : List UInt8} {start : Nat}
    (h : address < start ∨ start + bytes.length ≤ address) : (m.setBytes start bytes).byte address = m.byte address := by
  induction bytes generalizing m start with
  | nil => rfl
  | cons b rest ih =>
    rw [List.length_cons] at h
    unfold setBytes
    rw [ih (by omega), byte_setByte_of_ne (by omega)]

theorem byte_write {place : Word} {bytes : List UInt8} (h : m.write place bytes = .ok m') {address : Nat}
    (houtside : Outside address place bytes.length) : m'.byte address = m.byte address := by
  obtain ⟨-, -, h⟩ := bind_eq_ok.mp h
  cases h
  exact byte_setBytes houtside

theorem length_toLittleEndian (count n : Nat) : (toLittleEndian count n).length = count := by
  induction count generalizing n with
  | zero => rfl
  | succ count ih => exact congrArg (· + 1) (ih _)

theorem byte_writeWord {place value : Word} (h : m.writeWord place value 8 = .ok m') {address : Nat}
    (houtside : Outside address place 8) : m'.byte address = m.byte address := by
  refine byte_write h ?_
  rw [length_toLittleEndian]
  exact houtside

theorem byte_copy {source destination length : Word} (h : m.copy source destination length = .ok m') {address : Nat}
    (houtside : Outside address destination length.toNat) : m'.byte address = m.byte address := by
  unfold copy at h
  dsimp only at h
  split at h
  · cases h
  · obtain ⟨bytes, hread, h⟩ := bind_eq_ok.mp h
    obtain ⟨-, -, hread⟩ := bind_eq_ok.mp hread
    cases hread
    refine byte_write h ?_
    rw [List.length_map, List.length_range]
    exact houtside

theorem readWord_congr {place : Word} (h : ∀ i < 8, m'.byte (place.toNat + i) = m.byte (place.toNat + i)) :
    m'.readWord place 8 = m.readWord place 8 := by
  have hbytes : (List.range 8).map (fun i => m'.byte (place.toNat + i)) = (List.range 8).map fun i => m.byte (place.toNat + i) :=
    List.map_congr_left fun i hi => h i (List.mem_range.mp hi)
  have hread : m'.read place 8 = m.read place 8 := by
    unfold read
    rw [hbytes]
  unfold readWord
  rw [show min 8 8 = 8 from rfl, hread]

end Memory

namespace Ledger

variable {l : Ledger} {source destination length : Word} {address : Nat}

/-- Whether a move leaves a byte alone: it lies neither where the bytes go nor in a cell that may be redirected. -/
structure Spares (l : Ledger) (source destination length : Word) (address : Nat) : Prop where
  place : Memory.Outside address destination length.toNat
  cells : ∀ cell ∈ l.escapes.keys, Memory.Outside address (moved source destination length cell) 8

theorem redirect_spares {cell : Word} {b : UInt8} (houtside : Memory.Outside address cell 8) :
    Maintains (fun l : Ledger => l.memory.byte address = b) (redirect source destination length cell) := by
  refine .change fun l l' hl hl' => ?_
  obtain ⟨pointer, -, hl'⟩ := bind_eq_ok.mp hl'
  split at hl'
  · obtain ⟨memory, hmemory, hl'⟩ := bind_eq_ok.mp hl'
    cases hl'
    exact (Memory.byte_writeWord hmemory houtside).trans hl
  · cases hl'
    exact hl

theorem relocate_spares (h : l.Spares source destination length address) :
    (relocate source destination length).Leads l (fun _ l' => l'.memory.byte address = l.memory.byte address)
      fun _ l' => l'.memory.byte address = l.memory.byte address := by
  have hcells : ∀ cells : List Word, (∀ cell ∈ cells, Memory.Outside address cell 8) →
      Maintains (fun l' : Ledger => l'.memory.byte address = l.memory.byte address)
        (cells.forM (redirect source destination length)) := by
    intro cells houtside
    induction cells with
    | nil => exact .answer _
    | cons cell rest ih =>
      obtain ⟨hfirst, hrest⟩ := List.forall_mem_cons.mp houtside
      exact .bind (redirect_spares hfirst) fun _ => ih hrest
  unfold relocate
  refine .bind (.change (fun l' hl' => ?_) fun _ _ => rfl)
  obtain ⟨memory, hcopy, hl'⟩ := bind_eq_ok.mp hl'
  cases hl'
  refine .bind (.read (.bind (((hcells _ ?_).leads ?_).mono (fun _ l' hl' => Leads.update hl') fun _ _ hl' => hl')))
  · exact List.forall_mem_map.mpr h.cells
  · exact Memory.byte_copy hcopy h.place

theorem readWord_of_relocate {l' : Ledger} {cell : Word} (hrun : (relocate source destination length).runFrom l = (.ok (), l'))
    (h : ∀ i < 8, l.Spares source destination length (cell.toNat + i)) : l'.memory.readWord cell 8 = l.memory.readWord cell 8 :=
  Memory.readWord_congr fun i hi => (relocate_spares (h i hi)).ok hrun

end Ledger

theorem Tracker.moveRegion_relocates {ρ : Type} [Relocator ρ] (t : Tracker ρ) (old new : Region) :
    (moveRegion old new).Leads t
      (fun _ t' => ∃ r, t.space.findRegion old ⟨true, false, true, false⟩ = .ok r ∧ new.length = r.length ∧
        (Relocator.relocate r.start new.start r.length).runFrom t.relocation = (.ok (), t'.relocation))
      fun _ t' => t'.relocation = t.relocation ∨ ∃ r, t.space.findRegion old ⟨true, false, true, false⟩ = .ok r ∧
        t'.relocation = ((Relocator.relocate r.start new.start r.length).runFrom t.relocation).2 := by
  unfold moveRegion
  refine .bind (.mono (Q := fun _ t' => t' = t) (E := fun _ t' => t' = t) (.each fun r _ => ?_) (fun _ t' ht' => ?_)
    fun _ _ he => .inl (congrArg Tracker.relocation he))
  · exact .require (fun _ => rfl) fun _ => .answer ⟨rfl, rfl⟩
  rw [ht']
  refine .bind (.read (.bind (.lift (fun r hr => ?_) fun _ _ => .inl rfl)))
  refine .refuse (fun _ => .inl rfl) fun _ => .refuse (fun _ => .inl rfl) fun hlength => .bind (.update ?_)
  have hlength : new.length = r.length := Decidable.not_not.mp hlength
  refine .bind (.mono (Q := fun _ u => (Relocator.relocate r.start new.start r.length).runFrom t.relocation =
    (.ok (), u.relocation)) (.onError (.bind (.zoom (.inquire (fun _ _ => ?_) fun f _ => ?_)))) (fun _ u hu => ?_) fun _ _ he => he)
  · refine .zoom ?_
    cases hrun : (Relocator.relocate r.start new.start r.length).runFrom t.relocation with
    | mk o x =>
      cases o with
      | ok _ => exact .of_ok hrun rfl
      | error f => exact .of_error hrun (by cases f <;> exact .inr ⟨r, hr, (congrArg Prod.snd hrun).symm⟩)
  · cases f <;> exact .inl rfl
  · unfold insertRegion
    refine .bind (.zoom (.change (fun _ _ => .answer ⟨r, hr, hlength, hu⟩) fun _ _ => .inr ⟨r, hr, ?_⟩))
    exact (congrArg Prod.snd hu).symm

namespace Monitor

variable {m m' : Monitor} {place size old : Word} {a : Allocation}

/-- Whether a move succeeds or fails, it leaves bytes alone that are neither moved over nor redirected. -/
theorem moveRegion_spares {old new : Region} {address : Nat}
    (h : ∀ r, m.space.findRegion old ⟨true, false, true, false⟩ = .ok r →
      m.ledger.Spares r.start new.start r.length address) :
    ((onTracker (Tracker.moveRegion old new)).runFrom m).2.memory.byte address = m.memory.byte address := by
  have hmoves : (onTracker (Tracker.moveRegion old new)).Leads m
      (fun _ m' => m'.memory.byte address = m.memory.byte address)
      fun _ m' => m'.memory.byte address = m.memory.byte address := by
    refine .zoom ((Tracker.moveRegion_relocates m.tracker old new).mono (fun _ t ht => ?_) fun _ t ht => ?_)
    · obtain ⟨r, hr, -, hrelocates⟩ := ht
      exact (Ledger.relocate_spares (h r hr)).ok hrelocates
    · rcases ht with hsame | ⟨r, hr, hrelocated⟩
      · exact congrArg (fun l : Ledger => l.memory.byte address) hsame
      · have hkept := (Ledger.relocate_spares (h r hr)).state
        exact (congrArg (fun l : Ledger => l.memory.byte address) hrelocated).trans hkept
  exact hmoves.state

/-- The ledger after a block was resized: the old allocation has gone with the escapes in it, and the new one is there. -/
theorem notifyRealloc_ledger (ha : m.ledger.allocation? old = some a) (hstart : a.start = old) (hold : old ≠ 0)
    (hplace : place ≠ 0) (hsize : size ≠ 0) :
    (notifyRealloc place size old).Leads m
      (fun _ m' => m'.ledger = (m.ledger.without a).track place size .heap) fun _ _ => True := by
  unfold notifyRealloc
  refine .branch (fun _ => ?_) fun hnull => absurd hold hnull
  refine .bind ((untrack_leads m old).mono (fun _ m' hm' => ?_) fun _ _ _ => trivial)
  unfold notifyMalloc
  refine .bind (.update ((track_leads _ place size .heap).mono (fun _ m'' hm'' => ?_) fun _ _ _ => trivial))
  rw [hm''.2, if_neg (not_or.mpr ⟨hplace, hsize⟩)]
  change m'.ledger.track place size .heap = _
  rw [hm'.2, Ledger.untrack?_of_some ha hstart]
  rfl

/-- The escapes inside a block are forgotten when it is resized, and none is found in the new block. A move leaves all bytes
alone but those that go and those of recorded escapes, so a pointer that was copied to the new block still leads to where a
region was that has moved since. -/
theorem reallocation_forgets_escapes (h : m.Serves fun _ _ => True) (ha : m.ledger.allocation? old = some a) (hold : old ≠ 0)
    (hplace : place ≠ 0) (hsize : size ≠ 0) (hrun : (notifyRealloc place size old).runFrom m = (.ok (), m')) :
    m'.memory = m.memory ∧
    m'.ledger.allocations = (m.ledger.allocations.erase old).insert place ⟨place, size, .heap⟩ ∧
    m'.ledger.escapes.keys = m.ledger.escapes.keys.filter (fun cell => !a.contains cell) ∧
    ∀ (query new r : Region) (m'' : Monitor), (onTracker (Tracker.moveRegion query new)).runFrom m' = (.ok r, m'') →
      ∀ cell : Word, (∀ i < 8, m'.ledger.Spares query.start new.start new.length (cell.toNat + i)) →
        m''.memory.readWord cell 8 = m'.memory.readWord cell 8 := by
  have hstep : m.InStep False := h.inStep fun hfalse => hfalse.elim
  have hserves : m'.Serves fun _ _ => True := h.call (q := .realloc place size old) trivial hrun nofun
  have hstep' : m'.InStep False := hserves.inStep fun hfalse => hfalse.elim
  have harranged : m'.space.Arranged := hstep'.arranged
  have hstart := (hstep.backed old a ha).1
  have hledger : m'.ledger = (m.ledger.without a).track place size .heap :=
    (notifyRealloc_ledger ha hstart hold hplace hsize).ok hrun
  refine ⟨(congrArg Ledger.memory hledger :), ?_, ?_, fun query new r m'' hmoves cell hspares => ?_⟩
  · rw [hledger, ← hstart]
    rfl
  · rw [hledger]
    exact Table.keys_filter (fun cell => !a.contains cell) m.ledger.escapes
  · have hrelocates : (onTracker (Tracker.moveRegion query new)).Leads m' (fun _ m'' => ∃ r : Region,
        m'.space.findRegion query ⟨true, false, true, false⟩ = .ok r ∧ new.length = r.length ∧
          (Ledger.relocate r.start new.start r.length).runFrom m'.ledger = (.ok (), m''.ledger)) fun _ _ => True :=
      .zoom ((Tracker.moveRegion_relocates m'.tracker query new).mono (fun _ _ hr => hr) fun _ _ _ => trivial)
    obtain ⟨found, hfound, hlength, hrelocates⟩ := hrelocates.ok hmoves
    obtain ⟨-, hagrees⟩ := harranged.ordered.mem_of_findRegion hfound
    have hfrom : found.start = query.start := Region.start_of_agrees hagrees rfl
    rw [hfrom, ← hlength] at hrelocates
    exact Ledger.readWord_of_relocate hrelocates hspares

def goes (m : Monitor) : List MonitorCall → Bool
  | [] => true
  | q :: rest => (q.perform.runFrom m).1 = .ok () && goes (q.perform.runFrom m).2 rest

theorem Serves.goesOn (h : m.Serves fun _ _ => True) {calls : List MonitorCall} (hgoes : m.goes calls) :
    (m.told calls).Serves fun _ _ => True := by
  induction calls generalizing m with
  | nil => exact h
  | cons q rest ih =>
    obtain ⟨hfirst, hrest⟩ := Bool.and_eq_true_iff.mp hgoes
    exact ih (h.told trivial (of_decide_eq_true hfirst)) hrest

/-- A pointer to the second of two blocks stands in the first one, and has been copied to a new block already. -/
def outgrowing : Monitor :=
  ((idle.told [.malloc 0x1000 0x10, .malloc 0x2000 0x10, .escape 0x1000]).withMemory
    (((Memory.empty.setBytes 0x1000 (Memory.toLittleEndian 8 0x2000)).setBytes 0x3000 (Memory.toLittleEndian 8 0x2000))))

theorem outgrowing_serves : outgrowing.Serves fun _ _ => True := by
  have hgoes : idle.goes [.malloc 0x1000 0x10, .malloc 0x2000 0x10, .escape 0x1000] := by decide +kernel
  exact ((idle_serves fun _ _ => True).goesOn hgoes).memory _

def outgrown : Monitor := ((notifyRealloc 0x3000 0x20 0x1000).runFrom outgrowing).2

def displaced : Monitor :=
  ((onTracker (Tracker.moveRegion (.make 0x2000 0x10 .readWrite) (.make 0x4000 0x10 .readWrite))).runFrom outgrown).2

theorem reallocation_forgets_escapes_outgrown :
    outgrown.ledger.escapes.keys = [] ∧ outgrown.memory.readWord 0x3000 8 = .ok 0x2000 ∧
      displaced.ledger.allocations.keys = [0x3000, 0x4000] ∧ displaced.memory.readWord 0x3000 8 = .ok 0x2000 := by
  have hview : outgrowing.ledger.allocation? 0x1000 = some ⟨0x1000, 0x10, .heap⟩ ∧
      ((notifyRealloc 0x3000 0x20 0x1000).runFrom outgrowing).1 = .ok () ∧
      ((onTracker (Tracker.moveRegion (.make 0x2000 0x10 .readWrite) (.make 0x4000 0x10 .readWrite))).runFrom outgrown).1 =
        .ok (.make 0x4000 0x10 .readWrite) ∧
      outgrowing.ledger.escapes.keys = [0x1000] ∧ outgrowing.memory.readWord 0x3000 8 = .ok 0x2000 ∧
      displaced.ledger.allocations.keys = [0x3000, 0x4000] := by
    decide +kernel
  obtain ⟨ha, hgrows, hmoves, hkeys, hcopied, hallocations⟩ := hview
  obtain ⟨hmemory, -, hescapes, hkeeps⟩ :=
    reallocation_forgets_escapes outgrowing_serves ha (by decide) (by decide) (by decide) (Prod.ext hgrows rfl)
  have hnone : outgrown.ledger.escapes.keys = [] := by
    refine hescapes.trans ?_
    rw [hkeys]
    decide
  have hread : outgrown.memory.readWord 0x3000 8 = .ok 0x2000 := by
    rw [show outgrown.memory = outgrowing.memory from hmemory]
    exact hcopied
  refine ⟨hnone, hread, hallocations, (hkeeps _ _ _ displaced (Prod.ext hmoves rfl) 0x3000 fun i hi => ?_).trans hread⟩
  refine ⟨.inl ?_, fun cell hcell => ?_⟩
  · have hplaces : (0x3000 : Word).toNat = 0x3000 ∧ (0x4000 : Word).toNat = 0x4000 := by decide
    change (0x3000 : Word).toNat + i < (0x4000 : Word).toNat
    omega
  · rw [show ((notifyRealloc 0x3000 0x20 0x1000).runFrom outgrowing).2.ledger.escapes.keys = [] from hnone] at hcell
    cases hcell

/-- A pointer in a block is recorded no more once the block is resized, and a move of the region that it points into does not
redirect it. -/
theorem copied_pointer_left_behind :
    outgrowing.ledger.escapes.keys = [0x1000] ∧ outgrowing.memory.readWord 0x3000 8 = .ok 0x2000 ∧
      ((notifyRealloc 0x3000 0x20 0x1000).runFrom outgrowing).1 = .ok () ∧ (0x3000 : Word) ∉ outgrown.ledger.escapes.keys ∧
      ((onTracker (Tracker.moveRegion (.make 0x2000 0x10 .readWrite) (.make 0x4000 0x10 .readWrite))).runFrom outgrown).1 =
        .ok (.make 0x4000 0x10 .readWrite) ∧ displaced.memory.readWord 0x3000 8 = .ok 0x2000 := by
  decide +kernel

end Monitor

end RegionGuard

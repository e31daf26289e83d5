import RegionGuard.Proofs.Destinations
import RegionGuard.Proofs.GuardAnswers
import RegionGuard.Proofs.HeapOwners
import RegionGuard.Proofs.HousedRegions
import RegionGuard.Proofs.Lodgings
import RegionGuard.Proofs.NeighborQueries
import RegionGuard.Proofs.Relocations
set_option autoImplicit false

namespace RegionGuard

open Stateful

namespace Ledger

variable {l l' : Ledger} {source destination length cell : Word} {f : Failure}

theorem redirect_refused (h : Memory.check cell 8 = .error f) :
    (redirect source destination length cell).runFrom l = (.error f, l) := by
  have hread : l.memory.readWord cell 8 = .error f := by
    unfold Memory.readWord Memory.read
    rw [show min 8 8 = 8 from rfl, h]
    rfl
  unfold redirect
  rw [runFrom_change, hread]
  rfl

theorem redirect_forM_leads (l : Ledger) (source destination length : Word) (cells : List Word) :
    (cells.forM (redirect source destination length)).Leads l
      (fun _ l' => (∀ c ∈ cells, Memory.check c 8 = .ok ()) ∧ ∃ m, l' = { l with memory := m })
      fun f l' => ∃ front c back, cells = front ++ c :: back ∧ Memory.check c 8 = .error f ∧
        (front.forM (redirect source destination length)).runFrom l = (.ok (), l') := by
  induction cells generalizing l with
  | nil => exact .answer ⟨nofun, l.memory, rfl⟩
  | cons cell rest ih =>
    change (redirect source destination length cell >>= fun _ => rest.forM _).Leads l _ _
    cases hcheck : Memory.check cell 8 with
    | error f => exact .bind (.of_error (redirect_refused hcheck) ⟨[], cell, rest, rfl, hcheck, rfl⟩)
    | ok u =>
      obtain ⟨m, hrun, -⟩ : ∃ m, (redirect source destination length cell).runFrom l = (.ok (), { l with memory := m }) ∧ _ :=
        redirect_ok hcheck
      refine .bind (.of_ok hrun ((ih { l with memory := m }).mono (fun _ l' hl' => ?_) fun f l' hl' => ?_))
      · obtain ⟨hrest, m', rfl⟩ := hl'
        exact ⟨List.forall_mem_cons.mpr ⟨hcheck, hrest⟩, m', rfl⟩
      · obtain ⟨front, c, back, rfl, hc, hfront⟩ := hl'
        refine ⟨cell :: front, c, back, rfl, hc, ?_⟩
        change (redirect source destination length cell >>= fun _ => front.forM _).runFrom l = _
        rw [runFrom_bind, hrun]
        exact hfront

/-- Every cell can be reached where a move of bytes takes it. -/
def Reaches (l : Ledger) (source destination length : Word) : Prop :=
  ∀ c ∈ l.escapes.keys, Memory.check (moved source destination length c) 8 = .ok ()

/-- The bytes have been copied, and all cells redirected in front of the first that cannot be reached at its new place. -/
def Interrupted (l : Ledger) (source destination length : Word) (f : Failure) (l' : Ledger) : Prop :=
  ∃ front c back m, l.escapes.keys = front ++ c :: back ∧
    Memory.check (moved source destination length c) 8 = .error f ∧
    (∀ a ∈ front, Memory.check (moved source destination length a) 8 = .ok ()) ∧
    l.memory.copy source destination length = .ok m ∧
    ((front.map (moved source destination length)).forM (redirect source destination length)).runFrom
      { l with memory := m } = (.ok (), l')

/-- What a move of bytes that fails leaves behind. -/
structure Abandoned (l : Ledger) (source destination length : Word) (f : Failure) (l' : Ledger) : Prop where
  escapes : l'.escapes = l.escapes
  allocations : l'.allocations = l.allocations
  spared : ∀ address, l.Spares source destination length address → l'.memory.byte address = l.memory.byte address
  traces : l' = l ∨ l.Interrupted source destination length f l'

/-- Where every cell can be reached at its new place, a move that fails changes nothing. -/
theorem Abandoned.unchanged (h : l.Abandoned source destination length f l')
    (hreach : l.Reaches source destination length) : l' = l := by
  rcases h.traces with hsame | ⟨front, c, back, m, hkeys, hc, -⟩
  · exact hsame
  · have hmem : c ∈ l.escapes.keys := hkeys ▸ List.mem_append_right front List.mem_cons_self
    cases (hreach c hmem).symm.trans hc

theorem relocate_abandons (hrun : (relocate source destination length).runFrom l = (.error f, l')) :
    l.Abandoned source destination length f l' := by
  have hleads : (relocate source destination length).Leads l (fun _ _ => True) fun f l' =>
      l'.escapes = l.escapes ∧ l'.allocations = l.allocations ∧ (l' = l ∨ l.Interrupted source destination length f l') := by
    unfold relocate
    refine .bind (.change (fun l' hl' => ?_) fun _ _ => ⟨rfl, rfl, .inl rfl⟩)
    obtain ⟨m, hcopy, hl'⟩ := bind_eq_ok.mp hl'
    cases hl'
    refine .bind (.read (.bind ((redirect_forM_leads _ _ _ _ _).mono (fun _ _ _ => .update trivial) fun f l' hl' => ?_)))
    obtain ⟨front', c', back', hcells, hc, hfront⟩ := hl'
    obtain ⟨hreach, m', hm'⟩ := (redirect_forM_leads _ _ _ _ _).ok hfront
    -- The cells in question are where recorded ones have gone.
    obtain ⟨front, rest, hkeys, rfl, hrest⟩ := List.map_eq_append_iff.mp hcells
    obtain ⟨c, back, rfl, rfl, rfl⟩ := List.map_eq_cons_iff.mp hrest
    exact ⟨hm' ▸ rfl, hm' ▸ rfl, .inr ⟨front, c, back, m, hkeys, hc, List.forall_mem_map.mp hreach, hcopy, hfront⟩⟩
  obtain ⟨hescapes, hallocations, htraces⟩ := hleads.error hrun
  exact ⟨hescapes, hallocations, fun _ hspares => (relocate_spares hspares).error hrun, htraces⟩

end Ledger

namespace Tracker

variable {t t' : Tracker Ledger} {old new : Region} {e : Error}

/-- A move of a region that fails leaves all regions and all blocks as they were. The ledger is as it was too, or as a move of
the bytes of the region has left it that has failed with the same error. -/
theorem moveRegion_abandons (h : t.Reachable) (hrun : (moveRegion old new).runFrom t = (.error (.error e), t')) :
    t'.regions = t.regions ∧ t'.space.fixes = t.space.fixes ∧ t'.heap = t.heap ∧
      (t'.relocation = t.relocation ∨ ∃ r ∈ t.regions, r.start = old.start ∧
        t.relocation.Abandoned r.start new.start r.length (.error e) t'.relocation) := by
  have hfits : Fits Ledger new := .inr Ledger.staysInside
  have hstranded := (moveRegion_travels h.arranged old new).error hrun
  obtain ⟨hregions, hfixes⟩ := hstranded.kept hfits e rfl
  refine ⟨hregions, hfixes, ((moveRegion_frame old new).error hrun).1, ?_⟩
  rcases hstranded.halted hfits with hsame | ⟨r, hr, hstart, hsame | hfails⟩
  · exact .inl hsame
  · exact .inl hsame
  · exact .inr ⟨r, hr, hstart, Ledger.relocate_abandons hfails⟩

end Tracker

/-- What a failed move keeps, of bytes and of a region: the escapes, the allocations, the regions and the blocks, and all bytes
that lie neither where the bytes go nor in a recorded cell. Everything is as before if every cell can be reached at its new
place. -/
theorem failed_moves_keep (l : Ledger) (source destination length : Word) (t : Tracker Ledger) (old new : Region) :
    (∀ f l', (Ledger.relocate source destination length).runFrom l = (.error f, l') →
      l.Abandoned source destination length f l' ∧ (l.Reaches source destination length → l' = l)) ∧
    (t.Reachable → ∀ e t', (Tracker.moveRegion old new).runFrom t = (.error (.error e), t') →
      t'.regions = t.regions ∧ t'.space.fixes = t.space.fixes ∧ t'.heap = t.heap ∧
        (t'.relocation = t.relocation ∨ ∃ r ∈ t.regions, r.start = old.start ∧
          t.relocation.Abandoned r.start new.start r.length (.error e) t'.relocation) ∧
        ((∀ r ∈ t.regions, r.start = old.start → t.relocation.Reaches r.start new.start r.length) →
          t'.relocation = t.relocation)) := by
  refine ⟨fun f l' hrun => ?_, fun h e t' hrun => ?_⟩
  · have hleft : l.Abandoned source destination length f l' := Ledger.relocate_abandons hrun
    exact ⟨hleft, hleft.unchanged⟩
  · obtain ⟨hregions, hfixes, hheap, hledger⟩ := Tracker.moveRegion_abandons h hrun
    refine ⟨hregions, hfixes, hheap, hledger, fun hreach => ?_⟩
    rcases hledger with hsame | ⟨r, hr, hstart, hleft⟩
    · exact hsame
    · exact hleft.unchanged (hreach r hr hstart)

/-- A cell with a pointer into sixteen bytes, and one behind which memory ends. -/
def Ledger.doomed : Ledger :=
  let memory := (Memory.empty.setBytes 0x2000 (Memory.toLittleEndian 8 7)).setBytes 0x3000 (Memory.toLittleEndian 8 0x2008)
  ((Ledger.mk memory ∅ ∅).recordEscape 0x3000).recordEscape 0xFFFFFFFFFFFFFFFF

def Tracker.doomed : Tracker Ledger := { lone with relocation := .doomed }

theorem failed_moves_keep_doomed :
    ∃ l' t', (Ledger.relocate 0x2000 0x2200 0x10).runFrom .doomed = (.error (.error (.memoryFault 0xFFFFFFFFFFFFFFFF)), l') ∧
      l'.escapes = Ledger.doomed.escapes ∧ Tracker.doomed.Reachable ∧
      (Tracker.moveRegion (.make 0x2000 0x10 .readWrite) (.make 0x2200 0x10 .readWrite)).runFrom .doomed =
        (.error (.error (.memoryFault 0xFFFFFFFFFFFFFFFF)), t') ∧ t'.regions = Tracker.doomed.regions := by
  have hfails : ((Ledger.relocate 0x2000 0x2200 0x10).runFrom .doomed).1 =
        .error (.error (.memoryFault 0xFFFFFFFFFFFFFFFF)) ∧
      ((Tracker.moveRegion (.make 0x2000 0x10 .readWrite) (.make 0x2200 0x10 .readWrite)).runFrom .doomed).1 =
        .error (.error (.memoryFault 0xFFFFFFFFFFFFFFFF)) := by
    decide +kernel
  have reachable : Tracker.doomed.Reachable := .memory Tracker.lone_reachable _
  have hkeep := failed_moves_keep .doomed 0x2000 0x2200 0x10 .doomed (.make 0x2000 0x10 .readWrite)
    (.make 0x2200 0x10 .readWrite)
  exact ⟨_, _, Prod.ext hfails.1 rfl, (hkeep.1 _ _ (Prod.ext hfails.1 rfl)).1.escapes, reachable, Prod.ext hfails.2 rfl,
    (hkeep.2 reachable _ _ (Prod.ext hfails.2 rfl)).1⟩

/-- A move of bytes onto part of themselves fails, and so does the move of a region. The region is back, but some of its
contents have been overwritten, and the pointer into it leads past its end. -/
theorem failed_moves_overwrite :
    (Ledger.doomed.memory.readWord 0x2008 8 = .ok 0 ∧ Ledger.doomed.memory.readWord 0x3000 8 = .ok 0x2008) ∧
    (∃ l', (Ledger.relocate 0x2000 0x2008 0x10).runFrom .doomed =
        (.error (.error (.memoryFault 0xFFFFFFFFFFFFFFFF)), l') ∧
      l'.memory.readWord 0x2008 8 = .ok 7 ∧ l'.memory.readWord 0x3000 8 = .ok 0x2010) ∧
    ∃ t' : Tracker Ledger, Tracker.doomed.Reachable ∧
      (Tracker.moveRegion (.make 0x2000 0x10 .readWrite) (.make 0x2008 0x10 .readWrite)).runFrom .doomed =
        (.error (.error (.memoryFault 0xFFFFFFFFFFFFFFFF)), t') ∧
      t'.regions = [.make 0x2000 0x10 .readWrite] ∧ t'.relocation.memory.readWord 0x2008 8 = .ok 7 ∧
      t'.relocation.memory.readWord 0x3000 8 = .ok 0x2010 := by
  refine ⟨by decide +kernel, ⟨_, Prod.ext ?_ rfl, by decide +kernel⟩,
    _, .memory Tracker.lone_reachable _, Prod.ext ?_ rfl, by decide +kernel⟩
  · decide +kernel
  · decide +kernel

end RegionGuard

import Mathlib.Data.Set.Insert
import RegionGuard.Proofs.Accounts
import RegionGuard.Proofs.HeapLayouts
import RegionGuard.Proofs.Stops
set_option autoImplicit false

/-!
# Regions in blocks of a heap

The regions of an address space, but for the stack and the blob, lie in blocks of a heap, each in the block that starts
where it does. Regions may join, leave and change, and blocks may be taken and given back, as long as each region keeps
its block.
-/

namespace RegionGuard

open Stateful

theorem Region.Rising.nodup {l : List Region} (h : Rising l) : l.Nodup := by
  refine h.imp ?_
  rintro r s hlt rfl
  exact UInt64.lt_irrefl _ hlt

theorem RegionIndex.length_toList (x : RegionIndex) : x.toList.length = x.size := by
  cases x with
  | keyed t => exact List.length_map _
  | sorted a => exact Array.length_toList

theorem RegionIndex.stops_insert (x : RegionIndex) (r : Region) : Outcome.Stops (fun _ => False) (x.insert r) := by
  cases x with
  | keyed t => exact .branch (fun _ => .raise _) fun _ => .answer _
  | sorted a =>
    unfold RegionIndex.insert
    dsimp only
    split
    · exact .branch (fun _ => .raise _) fun _ => .answer _
    · exact .answer _

namespace AddressSpace

variable {s : AddressSpace}

theorem stops_checkRoom (s : AddressSpace) (r : Region) : Outcome.Stops (fun _ => False) (s.checkRoom r) := by
  unfold checkRoom
  split
  · exact .raise _
  · exact .answer _

theorem Arranged.checkRoom (h : s.Arranged) {r : Region}
    (hclear : ∀ q ∈ s.regions.toList, q.start < r.stop → q.stop ≤ r.start) : s.checkRoom r = .ok () := by
  have hnone : s.regions.overlapping? r = none := by
    rw [h.ordered.overlapping?_eq]
    split
    · rfl
    · rw [Option.filter_eq_none_iff]
      intro q hq
      obtain ⟨hmem, hbelow⟩ := List.mem_filter.mp (List.mem_of_getLast? hq)
      simpa using hclear q hmem (of_decide_eq_true hbelow)
  unfold AddressSpace.checkRoom
  rw [hnone]
  rfl

theorem checkShape_of_lawful {r : Region} (h : r.Lawful) : checkShape r = .ok () := by
  have hsum : Word.add? r.start r.length = some (UInt64.ofNat (r.start.toNat + r.length.toNat)) := by
    unfold Word.add? Word.ofNat?
    rw [if_pos h.fits]
  have hempty : r.isEmpty = false := decide_eq_false h.nonempty
  unfold checkShape
  rw [h.mapped, hempty, hsum]
  rfl

theorem addRegion_succeeds (h : s.Arranged) {r : Region} (hr : r.Lawful)
    (hclear : ∀ q ∈ s.regions.toList, q.start < r.stop → q.stop ≤ r.start) :
    (addRegion r).Leads s (fun _ _ => True) fun _ _ => False := by
  have hshape := checkShape_of_lawful hr
  have hroom := h.checkRoom hclear
  have hfresh := h.fresh_of_checkRoom hr.nonempty hr.fits hroom
  unfold addRegion
  refine .bind (.lift (fun _ _ => ?_) fun _ he => nomatch hshape.symm.trans he)
  refine .bind (.inquire (fun _ _ => ?_) fun _ he => nomatch hroom.symm.trans he)
  rcases h.ordered.places r with ⟨⟨q, hq, hstart⟩, -⟩ | ⟨-, x, hinsert, -⟩
  · exact absurd hstart (hfresh q hq)
  · refine .bind (.change (fun s' _ => .answer trivial) fun e he => ?_)
    rw [hinsert] at he
    cases he

theorem removeRegion_answers (h : s.Arranged) (query : Region) (m : MatchMask) :
    (removeRegion query m).Leads s (fun removed s' => s.isFixed removed = false ∧ s'.Arranged ∧ s'.fixes = s.fixes ∧
        ∀ q, q ∈ s'.regions.toList ↔ q ∈ s.regions.toList ∧ q.start ≠ removed.start) fun f s' => s' = s ∧ ∃ e, f = .error e := by
  unfold removeRegion
  refine .bind (.inquire (fun r hr => ?_) fun f hf => ⟨rfl, ?_⟩)
  · obtain ⟨hmem, -⟩ := h.ordered.mem_of_findRegion hr
    obtain ⟨x, -, hremove, hordered, hlist⟩ := h.ordered.remove?_self hmem
    refine .bind (.read (.refuse (fun _ => ⟨rfl, _, rfl⟩) fun hfixed => ?_))
    refine .bind (.present (fun found hfound => ?_) fun hnone => nomatch hremove.symm.trans hnone)
    cases hremove.symm.trans hfound
    have hsubset : x.toList ⊆ s.regions.toList := hlist ▸ List.filter_sublist.subset
    refine .bind (.put (.answer ⟨Bool.eq_false_iff.mpr hfixed, h.of_subset hordered hsubset, rfl, fun q => ?_⟩))
    change q ∈ x.toList ↔ _
    rw [hlist, List.mem_filter]
    simp
  · unfold findRegion at hf
    cases hfound : s.regions.find? query m <;> rw [hfound] at hf <;> cases hf
    exact ⟨_, rfl⟩

theorem pin_raises (s : AddressSpace) (address : Word) :
    (pin address).Leads s (fun _ _ => True) fun f _ => ∃ e, f = .error e := by
  unfold pin
  exact .bind (.read (.bind (.present (fun _ _ => .bind (.put (.answer trivial))) fun _ => ⟨_, rfl⟩)))

theorem requestPermission_raises (s : AddressSpace) (address : Word) (a : Access) :
    (requestPermission address a).Leads s (fun _ _ => True) fun f _ => ∃ e, f = .error e := by
  unfold requestPermission
  refine .bind (.read (.branch (fun _ => .put trivial) fun _ => .branch (fun _ => .put trivial) fun _ => ?_))
  cases s.regionAt? address with
  | none => exact .raise ⟨_, rfl⟩
  | some r => exact .branch (fun _ => .put trivial) fun _ => .raise ⟨_, rfl⟩

/-- The stack and the blob lie outside the arena of a heap, and each other region lies in the block at its start. Only
spare blocks hold no region. -/
structure Lodged (s : AddressSpace) (heap : Heap) (spare : Set Word) : Prop where
  arranged : s.Arranged
  laid : heap.Laid
  outside : ∀ w, s.fixes w = true → ∃ n, (w, n) ∈ s.extents ∧ w.toNat + n.toNat < Word.modulus ∧
    ∀ v, w ≤ v → v.toNat < w.toNat + n.toNat → heap.covers v = false
  homes : ∀ w n, (w, n) ∈ s.extents → s.fixes w = false → ∃ size, heap.blocks.get? w = some size ∧ n ≤ size
  tenants : ∀ w size, heap.blocks.get? w = some size → w ∈ spare ∨ ∃ n, (w, n) ∈ s.extents

variable {s' : AddressSpace} {heap heap' : Heap} {spare spare' : Set Word} {w place size granted : Word} {r : Region}

inductive Tenancy (s : AddressSpace) (heap : Heap) (s' : AddressSpace) (heap' : Heap) (spare : Set Word) (w : Word) : Prop
  | kept (region : ∀ n, (w, n) ∈ s'.extents ↔ (w, n) ∈ s.extents) (block : heap'.blocks.get? w = heap.blocks.get? w)
  | vacant (region : ∀ n, (w, n) ∉ s'.extents) (block : heap'.blocks.get? w = none ∨ w ∈ spare) (free : s.fixes w = false)
  | housed {n size : Word} (region : ∀ m, (w, m) ∈ s'.extents ↔ m = n) (block : heap'.blocks.get? w = some size)
      (le : n ≤ size) (free : s.fixes w = false)

namespace Tenancy

theorem of_same (hregion : ∀ q : Region, q.start = w → (q ∈ s'.regions.toList ↔ q ∈ s.regions.toList))
    (hblock : heap'.blocks.get? w = heap.blocks.get? w) : Tenancy s heap s' heap' spare w := by
  refine .kept (fun n => ?_) hblock
  rw [mem_extents, mem_extents]
  refine exists_congr fun q => ?_
  constructor
  · rintro ⟨hq, hstart, hlength⟩
    exact ⟨(hregion q hstart).mp hq, hstart, hlength⟩
  · rintro ⟨hq, hstart, hlength⟩
    exact ⟨(hregion q hstart).mpr hq, hstart, hlength⟩

theorem of_none (hregion : ∀ q ∈ s'.regions.toList, q.start ≠ w) (hblock : heap'.blocks.get? w = none ∨ w ∈ spare)
    (hfree : s.fixes w = false) : Tenancy s heap s' heap' spare w := by
  refine .vacant (fun n hn => ?_) hblock hfree
  obtain ⟨q, hq, hstart, -⟩ := mem_extents.mp hn
  exact hregion q hq hstart

theorem of_mem (harranged : s'.Arranged) (hr : r ∈ s'.regions.toList) (hblock : heap'.blocks.get? r.start = some size)
    (hle : r.length ≤ size) (hfree : s.fixes r.start = false) : Tenancy s heap s' heap' spare r.start := by
  refine .housed (fun m => ?_) hblock hle hfree
  rw [mem_extents]
  constructor
  · rintro ⟨q, hq, hstart, rfl⟩
    rw [harranged.ordered.rising.eq_of_start hq hr hstart]
  · rintro rfl
    exact ⟨r, hr, rfl, rfl⟩

end Tenancy

namespace Lodged

theorem pos (h : s.Lodged heap spare) {n : Word} (hwn : (w, n) ∈ s.extents) : 0 < n.toNat := by
  obtain ⟨r, hr, -, rfl⟩ := mem_extents.mp hwn
  exact Word.toNat_pos (h.arranged.nonempty r hr)

theorem length_eq (h : s.Lodged heap spare) {n m : Word} (hn : (w, n) ∈ s.extents) (hm : (w, m) ∈ s.extents) : n = m := by
  obtain ⟨r, hr, hstart, rfl⟩ := mem_extents.mp hn
  obtain ⟨q, hq, hqstart, rfl⟩ := mem_extents.mp hm
  rw [h.arranged.ordered.rising.eq_of_start hr hq (hstart.trans hqstart.symm)]

theorem free_of_covers (h : s.Lodged heap spare) (hcovers : heap.covers w = true) : s.fixes w = false := by
  by_contra hfixes
  obtain ⟨n, hn, -, houtside⟩ := h.outside w (Bool.eq_true_of_not_eq_false hfixes)
  have := houtside w (UInt64.le_refl w) (Nat.lt_add_of_pos_right (h.pos hn))
  exact Bool.false_ne_true (this.symm.trans hcovers)

theorem free_of_room (h : s.Lodged heap spare) (hroom : heap.Room place size) : s.fixes place = false :=
  h.free_of_covers hroom.covers_place

theorem fits (h : s.Lodged heap spare) {n : Word} (hwn : (w, n) ∈ s.extents) : w.toNat + n.toNat < Word.modulus := by
  cases hfixes : s.fixes w with
  | true =>
    obtain ⟨m, hm, hfits, -⟩ := h.outside w hfixes
    exact h.length_eq hm hwn ▸ hfits
  | false =>
    obtain ⟨size, hsize, hle⟩ := h.homes w n hwn hfixes
    have := (h.laid.room hsize).fits
    have := UInt64.le_iff_toNat_le.mp hle
    omega

theorem vacant (h : s.Lodged heap spare) (hroom : heap.Room place size) (hnone : heap.blocks.get? place = none) (n : Word) :
    (place, n) ∉ s.extents := by
  intro hn
  obtain ⟨granted, hgranted, -⟩ := h.homes place n hn (h.free_of_room hroom)
  cases hnone.symm.trans hgranted

/-- Where there is room for a block, no region has bytes but the one that starts there. -/
theorem apart (h : s.Lodged heap spare) (hroom : heap.Room place size) {n : Word} (hwn : (w, n) ∈ s.extents)
    (hne : w ≠ place) : w.toNat + n.toNat ≤ place.toNat ∨ place.toNat + size.toNat ≤ w.toNat := by
  cases hfixes : s.fixes w with
  | false =>
    obtain ⟨granted, hgranted, hle⟩ := h.homes w n hwn hfixes
    have := hroom.apart w granted hgranted hne
    have := UInt64.le_iff_toNat_le.mp hle
    omega
  | true =>
    obtain ⟨m, hm, -, houtside⟩ := h.outside w hfixes
    obtain rfl := h.length_eq hm hwn
    have := h.pos hwn
    have := Word.toNat_pos hroom.nonempty
    by_contra hmeet
    rw [not_or, Nat.not_le, Nat.not_le] at hmeet
    -- Two ranges that meet share the later one of their first addresses.
    rcases Nat.le_total w.toNat place.toNat with hle | hle
    · have := houtside place (UInt64.le_iff_toNat_le.mpr hle) hmeet.1
      exact Bool.false_ne_true (this.symm.trans hroom.covers_place)
    · have := houtside w (UInt64.le_refl _) (by omega)
      exact Bool.false_ne_true (this.symm.trans (hroom.covers (UInt64.le_iff_toNat_le.mpr hle) hmeet.2))

theorem tenant (h : s.Lodged heap ∅) (hw : heap.blocks.get? w = some size) : ∃ n, (w, n) ∈ s.extents :=
  (h.tenants w size hw).resolve_left (Set.notMem_empty w)

theorem mono (h : s.Lodged heap spare) (hspare : spare ⊆ spare') : s.Lodged heap spare' where
  arranged := h.arranged
  laid := h.laid
  outside := h.outside
  homes := h.homes
  tenants w size hw := (h.tenants w size hw).imp_left fun hw => hspare hw

theorem stays (h : s.Lodged heap spare) (hs : Stays s s') : s'.Lodged heap spare where
  arranged := hs.arranged
  laid := h.laid
  outside := by
    rw [hs.extents, hs.fixes]
    exact h.outside
  homes := by
    rw [hs.extents, hs.fixes]
    exact h.homes
  tenants := by
    rw [hs.extents]
    exact h.tenants

theorem change (h : s.Lodged heap spare) (harranged : s'.Arranged) (hlaid : heap'.Laid) (hfixes : s'.fixes = s.fixes)
    (hcovers : heap'.covers = heap.covers) (hchanges : ∀ w, Tenancy s heap s' heap' spare' w)
    (hspare : ∀ w ∈ spare, w ∈ spare' ∨ heap'.blocks.get? w = none ∨ ∃ n, (w, n) ∈ s'.extents) :
    s'.Lodged heap' spare' where
  arranged := harranged
  laid := hlaid
  outside w hw := by
    rw [hfixes] at hw
    cases hchanges w with
    | kept hregion _ =>
      obtain ⟨n, hn, hrest⟩ := h.outside w hw
      exact ⟨n, (hregion n).mpr hn, hcovers ▸ hrest⟩
    | vacant _ _ hfree => exact absurd (hfree.symm.trans hw) Bool.false_ne_true
    | housed _ _ _ hfree => exact absurd (hfree.symm.trans hw) Bool.false_ne_true
  homes w n hn hw := by
    rw [hfixes] at hw
    cases hchanges w with
    | kept hregion hblock =>
      obtain ⟨size, hsize, hle⟩ := h.homes w n ((hregion n).mp hn) hw
      exact ⟨size, hblock.trans hsize, hle⟩
    | vacant hregion _ _ => exact absurd hn (hregion n)
    | housed hregion hblock hle _ => exact ⟨_, hblock, (hregion n).mp hn ▸ hle⟩
  tenants w size hw := by
    cases hchanges w with
    | kept hregion hblock =>
      rcases h.tenants w size (hblock.symm.trans hw) with hspared | ⟨n, hn⟩
      · exact (hspare w hspared).imp_right (Or.resolve_left · fun hnone => nomatch hnone.symm.trans hw)
      · exact .inr ⟨n, (hregion n).mpr hn⟩
    | vacant _ hblock _ => exact hblock.elim (fun hnone => nomatch hnone.symm.trans hw) .inl
    | @housed n _ hregion _ _ _ => exact .inr ⟨n, (hregion n).mpr rfl⟩

theorem takes (h : s.Lodged heap spare) (hroom : heap.Room place granted) (hnone : heap.blocks.get? place = none) :
    s.Lodged { heap with blocks := heap.blocks.insert place granted } (insert place spare) := by
  refine h.change h.arranged (h.laid.insert hroom) rfl rfl (fun w => ?_) fun w hw => .inl (.inr hw)
  by_cases hw : w = place
  · subst hw
    exact .vacant (h.vacant hroom hnone) (.inr (.inl rfl)) (h.free_of_room hroom)
  · exact .kept (fun _ => .rfl) (Table.get?_insert_of_ne _ hw _)

theorem gives (h : s.Lodged heap spare) (hnone : ∀ n, (place, n) ∉ s.extents) (hspare : spare ⊆ insert place spare') :
    s.Lodged (heap.free place) spare' := by
  have hget : ∀ w, (heap.free place).blocks.get? w = if w = place then none else heap.blocks.get? w :=
    fun w => Table.get?_erase _ _ w
  refine h.change h.arranged (h.laid.free place) rfl rfl (fun w => ?_) fun w hw =>
    (hspare hw).elim (fun heq => .inr (.inl ((hget w).trans (if_pos heq)))) .inl
  by_cases hw : w = place
  · subst hw
    refine .vacant hnone (.inl ((hget w).trans (if_pos rfl))) ?_
    by_contra hfixes
    obtain ⟨n, hn, -⟩ := h.outside w (Bool.eq_true_of_not_eq_false hfixes)
    exact hnone n hn
  · exact .kept (fun _ => .rfl) ((hget w).trans (if_neg hw))

theorem fills (h : s.Lodged heap spare) (hblock : heap.blocks.get? r.start = some granted) (hle : r.length ≤ granted)
    (harranged : s'.Arranged) (hfixes : s'.fixes = s.fixes)
    (hmem : ∀ q, q ∈ s'.regions.toList ↔ q = r ∨ q ∈ s.regions.toList) (hspare : spare ⊆ insert r.start spare') :
    s'.Lodged heap spare' := by
  have hr : r ∈ s'.regions.toList := (hmem r).mpr (.inl rfl)
  refine h.change harranged h.laid hfixes rfl (fun w => ?_) fun w hw => ?_
  · by_cases hw : w = r.start
    · subst hw
      exact .of_mem harranged hr hblock hle (h.free_of_room (h.laid.room hblock))
    · refine .of_same (fun q hq => (hmem q).trans (or_iff_right ?_)) rfl
      rintro rfl
      exact hw hq.symm
  · rcases hspare hw with rfl | hw
    · exact .inr (.inr ⟨r.length, mem_extents.mpr ⟨r, hr, rfl, rfl⟩⟩)
    · exact .inl hw

theorem leaves (h : s.Lodged heap spare) (hfree : s.fixes r.start = false) (harranged : s'.Arranged)
    (hfixes : s'.fixes = s.fixes) (hmem : ∀ q, q ∈ s'.regions.toList ↔ q ∈ s.regions.toList ∧ q.start ≠ r.start) :
    s'.Lodged heap (insert r.start spare) := by
  refine h.change harranged h.laid hfixes rfl (fun w => ?_) fun w hw => .inl (.inr hw)
  by_cases hw : w = r.start
  · subst hw
    exact .of_none (fun q hq => ((hmem q).mp hq).2) (.inr (.inl rfl)) hfree
  · exact .of_same (fun q hq => (hmem q).trans (and_iff_left (hq ▸ hw))) rfl

end Lodged

theorem addRegion_fills (h : s.Lodged heap spare) (hblock : heap.blocks.get? place = some granted)
    (hnone : ∀ n, (place, n) ∉ s.extents) (hsize : size ≠ 0) (hle : size ≤ granted) (p : Protection)
    (hspare : spare ⊆ insert place spare') :
    (addRegion (.make place size p)).Leads s
      (fun _ s' => s'.Lodged heap spare' ∧ s'.fixes = s.fixes ∧
        ∀ q, q ∈ s'.regions.toList ↔ q = .make place size p ∨ q ∈ s.regions.toList) fun _ _ => False := by
  have hroom := h.laid.room hblock
  have hlenat := UInt64.le_iff_toNat_le.mp hle
  have hlawful : (Region.make place size p).Lawful := by
    refine ⟨by simp [Region.make, Region.isIdentityMapped], hsize, ?_⟩
    have := hroom.fits
    change place.toNat + size.toNat < Word.modulus
    omega
  have hclear : ∀ q ∈ s.regions.toList, q.start < (Region.make place size p).stop → q.stop ≤ place := by
    intro q hq hbelow
    have hextent : (q.start, q.length) ∈ s.extents := mem_extents.mpr ⟨q, hq, rfl, rfl⟩
    have hne : q.start ≠ place := fun heq => hnone _ (heq ▸ hextent)
    have hbelow := UInt64.lt_iff_toNat_lt.mp hbelow
    rw [Region.stop_toNat hlawful.fits] at hbelow
    change q.start.toNat < place.toNat + size.toNat at hbelow
    refine UInt64.le_iff_toNat_le.mpr ?_
    rw [Region.stop_toNat (h.fits hextent)]
    have := h.apart hroom hextent hne
    omega
  refine ((addRegion_joins h.arranged _).and (addRegion_succeeds h.arranged hlawful hclear)).mono (fun _ s' hs' => ?_)
    fun _ _ hs' => hs'.2.elim
  obtain ⟨⟨harranged, -, hmem, hfixes, -⟩, -⟩ := hs'
  exact ⟨h.fills (r := .make place size p) hblock hle harranged hfixes hmem hspare, hfixes, hmem⟩

theorem mem_of_build {name : String} {kind : IndexKind} {stack blob : Option Region}
    (h : build name kind stack blob = .ok s) : ∀ r ∈ s.regions.toList, stack = some r ∨ blob = some r := by
  have hempty : (empty name kind).Arranged := arranged_of_nil (RegionIndex.ordered_empty kind) (RegionIndex.toList_empty kind)
  refine (build_induction (I := fun s => s.Arranged ∧ ∀ r ∈ s.regions.toList, stack = some r ∨ blob = some r)
    ⟨hempty, fun r hr => ?_⟩ (fun s r hr hs => ?_) (fun s _ _ hs => ⟨hs.1.of_regions rfl, hs.2⟩) h).2
  · rw [show (empty name kind).regions.toList = [] from RegionIndex.toList_empty kind] at hr
    cases hr
  · refine (addRegion_joins hs.1 r).mono (fun _ s' hs' => ⟨hs'.1, fun q hq => ?_⟩) fun _ _ _ => trivial
    rcases (hs'.2.2.1 q).mp hq with rfl | hq
    · exact hr
    · exact hs.2 q hq

/-- An address space starts out in a heap without blocks, whose arena shares no byte with the stack and the blob. -/
theorem lodged_of_build {name : String} {kind : IndexKind} {stack blob : Option Region}
    (hbuild : build name kind stack blob = .ok s) (hempty : heap.blocks = ∅)
    (hapart : ∀ r, stack = some r ∨ blob = some r → ∀ w, r.containsAddress w = true → heap.covers w = false) :
    s.Lodged heap ∅ := by
  obtain ⟨harranged, hfixes⟩ := fixes_of_build hbuild
  refine ⟨harranged, Heap.laid_of_empty hempty, fun w hw => ?_, fun w n hn hw => ?_, fun w size hw => ?_⟩
  · obtain ⟨n, hn⟩ := (hfixes w).mp hw
    obtain ⟨r, hr, rfl, rfl⟩ := mem_extents.mp hn
    have hfits := ((sound_of_build hbuild).laid.lawful r hr).fits
    refine ⟨_, hn, hfits, fun v hle hlt => hapart r (mem_of_build hbuild r hr) v (decide_eq_true ⟨hle, ?_⟩)⟩
    rw [UInt64.lt_iff_toNat_lt, Region.stop_toNat hfits]
    exact hlt
  · exact absurd ((hfixes w).mpr ⟨n, hn⟩) (hw ▸ Bool.false_ne_true)
  · rw [hempty] at hw
    cases hw

end AddressSpace

theorem Stateful.Leads.trivially {σ α : Type} (x : Stateful σ α) (s : σ) : x.Leads s (fun _ _ => True) fun _ _ => True := by
  unfold Leads
  split <;> trivial

def Ledger.without (l : Ledger) (a : Allocation) : Ledger :=
  { l with
    allocations := l.allocations.erase a.start
    escapes := l.escapes.filter fun cell _ => !a.contains cell }

theorem Ledger.untrack?_of_some {l : Ledger} {start : Word} {a : Allocation} (ha : l.allocation? start = some a)
    (hstart : a.start = start) : l.untrack? start = some (a, l.without a) := by
  unfold untrack? without
  rw [show l.allocations.get? start = some a from ha, hstart]
  rfl

theorem Ledger.untrack?_of_none {l : Ledger} {start : Word} (ha : l.allocation? start = none) : l.untrack? start = none := by
  unfold untrack?
  rw [show l.allocations.get? start = none from ha]
  rfl

namespace Monitor

variable {m : Monitor} {heap : Heap} {spare spare' : Set Word} {start size granted : Word} {origin : Origin}

theorem onSpace_leads {α : Type} {x : Stateful AddressSpace α} {Q : α → Monitor → Prop} {E : Failure → Monitor → Prop}
    (hx : x.Leads m.space (fun a s => Q a { m with tracker := { m.tracker with space := s } })
      fun f s => E f { m with tracker := { m.tracker with space := s } }) : (onSpace x).Leads m Q E := by
  unfold onSpace onTracker Tracker.onSpace
  exact .zoom (.zoom hx)

theorem track_leads (m : Monitor) (start size : Word) (origin : Origin) :
    (track start size origin).Leads m
      (fun _ m' => m'.heap = m.heap ∧
        m'.ledger = if start = 0 ∨ size = 0 then m.ledger else m.ledger.track start size origin)
      fun _ m' => m'.heap = m.heap ∧ m'.ledger = m.ledger := by
  unfold track
  refine .branch (fun hnull => .answer ⟨rfl, (if_pos hnull).symm⟩) fun hnull => .bind (onSpace_leads ?_)
  exact (Leads.trivially _ _).mono (fun _ _ _ => Leads.update ⟨rfl, (if_neg hnull).symm⟩) fun _ _ _ => ⟨rfl, rfl⟩

theorem untrack_leads (m : Monitor) (start : Word) :
    (untrack start).Leads m
      (fun _ m' => m'.heap = m.heap ∧ m'.ledger = ((m.ledger.untrack? start).map (·.2)).getD m.ledger)
      fun _ m' => m'.heap = m.heap := by
  unfold untrack
  refine .bind (.read ?_)
  cases hfound : m.ledger.untrack? start with
  | none => exact .answer ⟨rfl, rfl⟩
  | some found =>
    refine .bind (.update (.bind (onSpace_leads ?_)))
    exact (Leads.trivially _ _).mono (fun _ _ _ => Leads.answer ⟨rfl, rfl⟩) fun _ _ _ => rfl

theorem track_fills (h : m.space.Lodged heap spare) (hblock : heap.blocks.get? start = some granted)
    (hnone : ∀ n, (start, n) ∉ m.space.extents) (hnull : start ≠ 0) (hsize : size ≠ 0) (hle : size ≤ granted) (origin : Origin)
    (hspare : spare ⊆ insert start spare') :
    (track start size origin).Leads m
      (fun _ m' => m'.space.Lodged heap spare' ∧ m'.space.fixes = m.space.fixes ∧
        ∀ q, q ∈ m'.space.regions.toList ↔ q = .make start size dataProtection ∨ q ∈ m.space.regions.toList)
      fun _ _ => False := by
  unfold track
  refine .branch (fun hempty => absurd hempty (not_or.mpr ⟨hnull, hsize⟩)) fun _ => .bind (onSpace_leads ?_)
  exact (AddressSpace.addRegion_fills h hblock hnone hsize hle dataProtection hspare).mono
    (fun _ _ hs => Leads.update hs) fun _ _ hs => hs

theorem untrack_leaves (h : m.space.Lodged heap spare) (hstep : m.InStep True) (start : Word)
    (hmovable : ∀ r ∈ m.space.regions.toList, m.space.fixes r.start = false → r.isPinned = false) :
    (untrack start).Leads m
      (fun _ m' => m'.space.Lodged heap (insert start spare) ∧ m'.space.fixes = m.space.fixes ∧
        ∀ q ∈ m'.space.regions.toList, q ∈ m.space.regions.toList)
      fun _ _ => False := by
  unfold untrack
  refine .bind (.read ?_)
  cases ha : m.ledger.allocation? start with
  | none =>
    rw [Ledger.untrack?_of_none ha]
    exact .answer ⟨h.mono (Set.subset_insert _ _), rfl, fun _ hq => hq⟩
  | some a =>
    obtain ⟨hstart, hextent, hfree⟩ := hstep.backed start a ha
    rw [Ledger.untrack?_of_some ha hstart]
    obtain ⟨r, hr, rfl, -⟩ := AddressSpace.mem_extents.mp hextent
    refine .bind (.update (.bind (onSpace_leads ?_)))
    have hfound : m.space.regions.find? (Region.startingAt r.start) .byStart = some r :=
      h.arranged.ordered.find?_self hr rfl
    have hremoves := (AddressSpace.removeRegion_leaves h.arranged (.startingAt r.start) .byStart)
    refine hremoves.mono (fun _ s hs => Leads.answer ?_) fun f s hs => ?_
    · obtain ⟨harranged, hfixes, q, -, hq, hmem⟩ := hs
      obtain rfl := Option.some.inj (hfound.symm.trans hq)
      exact ⟨h.leaves hfree harranged hfixes hmem, hfixes, fun q hq => ((hmem q).mp hq).1⟩
    · have hfixed := hs.2 r hfound
      rw [AddressSpace.isFixed_eq, hmovable r hr hfree, show m.space.fixes r.start = false from hfree] at hfixed
      exact Bool.false_ne_true hfixed

end Monitor

end RegionGuard

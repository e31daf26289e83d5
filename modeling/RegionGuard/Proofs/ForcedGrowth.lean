import RegionGuard.Proofs.HeapOwners
import RegionGuard.Proofs.HousedRegions
set_option autoImplicit false

namespace RegionGuard

open Stateful

namespace Tracker

variable {ρ : Type} {t t' t'' : Tracker ρ} {r : Region} {start newStop : Word}

def others (t : Tracker ρ) (start : Word) : List Region := t.regions.filter fun r => !decide (r.start = start)

/-- Between two states regions have made way for one that starts at `start`, up to a new end. They are the same ones, and
those that were not in the way or are fixed have stayed. -/
structure Cleared (t t' : Tracker ρ) (start newStop : Word) : Prop where
  arranged : t'.space.Arranged
  fixes : t'.space.fixes = t.space.fixes
  shapes : (t'.regions.map (·.at 0)).Perm (t.regions.map (·.at 0))
  stayed : ∀ r ∈ t.regions, ¬ (start < r.start ∧ r.start < newStop) ∨ t.space.isFixed r = true → r ∈ t'.regions

namespace Cleared

theorem refl (h : t.space.Arranged) (start newStop : Word) : Cleared t t start newStop :=
  ⟨h, rfl, .refl _, fun _ hr _ => hr⟩

theorem isFixed (h : Cleared t t' start newStop) (r : Region) : t'.space.isFixed r = t.space.isFixed r := by
  rw [AddressSpace.isFixed_eq, AddressSpace.isFixed_eq, h.fixes]

theorem trans (h : Cleared t t' start newStop) (h' : Cleared t' t'' start newStop) : Cleared t t'' start newStop where
  arranged := h'.arranged
  fixes := h'.fixes.trans h.fixes
  shapes := h'.shapes.trans h.shapes
  stayed r hr hstays := h'.stayed r (h.stayed r hr hstays) (hstays.imp_right (h.isFixed r).trans)

theorem of_spaces {u u' : Tracker ρ} (h : Cleared t t' start newStop) (hu : u.space = t.space) (hu' : u'.space = t'.space) :
    Cleared u u' start newStop := by
  have hregions : u.regions = t.regions := congrArg (·.regions.toList) hu
  have hregions' : u'.regions = t'.regions := congrArg (·.regions.toList) hu'
  refine ⟨hu' ▸ h.arranged, hu ▸ hu' ▸ h.fixes, hregions ▸ hregions' ▸ h.shapes, fun r hr hstays => ?_⟩
  rw [hu] at hstays
  exact hregions' ▸ h.stayed r (hregions ▸ hr) hstays

end Cleared

section Moves

variable [Relocator ρ]

theorem Departed.isMoved {old new : Region} (h : Departed t old new t') (ht : t.space.Arranged) :
    ∃ r, r.start = old.start ∧ t.space.isFixed r = false ∧ Moved t t' r new.start := by
  obtain ⟨r, hr, hstart, hfree, hfresh, -, hmem⟩ := h.moved
  refine ⟨r, hstart, hfree, hr, ?_⟩
  have hnew : r.at new.start ∉ t.regions.filter fun s => !decide (s.start = r.start) := fun hin => by
    obtain ⟨hin, hne⟩ := List.mem_filter.mp hin
    rw [hfresh _ hin rfl] at hne
    simp at hne
  refine (List.perm_ext_iff_of_nodup h.arranged.ordered.rising.nodup
    (List.nodup_cons.mpr ⟨hnew, ht.ordered.rising.nodup.filter _⟩)).mpr fun q => ?_
  refine (hmem q).trans ?_
  rw [List.mem_cons, List.mem_filter, Bool.not_eq_true', decide_eq_false_iff_not]
  rfl

theorem Departed.cleared {old new : Region} (h : Departed t old new t') (ht : t.space.Arranged) (hbehind : start < old.start)
    (hbelow : old.start < newStop) : Cleared t t' start newStop := by
  obtain ⟨r, hstart, hfree, hmoved⟩ := h.isMoved ht
  refine ⟨h.arranged, h.fixes, hmoved.shapes ht.ordered.rising, fun s hs hstays => ?_⟩
  have hne : s.start ≠ r.start := by
    rintro heq
    obtain rfl := ht.ordered.rising.eq_of_start hs hmoved.tracked heq
    rcases hstays with haway | hfixed
    · exact haway (hstart ▸ ⟨hbehind, hbelow⟩)
    · exact Bool.noConfusion (hfree.symm.trans hfixed)
  exact hmoved.regions.mem_iff.mpr (List.mem_cons_of_mem _ (List.mem_filter.mpr ⟨hs, by simpa using hne⟩))

def Raises (ρ : Type) [Relocator ρ] (f : Failure) : Prop := ∀ e, f = .fatal e → Relocator.CanStop ρ e

theorem raises_error (e : Error) : Raises ρ (.error e) := nofun

theorem moveToBlock_clears (h : t.space.Arranged) {old : Region} (destination : Word) (hbehind : start < old.start)
    (hbelow : old.start < newStop) :
    (moveToBlock old destination).Leads t
      (fun _ t' => Cleared t t' start newStop ∧ t'.heap = t.heap.free old.start ∧
        ∀ q ∈ t'.regions, q.start = destination ∨ q ∈ t.regions ∧ q.start ≠ old.start)
      fun f _ => Raises ρ f := by
  unfold moveToBlock
  refine .bind (.onError (((moveRegion_travels h old _).and (moveRegion_frame old _)).mono
    (fun _ t' ht' => .update ?_) fun f t' ht' => ?_))
  · obtain ⟨hdeparted, hheap⟩ := ht'
    have hcleared := hdeparted.cleared h hbehind hbelow
    refine ⟨hcleared.of_spaces rfl rfl, congrArg (·.free old.start) hheap, fun q hq => ?_⟩
    obtain ⟨r, -, hstart, -, -, -, hmem⟩ := hdeparted.moved
    rcases (hmem q).mp hq with rfl | ⟨hq, hne⟩
    · exact .inl rfl
    · exact .inr ⟨hq, hstart ▸ hne⟩
  · cases f with
    | error e => exact raises_error _
    | fatal e => exact ht'.2.2

/-- One by one the regions in the way of a growing one move, until none starts in front of its new end. -/
theorem evictNeighbors_clears (h : t.space.Arranged) (hheap : t.heap.Laid) (hstart : start.toNat + 1 < Word.modulus)
    (byForce : Bool) {rounds : Nat} (hrounds : (t.crowd start newStop).length < rounds) :
    (evictNeighbors start newStop byForce rounds).Leads t
      (fun _ t' => Cleared t t' start newStop ∧ ∀ q ∈ t'.regions, start < q.start → newStop ≤ q.start)
      fun f _ => Raises ρ f := by
  refine (evictNeighbors_rounds (E := fun f _ => Raises ρ f)
    (I := fun n t' => Cleared t t' start newStop ∧ t'.heap.Laid ∧ (t'.crowd start newStop).length < n)
    (fun _ ht' => absurd ht'.2.2 (Nat.not_lt_zero _)) (fun _ _ _ _ => raises_error _)
    (fun n t' neighbor place heap ht' _ hevicts => ?_) ⟨.refl h _ _, hheap, hrounds⟩).mono (fun _ t' ht' => ?_)
    fun _ _ hf => hf
  · obtain ⟨hcleared, hlaid, hless⟩ := ht'
    have hbehind := (hevicts.tracked hcleared.arranged.ordered hstart).2
    obtain ⟨haway, low, high, halloc⟩ := evictionPlace?_granted hlaid hevicts.granted
    have hlaid' : heap.Laid := by
      obtain ⟨granted, rfl, -, hroom, -⟩ := hlaid.granted halloc
      exact hlaid.insert hroom
    have htaken : ({ t' with heap := heap } : Tracker ρ).space.Arranged := hcleared.arranged
    refine (moveToBlock_clears htaken place hbehind hevicts.below).mono (fun _ t'' ht'' => ?_) fun _ _ hf => hf
    obtain ⟨hmoved, hfreed, hkept⟩ := ht''
    have hmade : Cleared t' t'' start newStop := hmoved.of_spaces rfl rfl
    have hfewer := length_crowd_lt hmade.arranged (hevicts.mem_crowd hcleared.arranged.ordered hstart) haway hkept
    exact ⟨hcleared.trans hmade, hfreed ▸ hlaid'.free _, Nat.lt_of_lt_of_le hfewer (Nat.le_of_lt_succ hless)⟩
  · obtain ⟨⟨-, hcleared, -⟩, hclear⟩ := ht'
    refine ⟨hcleared, fun q hq hlt => ?_⟩
    have hle := (Word.add_one_le_iff hstart).mpr hlt
    cases hnext : t'.space.regions.nextFrom? (start + 1) with
    | none => exact absurd hle (UInt64.not_le.mpr (hcleared.arranged.ordered.nextFrom?_eq_none_iff.mp hnext q hq))
    | some first =>
      exact UInt64.le_trans (hclear first hnext) ((hcleared.arranged.ordered.nextFrom?_eq_some_iff.mp hnext).2.2 q hq hle)

end Moves

/-- What a region that is resized leaves of all that is tracked. It has its new length and is otherwise the same, the
others are the same ones as before, and none has moved but those that started in the new reach of the region. -/
structure Resized (t t' : Tracker ρ) (r : Region) (newSize length : Word) : Prop where
  resized : { r with length := length } ∈ t'.regions
  precise : newSize ≤ r.length → length = newSize
  enough : r.length < newSize → newSize ≤ length
  count : t'.regions.length = t.regions.length
  others : ((t'.others r.start).map (·.at 0)).Perm ((t.others r.start).map (·.at 0))
  stayed : ∀ s ∈ t.others r.start, ¬ (r.start ≤ s.start ∧ s.start.toNat < r.start.toNat + newSize.toNat) → s ∈ t'.regions
  fixed : ∀ s ∈ t.regions, t.space.isFixed s = true → s ∈ t'.regions ∧ t'.space.isFixed s = true

/-- A region that others have made way for takes its new length, and no other changes. -/
theorem Cleared.resized (h : Cleared t t' r.start newStop) (ht : t.space.Arranged) (hr : r ∈ t.regions)
    (hfree : t.space.isFixed r = false) {newSize length : Word} (hreach : newStop.toNat ≤ r.start.toNat + newSize.toNat)
    (hprecise : newSize ≤ r.length → length = newSize) (henough : r.length < newSize → newSize ≤ length)
    (heap : Heap) : Resized t (setLength r.start length { t' with heap := heap }) r newSize length := by
  have hregions : (setLength r.start length { t' with heap := heap }).regions =
      t'.regions.map fun q => if q.start = r.start then { q with length := length } else q :=
    (h.arranged.ordered.modify_eq (w := r.start) (f := fun q => { q with length := length }) fun _ _ hw => hw).2
  have hothers : (setLength r.start length { t' with heap := heap }).others r.start = t'.others r.start := by
    unfold Tracker.others
    rw [hregions, List.filter_map]
    have hsame : ∀ q : Region, (if q.start = r.start then { q with length := length } else q).start = q.start :=
      fun q => by split <;> rfl
    rw [List.filter_congr (q := fun q => !decide (q.start = r.start)) fun q _ => by simp [hsame]]
    refine (List.map_congr_left fun q hq => if_neg ?_).trans (List.map_id _)
    simpa using (List.mem_filter.mp hq).2
  have hnotself : ¬ (r.start < r.start ∧ r.start < newStop) := fun hlt => UInt64.lt_irrefl _ hlt.1
  have hr' : r ∈ t'.regions := h.stayed r hr (.inl hnotself)
  have hkept : ∀ s ∈ t'.regions, s.start ≠ r.start → s ∈ (setLength r.start length { t' with heap := heap }).regions :=
    fun s hs hne => hregions ▸ List.mem_map.mpr ⟨s, hs, if_neg hne⟩
  -- Without the region itself, which has stayed, the others are the same ones.
  have hperm : ((t'.others r.start).map (·.at 0)).Perm ((t.others r.start).map (·.at 0)) := by
    have hfront := ((h.arranged.ordered.rising.perm_cons_filter hr').map (·.at 0)).trans
      (h.shapes.trans ((ht.ordered.rising.perm_cons_filter hr).map (·.at 0)).symm)
    exact (List.perm_cons _).mp hfront
  refine ⟨?_, hprecise, henough, ?_, ?_, fun s hs haway => ?_, fun s hs hfixed => ⟨?_, (h.isFixed s).trans hfixed⟩⟩
  · exact hregions ▸ List.mem_map.mpr ⟨r, hr', if_pos rfl⟩
  · rw [hregions, List.length_map]
    simpa using h.shapes.length_eq
  · rw [hothers]
    exact hperm
  · obtain ⟨hs, hne⟩ := List.mem_filter.mp hs
    refine hkept s (h.stayed s hs (.inl fun hin => haway ⟨UInt64.le_of_lt hin.1, ?_⟩)) (by simpa using hne)
    exact Nat.lt_of_lt_of_le (UInt64.lt_iff_toNat_lt.mp hin.2) hreach
  · refine hkept s (h.stayed s hs (.inr hfixed)) fun heq => ?_
    obtain rfl := ht.ordered.rising.eq_of_start hs hr heq
    exact Bool.noConfusion (hfree.symm.trans hfixed)

theorem resized_refl (hr : r ∈ t.regions) : Resized t t r r.length r.length where
  resized := hr
  precise _ := rfl
  enough _ := UInt64.le_refl _
  count := rfl
  others := .refl _
  stayed _ hs _ := (List.mem_filter.mp hs).1
  fixed _ hs hfixed := ⟨hs, hfixed⟩

theorem le_granted (h : t.space.regions.Ordered) (hstart : start.toNat + 1 < Word.modulus) {size granted : Word}
    (hgranted : size ≤ granted) (hroom : ∀ q ∈ t.regions, start < q.start → start.toNat + size.toNat ≤ q.start.toNat) :
    size ≤ match t.space.regions.nextFrom? (start + 1) with
      | some neighbor => min (neighbor.start - start) granted
      | none => granted := by
  cases hnext : t.space.regions.nextFrom? (start + 1) with
  | none => exact hgranted
  | some neighbor =>
    obtain ⟨hmem, hle, -⟩ := h.nextFrom?_eq_some_iff.mp hnext
    have hbehind := (Word.add_one_le_iff hstart).mp hle
    have hgap := UInt64.toNat_sub_of_le _ _ (UInt64.le_of_lt hbehind)
    have hfits := hroom neighbor hmem hbehind
    have hmin : min (neighbor.start - start) granted =
      if neighbor.start - start ≤ granted then neighbor.start - start else granted := rfl
    change size ≤ min (neighbor.start - start) granted
    rw [hmin]
    split
    · exact UInt64.le_iff_toNat_le.mpr (by omega)
    · exact hgranted

variable [Relocator ρ]

theorem growRegion_clears (h : t.space.Arranged) (hheap : t.heap.Laid) (hr : r ∈ t.regions)
    (hfree : t.space.isFixed r = false) {newSize : Word} (hgrows : r.length < newSize) (byForce : Bool) :
    (growRegion r newSize byForce).Leads t (fun m t' => Resized t t' r newSize m) fun f _ => Raises ρ f := by
  unfold growRegion
  refine .bind (.present (fun newStop hstop => ?_) fun _ => raises_error _)
  have hsum := Word.add?_eq_some_iff.mp hstop
  have hlt := UInt64.lt_iff_toNat_lt.mp hgrows
  have hnext : r.start.toNat + 1 < Word.modulus := by
    have := Word.toNat_pos (h.nonempty r hr)
    have := newStop.toNat_lt
    unfold Word.modulus
    omega
  have hrounds : (t.crowd r.start newStop).length < t.space.regions.size + 1 := by
    have hsize : t.regions.length = t.space.regions.size := RegionIndex.length_toList _
    exact Nat.lt_succ_of_le (hsize ▸ List.length_filter_le _ _)
  refine .bind (.read (.bind ((evictNeighbors_clears h hheap hnext byForce hrounds).mono (fun _ t' ht' => ?_)
    fun _ _ hf => hf)))
  obtain ⟨hcleared, hclear⟩ := ht'
  refine .bind (allocate_leads (fun granted heap hresize => ?_) fun _ => raises_error _)
  obtain ⟨-, hgranted, -⟩ := Heap.resize?_eq hresize
  refine .refuse (fun _ => raises_error _) fun _ => .bind (.read (.bind (.update (.answer ?_))))
  refine hcleared.resized h hr hfree (Nat.le_of_eq hsum.symm) (fun hle => ?_) (fun _ => ?_) heap
  · exact absurd (UInt64.lt_of_lt_of_le hgrows hle) (UInt64.lt_irrefl _)
  -- The next region starts behind the new end, and the heap has granted what was asked for.
  · refine le_granted hcleared.arranged.ordered hnext hgranted fun q hq hlt => ?_
    rw [hsum]
    exact UInt64.le_iff_toNat_le.mp (hclear q hq hlt)

theorem resizeRegion_clears (h : t.space.Arranged) (hheap : t.heap.Laid) (query : Region) (newSize : Word) (byForce : Bool) :
    (resizeRegion query newSize byForce).Leads t
      (fun m t' => ∃ r ∈ t.regions, r.start = query.start ∧ Resized t t' r newSize m) fun f _ => Raises ρ f := by
  unfold resizeRegion
  refine .bind (.read (.bind (.lift (fun r hr => ?_) fun f hf => ?_)))
  rotate_left
  · obtain ⟨e, rfl⟩ := AddressSpace.raises_of_findRegion hf
    exact raises_error _
  obtain ⟨hmem, hagrees⟩ := h.ordered.mem_of_findRegion hr
  have hstart : r.start = query.start := Region.start_of_agrees hagrees rfl
  refine .branch (fun hsame => .answer ⟨r, hmem, hstart, hsame ▸ resized_refl hmem⟩) fun hother => ?_
  refine .refuse (fun _ => raises_error _) fun _ => .refuse (fun _ => raises_error _) fun hfixed => ?_
  have hfree := Bool.eq_false_iff.mpr hfixed
  refine .branch (fun hshrinks => .bind (.update (.bind (.update (.answer ?_))))) fun hgrows => ?_
  · refine ⟨r, hmem, hstart, (Cleared.refl h r.start r.start).resized h hmem hfree (Nat.le_add_right _ _) (fun _ => rfl)
      (fun _ => UInt64.le_refl _) _⟩
  · have hgrows := UInt64.lt_of_le_of_ne (UInt64.not_lt.mp hgrows) (Ne.symm hother)
    exact (growRegion_clears h hheap hmem hfree hgrows byForce).mono (fun _ _ ht' => ⟨r, hmem, hstart, ht'⟩) fun _ _ hf => hf

section Heaps

/-- Requests take blocks from the heap, resize them and give them back. -/
def KeepsHeap {α : Type} (x : Stateful (Tracker ρ) α) : Prop := Maintains (fun t => t.heap.Reachable) x

omit [Relocator ρ] in
theorem allocate_keepsHeap {f : Heap → Option (Word × Heap)} (shortage : MemoryShortage)
    (hf : ∀ h a h', f h = some (a, h') → h.Reachable → h'.Reachable) : KeepsHeap (ρ := ρ) (allocate f shortage) :=
  .of_leads fun _ ht => allocate_leads (fun _ _ hfound => hf _ _ _ hfound ht) fun _ => ht

omit [Relocator ρ] in
theorem onSpace_keepsHeap {α : Type} (x : Stateful AddressSpace α) : KeepsHeap (ρ := ρ) (onSpace x) :=
  .zoom (J := fun _ => True) (fun _ _ => trivial) (fun _ _ => trivial) fun _ _ ht _ => ht

theorem moveRegion_keepsHeap (old new : Region) : KeepsHeap (ρ := ρ) (moveRegion old new) :=
  .of_leads fun _ ht => (moveRegion_frame old new).mono (fun _ _ hsame => hsame ▸ ht) fun _ _ hsame => hsame.1 ▸ ht

theorem moveToBlock_keepsHeap (old : Region) (destination : Word) : KeepsHeap (ρ := ρ) (moveToBlock old destination) :=
  ((moveRegion_keepsHeap old _).onError fun _ ht => ht.free destination).bind fun _ => .update fun _ ht => ht.free old.start

theorem evictNeighbors_keepsHeap (start newStop : Word) (byForce : Bool) (rounds : Nat) :
    KeepsHeap (ρ := ρ) (evictNeighbors start newStop byForce rounds) := by
  refine .of_leads fun t ht => (evictNeighbors_rounds (I := fun _ t' => t'.heap.Reachable) (E := fun _ t' => t'.heap.Reachable)
    (fun _ ht' => ht') (fun _ _ _ ht' => ht') (fun _ t' neighbor place heap ht' _ hevicts => ?_) ht).mono
    (fun _ _ ht' => ht'.1.elim fun _ hheap => hheap) fun _ _ ht' => ht'
  refine (moveToBlock_keepsHeap neighbor place).leads ?_
  have hplace := hevicts.granted
  unfold evictionPlace? at hplace
  split at hplace
  · cases hplace
    exact ht'.alloc ‹_›
  · exact ht'.alloc hplace

theorem resizeRegion_keepsHeap (query : Region) (newSize : Word) (byForce : Bool) :
    KeepsHeap (ρ := ρ) (resizeRegion query newSize byForce) := by
  unfold resizeRegion growRegion resizeBlock
  refine .inspect fun t _ => (Maintains.lift _).bind fun r => ?_
  refine .branch (fun _ => .answer _) fun _ => .refuse fun _ => .refuse fun _ => .branch (fun _ => ?_) fun _ => ?_
  · refine .bind (.update fun t ht => ?_) fun _ => .bind (.update fun _ ht => ht) fun _ => .answer _
    change (((t.heap.resize? r.start newSize).map (·.2)).getD t.heap).Reachable
    cases hresize : t.heap.resize? r.start newSize with
    | none => exact ht
    | some found => exact ht.resize hresize
  · refine (Maintains.present _ _).bind fun newStop => .inspect fun t _ =>
      (evictNeighbors_keepsHeap _ _ _ _).bind fun _ => ?_
    refine (allocate_keepsHeap _ fun _ _ _ hresize hh => hh.resize hresize).bind fun granted => ?_
    exact .refuse fun _ => .inspect fun t _ => .bind (.update fun _ ht => ht) fun _ => .answer _

theorem defragmentRegion_keepsHeap (query : Region) (newSize : Word) :
    KeepsHeap (ρ := ρ) (defragmentRegion query newSize) := by
  unfold defragmentRegion
  refine .inspect fun t _ => (Maintains.lift _).bind fun r => .refuse fun _ => .refuse fun _ => ?_
  exact (allocate_keepsHeap _ fun _ _ _ halloc hh => hh.alloc halloc).bind fun destination =>
    (moveToBlock_keepsHeap r destination).bind fun _ => .answer _

theorem perform_keepsHeap (q : SpaceRequest) : KeepsHeap (ρ := ρ) q.perform := by
  cases q with
  | add r => exact (onSpace_keepsHeap _).bind fun _ => .answer _
  | remove query m => exact (onSpace_keepsHeap _).bind fun _ => .answer _
  | protect query p => exact onSpace_keepsHeap _
  | pin address => exact (onSpace_keepsHeap _).bind fun _ => .answer _
  | access address a => exact onSpace_keepsHeap _
  | move old new => exact (moveRegion_keepsHeap old new).bind fun _ => .answer _
  | resize query newSize byForce => exact (resizeRegion_keepsHeap query newSize byForce).bind fun _ => .answer _
  | defragment query newSize => exact (defragmentRegion_keepsHeap query newSize).bind fun _ => .answer _
  | destroy => exact .update fun _ ht => ht

/-- The heap of an address space is one that blocks have been taken from and given back to. -/
theorem Reachable.heap (h : t.Reachable) : t.heap.Reachable := by
  induction h with
  | built _ hheap _ => exact hheap
  | request _ q ih => exact perform_keepsHeap q _ ih
  | host _ hheap _ => exact hheap
  | memory _ _ ih => exact ih

end Heaps

/-- Growth ends: it stops for good only where the relocator does, never for lack of rounds. -/
theorem resizeRegion_ends (h : t.Reachable) {query : Region} {newSize : Word} {byForce : Bool} {e : Fatal}
    (hrun : (resizeRegion query newSize byForce).runFrom t = (.error (.fatal e), t')) : Relocator.CanStop ρ e :=
  (resizeRegion_clears h.arranged h.heap.laid query newSize byForce).error hrun e rfl

/-- Growth loses nothing, by force or not: of all that is tracked, only the region that is resized has another length, and
only those move that started in its new reach and are not fixed. -/
theorem growth_loses_nothing (h : t.Reachable) {query : Region} {newSize length : Word} {byForce : Bool}
    (hrun : (resizeRegion query newSize byForce).runFrom t = (.ok length, t')) :
    ∃ r ∈ t.regions, r.start = query.start ∧ Resized t t' r newSize length :=
  (resizeRegion_clears h.arranged h.heap.laid query newSize byForce).ok hrun

end Tracker

namespace Tracker

def sideBySide : Tracker Ledger :=
  after ⟨.empty "kernel" .keyed, .make 0x100000 0x10000, .empty⟩
    [.add (.make 0x1000 0x10 .readWrite), .defragment (.startingAt 0x1000) 0x10,
      .add (.make 0x1000 0x20 .readWrite), .defragment (.startingAt 0x1000) 0x20]

/-- The first of two regions takes over the place of the second one, which moves behind it. -/
theorem growth_loses_nothing_sideBySide :
    sideBySide.Reachable ∧
      ((resizeRegion (.startingAt 0x100000) 0x20 true).runFrom sideBySide).1 = .ok 0x20 ∧
      ((resizeRegion (.startingAt 0x100000) 0x20 true).runFrom sideBySide).2.regions =
        [.make 0x100000 0x20 .readWrite, .make 0x100030 0x20 .readWrite] ∧
      ∃ r ∈ sideBySide.regions, r.start = 0x100000 ∧
        Resized sideBySide ((resizeRegion (.startingAt 0x100000) 0x20 true).runFrom sideBySide).2 r 0x20 0x20 := by
  have hbuild : AddressSpace.build "kernel" .keyed none none = .ok (.empty "kernel" .keyed) := rfl
  have reachable : sideBySide.Reachable := Reachable.after (.built hbuild (.make _ _) _) _
  have hgrows : ((resizeRegion (.startingAt 0x100000) 0x20 true).runFrom sideBySide).1 = .ok 0x20 := by decide +kernel
  have hrun : (resizeRegion (.startingAt 0x100000) 0x20 true).runFrom sideBySide =
      (.ok 0x20, ((resizeRegion (.startingAt 0x100000) 0x20 true).runFrom sideBySide).2) := Prod.ext hgrows rfl
  refine ⟨reachable, hgrows, by decide +kernel, ?_⟩
  obtain ⟨r, hr, hstart, hresized⟩ := growth_loses_nothing reachable hrun
  exact ⟨r, hr, hstart, hresized⟩

end Tracker

end RegionGuard

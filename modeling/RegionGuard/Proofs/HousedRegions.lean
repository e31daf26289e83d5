import RegionGuard.Proofs.Lodgings
set_option autoImplicit false

namespace RegionGuard

open Stateful

/-- A relocation can end in a stop that no caller handles. -/
def Relocator.CanStop (ρ : Type) [Relocator ρ] (e : Fatal) : Prop :=
  ∃ (source destination length : Word) (x x' : ρ),
    (Relocator.relocate source destination length).runFrom x = (.error (.fatal e), x')

namespace Tracker

variable {ρ : Type} {t t' : Tracker ρ}

/-- The stack and the blob lie outside the arena, all other regions in the blocks at their starts, and there are no
other blocks. -/
def Housed (t : Tracker ρ) : Prop := t.space.Lodged t.heap ∅

/-- What a request that failed leaves behind: all regions in their blocks, unless the relocator stopped for good. -/
def Spares [Relocator ρ] (f : Failure) (t : Tracker ρ) : Prop :=
  match f with
  | .error _ => t.Housed
  | .fatal e => Relocator.CanStop ρ e

namespace Housed

theorem departed [Relocator ρ] (h : t.Housed) {old new : Region} {granted : Word} (hroom : t.heap.Room new.start granted)
    (hnone : t.heap.blocks.get? new.start = none) {heap : Heap}
    (hheap : heap = { t.heap with blocks := t.heap.blocks.insert new.start granted })
    (ht' : Departed { t with heap := heap } old new t') (hsame : t'.heap = heap)
    (hle : ∀ r ∈ t.regions, r.start = old.start → r.length ≤ granted) : Housed (t'.free old.start) := by
  obtain ⟨r, hr, hstart, hfree, -, -, hmem⟩ := ht'.moved
  rw [← hstart]
  have hfixed : t.space.fixes r.start = false := (Bool.or_eq_false_iff.mp hfree).2
  obtain ⟨size, hsize, -⟩ := AddressSpace.Lodged.homes h r.start r.length (AddressSpace.mem_extents.mpr ⟨r, hr, rfl, rfl⟩) hfixed
  have hne : new.start ≠ r.start := by
    intro heq
    rw [← heq, hnone] at hsize
    cases hsize
  have hblocks : ∀ w, (t'.heap.free r.start).blocks.get? w =
      if w = r.start then none else if w = new.start then some granted else t.heap.blocks.get? w := fun w => by
    change (t'.heap.blocks.erase r.start).get? w = _
    rw [hsame, hheap, Table.get?_erase, Table.get?_insert]
  refine AddressSpace.Lodged.change h ht'.arranged ?_ ht'.fixes ?_ (fun w => ?_) fun _ hw => .inl hw
  · change (t'.heap.free r.start).Laid
    rw [hsame, hheap]
    exact (h.laid.insert hroom).free r.start
  · change t'.heap.covers = _
    rw [hsame, hheap]
    rfl
  by_cases hw : w = new.start
  · subst hw
    refine .of_mem (r := { r with start := new.start, physicalStart := new.start }) ht'.arranged ((hmem _).mpr (.inl rfl))
      ((hblocks _).trans ((if_neg hne).trans (if_pos rfl))) (hle r hr hstart) (h.free_of_room hroom)
  by_cases hwr : w = r.start
  · subst hwr
    refine .of_none (fun q hq heq => ?_) (.inl ((hblocks _).trans (if_pos rfl))) hfixed
    rcases (hmem q).mp hq with rfl | ⟨-, hq⟩
    · exact hne heq
    · exact hq heq
  · refine .of_same (fun q hq => (hmem q).trans ?_) ((hblocks _).trans ((if_neg hwr).trans (if_neg hw)))
    rw [or_iff_right, and_iff_left (hq ▸ hwr)]
    · rfl
    · rintro rfl
      exact hw hq.symm

end Housed

section Requests

variable [Relocator ρ]

theorem moveRegion_frame (old new : Region) :
    (moveRegion old new).Leads t (fun _ t' => t'.heap = t.heap)
      fun f t' => t'.heap = t.heap ∧ ∀ e, f = .fatal e → Relocator.CanStop ρ e := by
  have never : ∀ {α : Type} {x : Outcome α}, Outcome.Stops (fun _ => False) x → ∀ f, x = .error f →
      ∀ e, f = .fatal e → Relocator.CanStop ρ e := fun hx f hf e he => (hx e (hf.trans (congrArg Except.error he))).elim
  unfold moveRegion
  refine .bind (.mono (.each fun r _ => ?_) (fun _ u hu => ?_) fun _ _ he => he)
  · exact .require (fun _ => ⟨rfl, nofun⟩) fun _ => .answer ⟨rfl, rfl⟩
  rw [hu]
  refine .bind (.read (.bind (.lift (fun r _ => ?_) fun f hf => ⟨rfl, never .orRaise f hf⟩)))
  refine .refuse (fun _ => ⟨rfl, nofun⟩) fun _ => .refuse (fun _ => ⟨rfl, nofun⟩) fun _ => .bind (.update ?_)
  refine .bind (.mono (Q := fun _ u => u.heap = t.heap) (.onError (.bind (.zoom (.inquire (fun _ _ => ?_) fun f hf => ?_))))
    (fun _ u hu => ?_) fun _ _ he => he)
  · refine .zoom ?_
    cases hrun : (Relocator.relocate r.start new.start r.length).runFrom t.relocation with
    | mk o x =>
      cases o with
      | ok _ => exact .of_ok hrun rfl
      | error f =>
        refine .of_error hrun ?_
        cases f with
        | error e => exact ⟨rfl, nofun⟩
        | fatal e =>
          refine ⟨rfl, fun e' he' => ?_⟩
          cases he'
          exact ⟨_, _, _, _, _, hrun⟩
  · cases f with
    | error e => exact ⟨rfl, nofun⟩
    | fatal e => exact (AddressSpace.stops_checkRoom _ _ e hf).elim
  · unfold insertRegion
    exact .bind (.zoom (.change (fun _ _ => .answer hu) fun f hf =>
      ⟨hu, never (.bind (RegionIndex.stops_insert _ _) fun _ => .answer _) f hf⟩))

theorem moveToBlock_houses (h : t.Housed) {old : Region} (hold : old ∈ t.regions) {size low high place : Word} {heap : Heap}
    (halloc : t.heap.allocWithin? size low high = some (place, heap)) (hle : old.length ≤ size) :
    (moveToBlock old place).Leads { t with heap := heap }
      (fun _ t' => t'.Housed ∧ ∀ q ∈ t'.regions, q.start = place ∨ q ∈ t.regions ∧ q.start ≠ old.start) Spares := by
  obtain ⟨granted, hheap, hsize, hroom, hnone, -⟩ := h.laid.granted halloc
  have hlong : old.length ≤ granted := UInt64.le_trans hle hsize
  have hfits : place.toNat + old.length.toNat < Word.modulus := by
    have := hroom.fits
    have := UInt64.le_iff_toNat_le.mp hlong
    omega
  have harranged : ({ t with heap := heap } : Tracker ρ).space.Arranged := h.arranged
  unfold moveToBlock
  refine .bind (.onError (((moveRegion_travels harranged old (.make place old.length old.protection)).and
    (moveRegion_frame old _)).mono (fun _ t' ht' => .update ?_) fun f t' ht' => ?_))
  · obtain ⟨hdeparted, hsame⟩ := ht'
    refine ⟨h.departed hroom hnone hheap hdeparted hsame fun r hr hstart => ?_, fun q hq => ?_⟩
    · rw [h.arranged.ordered.rising.eq_of_start hr hold hstart]
      exact hlong
    · obtain ⟨r, -, hstart, -, -, -, hmem⟩ := hdeparted.moved
      rcases (hmem q).mp hq with rfl | ⟨hq, hne⟩
      · exact .inl rfl
      · exact .inr ⟨hq, hstart ▸ hne⟩
  · obtain ⟨hstranded, hsame, hstops⟩ := ht'
    cases f with
    | fatal e => exact hstops e rfl
    | error e =>
      obtain ⟨hregions, hfixes⟩ := hstranded.kept (.inl hfits) e rfl
      have hback : t'.heap.free place = t.heap := by
        rw [hsame]
        exact Heap.free_of_allocWithin? h.laid.sound halloc
      change Housed ⟨t'.space, t'.heap.free place, t'.relocation⟩
      rw [hback]
      exact AddressSpace.Lodged.change h hstranded.arranged h.laid hfixes rfl
        (fun w => .of_same (fun q _ => iff_of_eq (congrArg (q ∈ ·) hregions)) rfl) fun _ hw => .inl hw

def crowd (t : Tracker ρ) (start newStop : Word) : List Region :=
  t.regions.filter fun r => start < r.start ∧ r.start < newStop

theorem spares_of_findRegion (h : t.Housed) {s : AddressSpace} {query : Region} {m : MatchMask} {f : Failure}
    (hf : s.findRegion query m = .error f) : Spares f t := by
  obtain ⟨e, rfl⟩ := AddressSpace.raises_of_findRegion hf
  exact h

omit [Relocator ρ] in
theorem length_crowd_lt (h' : t'.space.Arranged) {start newStop place : Word} {old : Region}
    (hold : old ∈ t.crowd start newStop) (hplace : ¬ (start < place ∧ place < newStop))
    (hmem : ∀ q ∈ t'.regions, q.start = place ∨ q ∈ t.regions ∧ q.start ≠ old.start) :
    (t'.crowd start newStop).length < (t.crowd start newStop).length := by
  have hsubset : t'.crowd start newStop ⊆ (t.crowd start newStop).erase old := by
    intro q hq
    obtain ⟨hq, hbetween⟩ := List.mem_filter.mp hq
    rcases hmem q hq with rfl | ⟨hq, hne⟩
    · exact absurd (of_decide_eq_true hbetween) hplace
    · refine (List.mem_erase_of_ne ?_).mpr (List.mem_filter.mpr ⟨hq, hbetween⟩)
      rintro rfl
      exact hne rfl
  have hle : (t'.crowd start newStop).length ≤ _ := (h'.ordered.rising.nodup.filter _).length_le_of_subset hsubset
  rw [List.length_erase_of_mem hold] at hle
  have := List.length_pos_of_mem hold
  omega

omit [Relocator ρ] in
theorem evictionPlace?_granted (h : t.heap.Laid) {start newStop length place : Word} {heap : Heap}
    (hplace : evictionPlace? start newStop length t.heap = some (place, heap)) :
    ¬ (start < place ∧ place < newStop) ∧ ∃ low high, t.heap.allocWithin? length low high = some (place, heap) := by
  unfold evictionPlace? at hplace
  split at hplace
  · rename_i hbehind
    cases hplace
    obtain ⟨-, -, -, -, -, hle, -⟩ := h.granted hbehind
    exact ⟨fun hbetween => UInt64.not_lt.mpr hle hbetween.2, _, _, hbehind⟩
  · obtain ⟨granted, -, -, -, -, -, hle⟩ := h.granted hplace
    refine ⟨fun hbetween => ?_, _, _, hplace⟩
    have := UInt64.lt_iff_toNat_lt.mp hbetween.1
    omega

omit [Relocator ρ] in
theorem Evicts.mem_crowd (h : t.space.regions.Ordered) {start newStop place : Word} {neighbor : Region} {heap : Heap}
    (hstart : start.toNat + 1 < Word.modulus) (hevicts : t.Evicts start newStop neighbor place heap) :
    neighbor ∈ t.crowd start newStop :=
  have ⟨hmem, hbehind⟩ := hevicts.tracked h hstart
  List.mem_filter.mpr ⟨hmem, decide_eq_true ⟨hbehind, hevicts.below⟩⟩

/-- Neighbors are evicted one by one, each to a block of its own, until none is in the way. -/
theorem evictNeighbors_houses (h : t.Housed) {start : Word} (hstart : start.toNat + 1 < Word.modulus) (newStop : Word)
    (byForce : Bool) {rounds : Nat} (hrounds : (t.crowd start newStop).length < rounds) :
    (evictNeighbors start newStop byForce rounds).Leads t (fun _ t' => t'.Housed) Spares := by
  refine (evictNeighbors_rounds (I := fun n t' => t'.Housed ∧ (t'.crowd start newStop).length < n) (E := Spares)
    (fun _ ht' => absurd ht'.2 (Nat.not_lt_zero _)) (fun _ _ _ ht' => ht'.1)
    (fun n t' neighbor place heap ht' _ hevicts => ?_) ⟨h, hrounds⟩).mono (fun _ _ ht' => ht'.1.elim fun _ hkept => hkept.1)
    fun _ _ ht' => ht'
  obtain ⟨hhoused, hless⟩ := ht'
  have hmem := (hevicts.tracked hhoused.arranged.ordered hstart).1
  obtain ⟨haway, low, high, halloc⟩ := evictionPlace?_granted hhoused.laid hevicts.granted
  refine (moveToBlock_houses hhoused hmem halloc (UInt64.le_refl _)).mono (fun _ t'' ht'' => ⟨ht''.1, ?_⟩) fun _ _ ht'' => ht''
  have := length_crowd_lt ht''.1.arranged (hevicts.mem_crowd hhoused.arranged.ordered hstart) haway ht''.2
  omega

omit [Relocator ρ] in
theorem Housed.setLength_houses (h : t.Housed) {r : Region} (hr : r ∈ t.regions) (hfree : t.space.fixes r.start = false)
    {length granted : Word} {heap : Heap} (hlaid : heap.Laid) (hcovers : heap.covers = t.heap.covers)
    (hblocks : ∀ w, heap.blocks.get? w = if w = r.start then some granted else t.heap.blocks.get? w)
    (hlength : length ≠ 0) (hle : length ≤ granted)
    (hroom : ∀ q ∈ t.regions, r.start < q.start → Word.addSaturating r.start length ≤ q.start) :
    Housed (setLength r.start length { t with heap := heap }) := by
  obtain ⟨hordered, hlist⟩ := h.arranged.ordered.modify_eq (w := r.start) (f := fun r => { r with length := length })
    fun _ _ hw => hw
  have harranged : (setLength r.start length { t with heap := heap }).space.Arranged :=
    (h.arranged.modify (w := r.start) (f := fun r => { r with length := length }) (fun _ _ _ => ⟨rfl, .of_marks rfl rfl⟩)
      (fun _ _ _ => hlength) fun s _ hw q hq hlt => by
        change Word.addSaturating s.start length ≤ q.start
        rw [hw]
        exact hroom q hq hlt).1
  refine AddressSpace.Lodged.change h harranged hlaid rfl hcovers (fun w => ?_) fun _ hw => .inl hw
  by_cases hw : w = r.start
  · subst hw
    refine .of_mem (r := { r with length := length }) harranged ?_ ((hblocks _).trans (if_pos rfl)) hle hfree
    change _ ∈ (t.space.regions.modify _ _).toList
    rw [hlist]
    exact List.mem_map.mpr ⟨r, hr, if_pos rfl⟩
  · refine .of_same (fun q hq => ?_) ((hblocks w).trans (if_neg hw))
    change q ∈ (t.space.regions.modify _ _).toList ↔ q ∈ t.space.regions.toList
    rw [hlist, List.mem_map]
    constructor
    · rintro ⟨s, hs, rfl⟩
      split at hq
      · rename_i hstart
        exact absurd (hq.symm.trans hstart) hw
      · rename_i hstart
        rw [if_neg hstart]
        exact hs
    · exact fun hmem => ⟨q, hmem, if_neg fun hstart => hw (hq.symm.trans hstart)⟩

theorem growRegion_houses (h : t.Housed) {r : Region} (hr : r ∈ t.regions) (newSize : Word) (byForce : Bool) :
    (growRegion r newSize byForce).Leads t (fun _ t' => t'.Housed) Spares := by
  have hnext : r.start.toNat + 1 < Word.modulus := by
    have := h.fits (AddressSpace.mem_extents.mpr ⟨r, hr, rfl, rfl⟩)
    have := Word.toNat_pos (h.arranged.nonempty r hr)
    omega
  unfold growRegion
  refine .bind (.present (fun newStop _ => ?_) fun _ => h)
  refine .bind (.read (.bind ((evictNeighbors_houses h hnext newStop byForce ?_).mono (fun _ t' ht' => ?_)
    fun _ _ ht' => ht')))
  · have hsize : t.regions.length = t.space.regions.size := RegionIndex.length_toList _
    exact Nat.lt_succ_of_le (hsize ▸ List.length_filter_le _ _)
  refine .bind (allocate_leads (fun granted heap hresize => ?_) fun _ => ht')
  obtain ⟨hheap, hle, hroom, n, hn⟩ := ht'.laid.resized hresize
  refine .refuse (fun hlt => absurd hlt (UInt64.not_lt.mpr hle)) fun _ => ?_
  obtain ⟨size, hsized, hpositive, hshort, hclear⟩ := granted_fits ht'.arranged.ordered hnext hroom.nonempty
  -- The block is there, so its region still is.
  obtain ⟨m, hm⟩ := ht'.tenant hn
  obtain ⟨q, hq, hqstart, -⟩ := AddressSpace.mem_extents.mp hm
  have hgrown : ∀ v, v = size → Housed (setLength r.start v { t' with heap := heap }) := by
    rintro v rfl
    rw [← hqstart] at hheap hroom hclear ⊢
    subst hheap
    exact ht'.setLength_houses hq (ht'.free_of_room hroom) (ht'.laid.insert hroom) rfl
      (fun w => Table.get?_insert _ _ _ _) hpositive (UInt64.le_iff_toNat_le.mpr hshort)
      fun s hs hlt => Word.addSaturating_le_of_toNat (hclear s hs hlt)
  exact .bind (.read (.bind (.update (.answer (hgrown _ hsized)))))

theorem resizeRegion_houses (h : t.Housed) (query : Region) (newSize : Word) (byForce : Bool) :
    (resizeRegion query newSize byForce).Leads t (fun _ t' => t'.Housed) Spares := by
  unfold resizeRegion
  refine .bind (.read (.bind (.lift (fun r hr => ?_) fun f hf => ?_)))
  rotate_left
  · exact spares_of_findRegion h hf
  have hmem := (h.arranged.ordered.mem_of_findRegion hr).1
  refine .branch (fun _ => .answer h) fun _ => .refuse (fun _ => h) fun hsize =>
    .refuse (fun _ => h) fun hfixed => .branch (fun hlt => ?_) fun _ => growRegion_houses h hmem newSize byForce
  have hfree : t.space.fixes r.start = false := (Bool.or_eq_false_iff.mp (Bool.eq_false_iff.mpr hfixed)).2
  have hroom : ∀ q ∈ t.regions, r.start < q.start → Word.addSaturating r.start newSize ≤ q.start := fun q hq hbehind =>
    UInt64.le_trans (Word.addSaturating_le (UInt64.le_of_lt hlt)) ((h.arranged.clear r hmem).behind q hq hbehind)
  obtain ⟨old, hold, hle⟩ := h.homes r.start r.length (AddressSpace.mem_extents.mpr ⟨r, hmem, rfl, rfl⟩) hfree
  refine .bind (.update (.bind (.update (.answer ?_))))
  change Housed (setLength r.start newSize { t with heap := ((t.heap.resize? r.start newSize).map (·.2)).getD t.heap })
  cases hresize : t.heap.resize? r.start newSize with
  | none =>
    refine h.setLength_houses hmem hfree h.laid rfl (fun w => ?_) hsize
      (UInt64.le_trans (UInt64.le_of_lt hlt) hle) hroom
    split
    · rename_i hw
      exact hw ▸ hold
    · rfl
  | some found =>
    obtain ⟨granted, heap⟩ := found
    obtain ⟨rfl, hgranted, hplace, -⟩ := h.laid.resized hresize
    exact h.setLength_houses hmem hfree (h.laid.insert hplace) rfl (fun w => Table.get?_insert _ _ _ _) hsize hgranted hroom

theorem defragmentRegion_houses (h : t.Housed) (query : Region) (newSize : Word) :
    (defragmentRegion query newSize).Leads t (fun _ t' => t'.Housed) Spares := by
  unfold defragmentRegion
  refine .bind (.read (.bind (.lift (fun r hr => ?_) fun f hf => spares_of_findRegion h hf)))
  refine .refuse (fun _ => h) fun _ => .refuse (fun _ => h) fun hshrinks => ?_
  refine .bind (allocate_leads (fun place heap halloc => ?_) fun _ => h)
  exact .bind ((moveToBlock_houses h (h.arranged.ordered.mem_of_findRegion hr).1 halloc (UInt64.not_lt.mp hshrinks)).mono
    (fun _ _ ht' => .answer ht'.1) fun _ _ ht' => ht')

theorem addRegion_houses (h : t.Housed) {size low high place : Word} {heap : Heap} (hsize : size ≠ 0)
    (halloc : t.heap.allocWithin? size low high = some (place, heap)) (p : Protection) :
    (onSpace (AddressSpace.addRegion (.make place size p))).Leads { t with heap := heap } (fun _ t' => t'.Housed) Spares := by
  obtain ⟨granted, rfl, hle, hroom, hnone, -⟩ := h.laid.granted halloc
  have hblock : ({ t.heap with blocks := t.heap.blocks.insert place granted } : Heap).blocks.get? place = some granted :=
    Table.get?_insert_self ..
  exact .zoom ((AddressSpace.addRegion_fills (h.takes hroom hnone) hblock (h.vacant hroom hnone) hsize hle p
    subset_rfl).mono (fun _ _ hs => hs.1) fun _ _ hs => hs.elim)

theorem removeRegion_houses (h : t.Housed) (query : Region) (m : MatchMask) :
    (onSpace (AddressSpace.removeRegion query m)).Leads t (fun r t' => Housed (t'.free r.start)) Spares := by
  refine .zoom ((AddressSpace.removeRegion_answers h.arranged query m).mono (fun r s hs => ?_) fun f s hs => ?_)
  · obtain ⟨hfixed, harranged, hfixes, hmem⟩ := hs
    have hleft := h.leaves (Bool.or_eq_false_iff.mp hfixed).2 harranged hfixes hmem
    refine hleft.gives (fun n hn => ?_) subset_rfl
    obtain ⟨q, hq, hstart, -⟩ := AddressSpace.mem_extents.mp hn
    exact ((hmem q).mp hq).2 hstart
  · obtain ⟨rfl, e, rfl⟩ := hs
    exact h

theorem onSpace_houses (h : t.Housed) {α : Type} {x : Stateful AddressSpace α}
    (hx : x.Leads t.space (fun _ s => AddressSpace.Stays t.space s ∧ True) fun f s => s = t.space ∧ ∃ e, f = .error e) :
    (onSpace x).Leads t (fun _ t' => t'.Housed) Spares := by
  refine .zoom (hx.mono (fun _ _ hs => h.stays hs.1) ?_)
  rintro f s ⟨rfl, e, rfl⟩
  exact h

end Requests

end Tracker

end RegionGuard

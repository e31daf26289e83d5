import RegionGuard.Proofs.GuardAnswers
import RegionGuard.Proofs.NeighborQueries
import RegionGuard.Proofs.Relocations
set_option autoImplicit false

namespace RegionGuard

open Stateful

namespace AddressSpace

variable {s : AddressSpace} {r new : Region}

/-- Where a region can be put: the description is identity mapped, overlaps no tracked region, and starts where none does. -/
structure Admits (s : AddressSpace) (new : Region) : Prop where
  mapped : new.isIdentityMapped = true
  room : s.checkRoom new = .ok ()
  fresh : ∀ q ∈ s.regions.toList, q.start ≠ new.start

theorem addRegion_admits (h : s.regions.Ordered) (new : Region) :
    (addRegion new).Leads s (fun _ _ => new.Lawful ∧ s.Admits new) fun _ _ => ¬ (new.Lawful ∧ s.Admits new) := by
  unfold addRegion
  refine .bind (.lift (fun _ hshape => ?_) fun f hf hadmits => ?_)
  rotate_left
  · cases (checkShape_of_lawful hadmits.1).symm.trans hf
  have hlawful := lawful_of_checkShape hshape
  refine .bind (.inquire (fun _ hroom => ?_) fun f hf hadmits => ?_)
  rotate_left
  · cases hadmits.2.room.symm.trans hf
  rcases h.places new with ⟨⟨q, hq, hstart⟩, hrefused⟩ | ⟨hfresh, x, hinsert, -⟩
  · refine .bind (.change (fun s' hs' => ?_) fun _ _ hadmits => hadmits.2.fresh q hq hstart)
    rw [hrefused] at hs'
    cases hs'
  · refine .bind (.change (fun _ _ => .answer ⟨hlawful, hlawful.mapped, hroom, hfresh⟩) fun f hf => ?_)
    rw [hinsert] at hf
    cases hf

theorem findRegion_eq (h : s.regions.Ordered) {query : Region} (hr : r ∈ s.regions.toList) (hstart : r.start = query.start)
    (hlength : r.length = query.length) : s.findRegion query ⟨true, false, true, false⟩ = .ok r := by
  have hagrees : r.AgreesOn ⟨true, false, true, false⟩ query := ⟨fun _ => hstart, nofun, fun _ => hlength, nofun⟩
  unfold findRegion
  rcases h.find?_remove?_cases query ⟨true, false, true, false⟩ with ⟨hnone, -⟩ | ⟨front, q, back, hsplit, -, hq, hfound, -⟩
  · exact absurd hagrees (hnone r hr)
  · have hmem : q ∈ s.regions.toList := hsplit ▸ List.mem_append_right front List.mem_cons_self
    rw [hfound, h.rising.eq_of_start hmem hr ((hq.start rfl).trans hstart.symm)]
    rfl

/-- A region may move that is neither pinned nor the stack nor the blob, as long as no stack or blob that has been cut loose
starts where it does. -/
theorem isFixed_eq_false (h : s.regions.Ordered) (hr : r ∈ s.regions.toList) (hpin : r.isPinned = false)
    (hstack : s.stackRegion? ≠ some r) (hblob : s.blobRegion? ≠ some r) (hloose : ∀ q ∈ s.released, q.start ≠ r.start) :
    s.isFixed r = false := by
  have hfixed : ∀ f ∈ s.stack.toList ++ s.blob.toList, f.start ≠ r.start := by
    intro f hf hstart
    cases f with
    | released q => exact hloose q (List.mem_filterMap.mpr ⟨_, hf, rfl⟩) hstart
    | tracked start =>
      have hresolved : s.resolve? (.tracked start) = some r := h.find?_self hr hstart
      rcases List.mem_append.mp hf with hf | hf
      · exact hstack ((congrArg (·.bind s.resolve?) (Option.mem_toList.mp hf)).trans hresolved)
      · exact hblob ((congrArg (·.bind s.resolve?) (Option.mem_toList.mp hf)).trans hresolved)
  rw [isFixed_eq, hpin]
  exact List.any_eq_false.mpr fun f hf => by simpa using hfixed f hf

structure Sheds (s : AddressSpace) (r : Region) (rest : AddressSpace) : Prop where
  ordered : rest.regions.Ordered
  regions : rest.regions.toList = s.regions.toList.filter fun q => !decide (q.start = r.start)
  same : ∃ x, s.regions.remove? r .byStart = some (r, x) ∧ rest = { s with regions := x }

theorem removeRegion_run (h : s.regions.Ordered) {query : Region} {m : MatchMask} (hfound : s.findRegion query m = .ok r)
    (hfree : s.isFixed r = false) : ∃ rest, (removeRegion query m).runFrom s = (.ok r, rest) ∧ s.Sheds r rest := by
  obtain ⟨x, -, hremove, hordered, hlist⟩ := h.remove?_self (h.mem_of_findRegion hfound).1
  refine ⟨{ s with regions := x }, ?_, hordered, hlist, x, hremove, rfl⟩
  unfold removeRegion
  rw [runFrom_bind, runFrom_ask, hfound]
  change runFrom (get >>= _) s = _
  rw [runFrom_get_bind, hfree, hremove]
  rfl

end AddressSpace

namespace Tracker

variable {ρ : Type} [Relocator ρ] {t t' : Tracker ρ} {old new r : Region} {rest : AddressSpace} {x : ρ}

/-- A region that is found, is not fixed and is as long as asked for moves exactly to where it can be put once it is gone,
if the relocator goes along. -/
theorem moveRegion_admits (h : t.space.regions.Ordered) (hmapped : old.isIdentityMapped = true)
    (hfound : t.space.findRegion old ⟨true, false, true, false⟩ = .ok r) (hfree : t.space.isFixed r = false)
    (hlength : new.length = r.length) (hrest : t.space.Sheds r rest)
    (hrelocates : (Relocator.relocate r.start new.start r.length).runFrom t.relocation = (.ok (), x)) :
    (moveRegion old new).Leads t
      (fun moved t' => rest.Admits new ∧ moved = r.at new.start ∧ t'.relocation = x ∧
        t'.regions.Perm (moved :: rest.regions.toList))
      fun _ _ => ¬ rest.Admits new := by
  obtain ⟨y, hremove, hsame⟩ := hrest.same
  unfold moveRegion
  refine .bind ((Leads.each_holds (P := fun q : Region => q.isIdentityMapped = true) fun q hq => ?_).mono
    (fun _ t' ht' => ?_) fun _ _ he => he)
  · refine .require (fun hnot hadmits => hnot ?_) fun hq => .answer ⟨rfl, rfl, hq⟩
    rcases List.mem_cons.mp hq with rfl | hq
    · exact hmapped
    · exact List.mem_singleton.mp hq ▸ hadmits.mapped
  obtain ⟨rfl, hboth⟩ := ht'
  have hnew : new.isIdentityMapped = true := hboth new (List.mem_cons_of_mem _ List.mem_cons_self)
  refine .bind (.read (.bind (.lift (fun q hq => ?_) fun f hf => ?_)))
  rotate_left
  · cases hfound.symm.trans hf
  cases hfound.symm.trans hq
  refine .refuse (fun hfixed => ?_) fun _ => .refuse (fun hne => absurd hlength hne) fun _ => .bind (.update ?_)
  · exact Bool.noConfusion (hfree.symm.trans hfixed)
  have htaken : mapRegions (fun x => ((x.remove? r .byStart).map (·.2)).getD x) t' = { t' with space := rest } := by
    simp only [mapRegions, hremove, Option.map_some, Option.getD_some, hsame]
  rw [htaken]
  have hgoes : (onError (do
      onSpace (.ask (·.checkRoom new))
      onRelocation (Relocator.relocate r.start new.start r.length)) (restore r)).Leads { t' with space := rest }
      (fun _ u => rest.checkRoom new = .ok () ∧ u.space = rest ∧ u.relocation = x) fun _ _ => ¬ rest.Admits new := by
    refine .onError (.bind (.zoom (.inquire (fun _ hroom => .zoom ?_) fun f hf => ?_)))
    · exact .of_ok hrelocates ⟨hroom, rfl, rfl⟩
    · have hnone : ¬ rest.Admits new := fun hadmits => by cases hadmits.room.symm.trans hf
      cases f with
      | error e => exact hnone
      | fatal e => exact hnone
  refine .bind (hgoes.mono (fun _ u hu => ?_) fun _ _ he => he)
  obtain ⟨hroom, rfl, rfl⟩ := hu
  rcases hrest.ordered.places (r.at new.start) with ⟨⟨q, hq, hstart⟩, hrefused⟩ | ⟨hfresh, y, hinsert, -, hplace⟩
  · unfold insertRegion
    refine .bind (.zoom (.change (fun s' hs' => ?_) fun _ _ hadmits => hadmits.fresh q hq hstart))
    obtain ⟨z, hz, -⟩ := bind_eq_ok.mp hs'
    cases hrefused.symm.trans hz
  · refine .bind ((insertRegion_leads hinsert).mono (fun _ u' hu' => .answer ?_) fun _ _ he => he)
    refine ⟨⟨hnew, hroom, hfresh⟩, rfl, hu' ▸ rfl, ?_⟩
    rw [hu']
    change y.toList.Perm _
    rw [hplace]
    exact Region.place_perm _ _

/-- A region that is neither pinned nor the stack nor the blob moves exactly to where it can be put once it is gone, if the
relocator goes along and no stack or blob that has been cut loose starts where the region does. It can be added there exactly
if it moves there and ends before the last word. Where it moves, it keeps its length and its marks, and all others stay. -/
theorem move_destinations (h : t.Reachable) (hr : r ∈ t.regions) (hstart : r.start = old.start)
    (hlength : r.length = old.length) (hmapped : old.isIdentityMapped = true) (hnew : new.length = r.length)
    (hpin : r.isPinned = false) (hstack : t.space.stackRegion? ≠ some r) (hblob : t.space.blobRegion? ≠ some r)
    (hloose : ∀ q ∈ t.space.released, q.start ≠ r.start)
    (hrelocates : (Relocator.relocate r.start new.start r.length).runFrom t.relocation = (.ok (), x)) :
    ∃ rest, (AddressSpace.removeRegion old ⟨true, false, true, false⟩).runFrom t.space = (.ok r, rest) ∧
      rest.regions.toList = t.regions.filter (fun q => !decide (q.start = r.start)) ∧
      ((∃ moved t', (moveRegion old new).runFrom t = (.ok moved, t')) ↔ rest.Admits new) ∧
      ((∃ added s, (AddressSpace.addRegion new).runFrom rest = (.ok added, s)) ↔
        (∃ moved t', (moveRegion old new).runFrom t = (.ok moved, t')) ∧
          new.start.toNat + new.length.toNat < Word.modulus) ∧
      ∀ moved t', (moveRegion old new).runFrom t = (.ok moved, t') →
        moved = { r with start := new.start, physicalStart := new.start } ∧
          t'.regions.Perm (moved :: rest.regions.toList) := by
  have ordered := h.arranged.ordered
  have hfound := AddressSpace.findRegion_eq ordered hr hstart hlength
  have hfree := AddressSpace.isFixed_eq_false ordered hr hpin hstack hblob hloose
  obtain ⟨rest, hremoves, hrest⟩ := AddressSpace.removeRegion_run ordered hfound hfree
  have hmoves := moveRegion_admits ordered hmapped hfound hfree hnew hrest hrelocates
  have hmovable : (∃ moved t', (moveRegion old new).runFrom t = (.ok moved, t')) ↔ rest.Admits new :=
    (hmoves.mono (fun _ _ ht' => ht'.1) fun _ _ he => he).succeeds_iff
  have hnonempty : new.length ≠ 0 := hnew ▸ h.arranged.nonempty r hr
  refine ⟨rest, hremoves, hrest.regions, hmovable, ?_, fun moved t' hrun => ?_⟩
  · rw [(AddressSpace.addRegion_admits hrest.ordered new).succeeds_iff, hmovable]
    exact ⟨fun ⟨hlawful, hadmits⟩ => ⟨hadmits, hlawful.fits⟩,
      fun ⟨hadmits, hfits⟩ => ⟨⟨hadmits.mapped, hnonempty, hfits⟩, hadmits⟩⟩
  · obtain ⟨-, hmoved, -, hregions⟩ := hmoves.ok hrun
    exact ⟨hmoved, hregions⟩

def lone : Tracker Ledger :=
  after ⟨.empty "kernel" .sorted, .make 0x100000 0x10000, .empty⟩ [.add (.make 0x2000 0x10 .readWrite)]

theorem lone_reachable : lone.Reachable := by
  have hbuild : AddressSpace.build "kernel" .sorted none none = .ok (.empty "kernel" .sorted) := rfl
  exact Reachable.after (.built hbuild (.make _ _) _) _

theorem move_destinations_overlapping :
    lone.Reachable ∧ ∃ rest, (AddressSpace.removeRegion (.make 0x2000 0x10 .read) ⟨true, false, true, false⟩).runFrom
        lone.space = (.ok (.make 0x2000 0x10 .readWrite), rest) ∧
      rest.Admits (.make 0x2008 0x10 .read) ∧
      ∃ t', (moveRegion (.make 0x2000 0x10 .read) (.make 0x2008 0x10 .read)).runFrom lone =
        (.ok (.make 0x2008 0x10 .readWrite), t') := by
  have hrelocates : ((Relocator.relocate 0x2000 0x2008 0x10).runFrom lone.relocation).1 = .ok () := by decide +kernel
  have hmember : Region.make 0x2000 0x10 .readWrite ∈ lone.regions := by decide +kernel
  have hmoves : ((moveRegion (.make 0x2000 0x10 .read) (.make 0x2008 0x10 .read)).runFrom lone).1 =
      .ok (.make 0x2008 0x10 .readWrite) := by
    decide +kernel
  have hsame : (Region.make 0x2000 0x10 .readWrite).start = (Region.make 0x2000 0x10 .read).start := rfl
  have hlength : (Region.make 0x2008 0x10 .read).length = (Region.make 0x2000 0x10 .readWrite).length := rfl
  obtain ⟨rest, hremoves, -, hmovable, -⟩ := move_destinations lone_reachable hmember hsame rfl rfl hlength rfl (by decide +kernel)
    (by decide +kernel) (by decide +kernel) (Prod.ext hrelocates rfl)
  exact ⟨lone_reachable, rest, hremoves, hmovable.mp ⟨_, _, Prod.ext hmoves rfl⟩, _, Prod.ext hmoves rfl⟩

structure Inert where

instance : Relocator Inert := ⟨fun _ _ _ => pure ()⟩

/-- Sixteen bytes in an address space of their own, under a relocator that never refuses. -/
def adrift : Tracker Inert :=
  after ⟨.empty "kernel" .sorted, .make 0x100000 0x10000, ⟨⟩⟩ [.add (.make 0x2000 0x10 .readWrite)]

/-- A move goes past the last word, where no region can be added. And after an address space was destroyed, a region that
starts where its stack did stays, though it is neither pinned nor the stack, its bytes could be moved, and a region could be
added there. -/
theorem moves_differ_from_additions :
    (adrift.Reachable ∧ adrift.regions = [.make 0x2000 0x10 .readWrite] ∧ adrift.space.stackRegion? = none ∧
      adrift.space.blobRegion? = none ∧
      ((moveRegion (.make 0x2000 0x10 .readWrite) (.make 0xFFFFFFFFFFFFFFF8 0x10 .readWrite)).runFrom adrift).1 =
        .ok (.make 0xFFFFFFFFFFFFFFF8 0x10 .readWrite) ∧
      ((AddressSpace.addRegion (.make 0xFFFFFFFFFFFFFFF8 0x10 .readWrite)).runFrom
        { adrift.space with regions := .empty .sorted }).1 = .error (.error (.invalidRegion (.wraps 0xFFFFFFFFFFFFFFF8)))) ∧
    ∃ t : Tracker Ledger, t.Reachable ∧ t.regions = [.make 0x8000 0x100 .readWrite] ∧
      t.space.stackRegion? = some (.make 0x8000 0x1000 .readWrite) ∧ t.space.blobRegion? = none ∧
      ((moveRegion (.make 0x8000 0x100 .readWrite) (.make 0x10000 0x100 .readWrite)).runFrom t).1 =
        .error (.error (.regionPinned 0x8000)) ∧
      ((Ledger.relocate 0x8000 0x10000 0x100).runFrom t.relocation).1 = .ok () ∧
      ((AddressSpace.addRegion (.make 0x10000 0x100 .readWrite)).runFrom { t.space with regions := .empty .keyed }).1 =
        .ok (.make 0x10000 0x100 .readWrite) := by
  have hbuild : AddressSpace.build "kernel" .sorted none none = .ok (.empty "kernel" .sorted) := rfl
  refine ⟨⟨Reachable.after (.built hbuild (.make _ _) _) _, by decide +kernel⟩,
    stacked.after [.destroy, .add (.make 0x8000 0x100 .readWrite)], stacked_standing.reachable.after _, by decide +kernel⟩

end Tracker

end RegionGuard

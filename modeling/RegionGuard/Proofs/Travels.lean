import RegionGuard.Proofs.Arrangements
import RegionGuard.Proofs.RegionRequests
set_option autoImplicit false

namespace RegionGuard

open Stateful

theorem Word.addSaturating_le {u v w : Word} (h : v ≤ w) : Word.addSaturating u v ≤ Word.addSaturating u w := by
  have hle := UInt64.le_iff_toNat_le.mp h
  have hmax : ∀ x : Word, x ≤ Word.maximum := fun x => UInt64.le_iff_toNat_le.mpr (Nat.le_of_lt_succ x.toNat_lt)
  unfold Word.addSaturating
  cases hw : Word.add? u w with
  | none => exact hmax _
  | some sum =>
    have hsum := Word.add?_eq_some_iff.mp hw
    have hlt := sum.toNat_lt
    obtain ⟨small, hsmall⟩ : ∃ small, Word.add? u v = some small := by
      unfold Word.add? Word.ofNat?
      rw [if_pos (by unfold Word.modulus; omega)]
      exact ⟨_, rfl⟩
    rw [hsmall]
    have := Word.add?_eq_some_iff.mp hsmall
    refine UInt64.le_iff_toNat_le.mpr ?_
    change small.toNat ≤ sum.toNat
    omega

theorem Word.addSaturating_le_of_toNat {u v w : Word} (h : u.toNat + v.toNat ≤ w.toNat) : Word.addSaturating u v ≤ w := by
  have hsum : Word.add? u v = some (u + v) := by
    refine Word.add?_eq_some_iff.mpr ?_
    rw [UInt64.toNat_add]
    exact (Nat.mod_eq_of_lt (Nat.lt_of_le_of_lt h w.toNat_lt)).symm
  refine UInt64.le_iff_toNat_le.mpr ?_
  unfold Word.addSaturating
  rw [hsum]
  change (u + v).toNat ≤ w.toNat
  rw [← Word.add?_eq_some_iff.mp hsum]
  exact h

/-- The relocations that succeed from one state of a relocator to another, each from one start to another. -/
inductive Relocator.Moves {ρ : Type} [Relocator ρ] : ρ → List (Word × Word) → ρ → Prop where
  | none (x : ρ) : Moves x [] x
  | done {x y z : ρ} {moves : List (Word × Word)} {source destination length : Word} (before : Moves x moves y)
    (run : (Relocator.relocate source destination length).runFrom y = (.ok (), z)) :
    Moves x (moves ++ [(source, destination)]) z
  | refused {x y z : ρ} {moves : List (Word × Word)} {source destination length : Word} {f : Failure}
    (before : Moves x moves y) (run : (Relocator.relocate source destination length).runFrom y = (.error f, z)) :
    Moves x moves z

theorem Relocator.Moves.trans {ρ : Type} [Relocator ρ] {x y z : ρ} {moves moves' : List (Word × Word)}
    (h : Moves x moves y) (h' : Moves y moves' z) : Moves x (moves ++ moves') z := by
  induction h' with
  | none => exact (List.append_nil moves).symm ▸ h
  | done _ run ih => exact List.append_assoc _ _ _ ▸ ih.done run
  | refused _ run ih => exact ih.refused run

namespace Tracker

variable {ρ : Type} [Relocator ρ] {t t' t'' : Tracker ρ}

def Drifts (t t' : Tracker ρ) : Prop :=
  t'.space.Arranged ∧
    ∃ moves, Relocator.Moves t.relocation moves t'.relocation ∧ Region.Drift t.regions moves t'.regions

/-- From one state to another the regions have gone where the relocations took them, but some have gone for good. -/
def Loses (t t' : Tracker ρ) : Prop :=
  t'.space.Arranged ∧ ∃ moves l, Relocator.Moves t.relocation moves t'.relocation ∧ Region.Rising l ∧
    Region.Drift t.regions moves l ∧ t'.regions ⊆ l

theorem Drifts.refl (h : t.space.Arranged) : Drifts t t := ⟨h, [], .none _, .refl _⟩

theorem Drifts.loses (h : Drifts t t') : Loses t t' :=
  let ⟨moves, hmoves, hdrift⟩ := h.2
  ⟨h.1, moves, t'.regions, hmoves, h.1.ordered.rising, hdrift, fun _ hr => hr⟩

theorem Drifts.trans (h : Drifts t t') (h' : Drifts t' t'') : Drifts t t'' := by
  obtain ⟨-, moves, hmoves, hdrift⟩ := h
  obtain ⟨harranged, moves', hmoves', hdrift'⟩ := h'
  exact ⟨harranged, moves ++ moves', hmoves.trans hmoves', hdrift.trans hdrift'⟩

theorem Drifts.trans_loses (h : Drifts t t') (h' : Loses t' t'') : Loses t t'' := by
  obtain ⟨-, moves, hmoves, hdrift⟩ := h
  obtain ⟨harranged, moves', l, hmoves', hrising, hdrift', hsubset⟩ := h'
  exact ⟨harranged, moves ++ moves', l, hmoves.trans hmoves', hrising, hdrift.trans hdrift', hsubset⟩

theorem loses_refl (h : t.space.Arranged) : Loses t t := (Drifts.refl h).loses

theorem drifts_withHeap (h : t.space.Arranged) (heap : Heap) : Drifts t { t with heap := heap } :=
  ⟨h, [], .none _, .refl _⟩

structure Departed (t : Tracker ρ) (old new : Region) (t' : Tracker ρ) : Prop where
  arranged : t'.space.Arranged
  fixes : t'.space.fixes = t.space.fixes
  moved : ∃ r ∈ t.regions, r.start = old.start ∧ t.space.isFixed r = false ∧
    (∀ q ∈ t.regions, q.start = new.start → q.start = r.start) ∧
    (Relocator.relocate r.start new.start r.length).runFrom t.relocation = (.ok (), t'.relocation) ∧
    ∀ q, q ∈ t'.regions ↔ q = { r with start := new.start, physicalStart := new.start } ∨ q ∈ t.regions ∧ q.start ≠ r.start

theorem Departed.drifts {old new : Region} (h : Departed t old new t') (ht : t.space.Arranged) :
    t'.space.Arranged ∧ Relocator.Moves t.relocation [(old.start, new.start)] t'.relocation ∧
      Region.Drift t.regions [(old.start, new.start)] t'.regions := by
  obtain ⟨r, hr, hstart, -, -, hrun, hmem⟩ := h.moved
  rw [← hstart]
  exact ⟨h.arranged, (Relocator.Moves.none _).done hrun, .move ht.ordered.rising hr new.start hmem⟩

/-- Where a region may go: it ends before the last word there, or no relocation puts bytes past the last address. -/
def Fits (ρ : Type) [Relocator ρ] (new : Region) : Prop :=
  new.start.toNat + new.length.toNat < Word.modulus ∨ Relocator.StaysInside ρ

def Halted (t : Tracker ρ) (r new : Region) (f : Failure) (x : ρ) : Prop :=
  x = t.relocation ∨ (Relocator.relocate r.start new.start r.length).runFrom t.relocation = (.error f, x)

theorem Halted.moves {r new : Region} {f : Failure} {x : ρ} (h : Halted t r new f x) :
    Relocator.Moves t.relocation [] x := by
  rcases h with hsame | hrun
  · exact hsame ▸ .none _
  · exact (Relocator.Moves.none _).refused hrun

/-- What a move that fails leaves behind. Where the region may go, at most one relocation has been tried, which has failed
like the move, and, unless the move has stopped for good, no region is lost. -/
structure Stranded (t : Tracker ρ) (old new : Region) (f : Failure) (t' : Tracker ρ) : Prop where
  arranged : t'.space.Arranged
  subset : t'.regions ⊆ t.regions
  relocations : ∃ moves, Relocator.Moves t.relocation moves t'.relocation
  halted : Fits ρ new → t'.relocation = t.relocation ∨
    ∃ r ∈ t.regions, r.start = old.start ∧ Halted t r new f t'.relocation
  kept : Fits ρ new → ∀ e, f = .error e → t'.regions = t.regions ∧ t'.space.fixes = t.space.fixes

theorem Stranded.unmoved {old new : Region} {f : Failure} (h : Stranded t old new f t') (hfits : Fits ρ new) :
    Relocator.Moves t.relocation [] t'.relocation := by
  rcases h.halted hfits with hsame | ⟨r, -, -, hhalted⟩
  · exact hsame ▸ .none _
  · exact hhalted.moves

theorem Stranded.loses {old new : Region} {f : Failure} (h : Stranded t old new f t') (ht : t.space.Arranged)
    (hfits : Fits ρ new) : Loses t t' :=
  ⟨h.arranged, [], t.regions, h.unmoved hfits, ht.ordered.rising, .refl _, h.subset⟩

omit [Relocator ρ] in
theorem restore_taken {r : Region} (h : t.space.Arranged) (hr : r ∈ t.regions) {u : Tracker ρ}
    (hordered : u.space.regions.Ordered)
    (hlist : u.regions = t.regions.filter fun q => !decide (q.start = r.start)) :
    (restore r u).space.Arranged ∧ (restore r u).regions = t.regions := by
  rcases hordered.places r with ⟨⟨q, hq, hstart⟩, -⟩ | ⟨-, x, hinsert, hplaced, hplace⟩
  · change q ∈ u.regions at hq
    rw [hlist] at hq
    exact absurd hstart (by simpa using (List.mem_filter.mp hq).2)
  · have hback : (restore r u).space.regions = x := by
      change (u.space.regions.insert r).toOption.getD u.space.regions = x
      rw [hinsert]
      rfl
    have hsame : (restore r u).regions = t.regions := by
      unfold regions
      rw [hback]
      refine hplaced.rising.eq_of_perm h.ordered.rising ?_
      rw [hplace]
      refine (r.place_perm _).trans ?_
      change (r :: u.regions).Perm _
      rw [hlist]
      exact h.ordered.rising.perm_cons_filter hr
    have hsubset : (restore r u).regions ⊆ t.regions := fun q hq => hsame ▸ hq
    exact ⟨h.of_subset (hback ▸ hplaced) hsubset, hsame⟩

theorem moveRegion_travels (h : t.space.Arranged) (old new : Region) :
    (moveRegion old new).Leads t (fun _ => Departed t old new) (Stranded t old new) := by
  have unchanged : ∀ f, Stranded t old new f t := fun _ =>
    ⟨h, fun _ hr => hr, ⟨[], .none _⟩, fun _ => .inl rfl, fun _ _ _ => ⟨rfl, rfl⟩⟩
  unfold moveRegion
  refine .bind (.mono (.each fun r _ => ?_) (fun _ t' ht' => ?_) fun _ _ he => he)
  · exact .require (fun _ => unchanged _) fun _ => .answer ⟨rfl, rfl⟩
  rw [ht']
  refine .bind (.read (.bind (.lift (fun r hr => ?_) fun e _ => unchanged e)))
  obtain ⟨hmem, hagrees⟩ := h.ordered.mem_of_findRegion hr
  have hstart : r.start = old.start := Region.start_of_agrees hagrees rfl
  refine .refuse (fun _ => unchanged _) fun hfixed => .refuse (fun _ => unchanged _) fun hlength => ?_
  have hlength : new.length = r.length := Decidable.not_not.mp hlength
  have hnonempty : new.length ≠ 0 := hlength ▸ h.nonempty r hmem
  obtain ⟨x, -, hremove, hordered, hlist⟩ := h.ordered.remove?_self hmem
  obtain ⟨s, hs⟩ : ∃ s : AddressSpace, s = { t.space with regions := x } := ⟨_, rfl⟩
  have hregions : s.regions = x := hs ▸ rfl
  have hfixes : s.fixes = t.space.fixes := hs ▸ rfl
  have hleft : ∀ q, q ∈ s.regions.toList ↔ q ∈ t.regions ∧ q.start ≠ r.start := fun q => by
    rw [hregions, hlist, List.mem_filter, Bool.not_eq_true', decide_eq_false_iff_not]
    rfl
  have hsubset : s.regions.toList ⊆ t.regions := fun q hq => ((hleft q).mp hq).1
  have harranged : s.Arranged := h.of_subset (hregions ▸ hordered) hsubset
  refine .bind (.update ?_)
  have htaken : mapRegions (fun x => ((x.remove? r .byStart).map (·.2)).getD x) t = { t with space := s } := by
    simp only [mapRegions, hremove, Option.map_some, Option.getD_some, hs]
  rw [htaken]
  -- While the region is out, it comes back after an error, and stays out after a stop.
  have raised : ∀ (e : Error) (u : Tracker ρ), u.space = s → Halted t r new (.error e) u.relocation →
      Stranded t old new (.error e) (restore r u) := by
    rintro e u rfl hu
    obtain ⟨hback, hsame⟩ := restore_taken h hmem harranged.ordered ((congrArg RegionIndex.toList hregions).trans hlist)
    exact ⟨hback, fun q hq => hsame ▸ hq, ⟨[], hu.moves⟩, fun _ => .inr ⟨r, hmem, hstart, hu⟩,
      fun _ _ _ => ⟨hsame, hfixes⟩⟩
  have stopped : ∀ (e : Fatal) (u : Tracker ρ), u.space = s → Halted t r new (.fatal e) u.relocation →
      Stranded t old new (.fatal e) u := by
    rintro e u rfl hu
    exact ⟨harranged, hsubset, ⟨[], hu.moves⟩, fun _ => .inr ⟨r, hmem, hstart, hu⟩,
      fun _ _ he => Failure.noConfusion he⟩
  have hdeparts : (onError (do
      onSpace (.ask (·.checkRoom new))
      onRelocation (Relocator.relocate r.start new.start r.length)) (restore r)).Leads { t with space := s }
      (fun _ t' => t'.space = s ∧ s.checkRoom new = .ok () ∧
        (Relocator.relocate r.start new.start r.length).runFrom t.relocation = (.ok (), t'.relocation))
      (Stranded t old new) := by
    refine .onError (.bind (.zoom (.inquire (fun _ hroom => .zoom ?_) fun f _ => ?_)))
    · change Leads _ t.relocation _ _
      cases hrun : (Relocator.relocate r.start new.start r.length).runFrom t.relocation with
      | mk o y =>
        cases o with
        | ok u => exact .of_ok hrun ⟨rfl, hroom, rfl⟩
        | error f =>
          refine .of_error hrun ?_
          cases f with
          | error e => exact raised e _ rfl (.inr hrun)
          | fatal e => exact stopped e _ rfl (.inr hrun)
    · cases f with
      | error e => exact raised e _ rfl (.inl rfl)
      | fatal e => exact stopped e _ rfl (.inl rfl)
  refine .bind (hdeparts.mono (fun _ t' ht' => ?_) fun _ _ he => he)
  obtain ⟨hspace, hroom, hrun⟩ := ht'
  have hclear := (harranged.clear_of_checkRoom hnonempty hroom).1
  unfold insertRegion
  refine .bind (.zoom (.change (fun s' hs' => .answer ?_) fun f hf => ?_))
  · obtain ⟨y, hinsert, hy⟩ := bind_eq_ok.mp hs'
    cases hy
    rw [hspace] at hinsert ⊢
    rcases harranged.ordered.places { r with start := new.start, physicalStart := new.start } with
      ⟨-, hrefused⟩ | ⟨hfresh, z, hplaced, hzordered, hzlist⟩
    · cases hrefused.symm.trans hinsert
    cases hplaced.symm.trans hinsert
    have hmem' : ∀ q, q ∈ y.toList ↔ q = { r with start := new.start, physicalStart := new.start } ∨
        q ∈ s.regions.toList := fun q => by
      rw [hzlist, (Region.place_perm _ _).mem_iff, List.mem_cons]
    have hmoved : Region.Clear { r with start := new.start, physicalStart := new.start } s.regions.toList := by
      refine ⟨hclear.front, fun q hq hlt => ?_⟩
      change Word.addSaturating new.start r.length ≤ q.start
      rw [← hlength]
      exact hclear.behind q hq hlt
    refine ⟨harranged.insert (r := { r with start := new.start, physicalStart := new.start }) (h.nonempty r hmem) hmoved
      hzordered hmem', hfixes, r, hmem, hstart, Bool.eq_false_iff.mpr hfixed, fun q hq hqstart => ?_, hrun, fun q => ?_⟩
    · by_contra hne
      exact hfresh q ((hleft q).mpr ⟨hq, hne⟩) hqstart
    · change q ∈ y.toList ↔ _
      rw [hmem' q, hleft q]
  · -- Where the region may go there is room for it, so it cannot be refused.
    have hnone : ¬ Fits ρ new := by
      intro hfits
      have hfits : new.start.toNat + new.length.toNat < Word.modulus := by
        rcases hfits with hfits | hinside
        · exact hfits
        · rw [hlength]
          exact hinside _ _ _ _ _ hrun
      rw [hspace] at hf
      rcases harranged.ordered.places { r with start := new.start, physicalStart := new.start } with
        ⟨⟨q, hq, hqstart⟩, -⟩ | ⟨-, z, hplaced, -⟩
      · exact absurd hqstart (harranged.fresh_of_checkRoom hnonempty hfits hroom q hq)
      · rw [hplaced] at hf
        cases hf
    refine ⟨hspace ▸ harranged, ?_, ⟨_, (Relocator.Moves.none _).done hrun⟩, fun hfits => absurd hfits hnone,
      fun hfits => absurd hfits hnone⟩
    change t'.space.regions.toList ⊆ t.regions
    rw [hspace]
    exact hsubset

theorem moveToBlock_travels (h : t.space.Arranged) (old : Region) {destination : Word}
    (hfits : destination.toNat + old.length.toNat < Word.modulus) :
    (moveToBlock old destination).Leads t (fun _ t' => Drifts t t') fun _ t' => Loses t t' := by
  unfold moveToBlock
  refine .bind (.onError ((moveRegion_travels h old _).mono (fun _ t' ht' => ?_) fun f t' ht' => ?_))
  · obtain ⟨harranged, hmoves, hdrift⟩ := ht'.drifts h
    exact .update ⟨harranged, _, hmoves, hdrift⟩
  · have hloses := ht'.loses h (.inl hfits)
    cases f with
    | error e => exact hloses
    | fatal e => exact hloses

theorem fits_of_evictionPlace? {start newStop length place : Word} {heap heap' : Heap}
    (hplace : evictionPlace? start newStop length heap = some (place, heap')) :
    place.toNat + length.toNat < Word.modulus := by
  unfold evictionPlace? at hplace
  split at hplace
  · rename_i hbehind
    cases hplace
    exact Heap.fits_of_allocWithin? hbehind
  · exact Heap.fits_of_allocWithin? hplace

theorem evictNeighbors_travels (h : t.space.Arranged) (start newStop : Word) (byForce : Bool) (rounds : Nat) :
    (evictNeighbors start newStop byForce rounds).Leads t (fun _ t' => Drifts t t') fun _ t' => Loses t t' := by
  refine (evictNeighbors_rounds (I := fun _ => Drifts t) (E := fun _ => Loses t) (fun _ ht' => ht'.loses)
    (fun _ _ _ ht' => ht'.loses) (fun _ t' neighbor place heap ht' _ hevicts => ?_) (.refl h)).mono
    (fun _ _ ht' => ht'.1.elim fun _ hdrifts => hdrifts) fun _ _ ht' => ht'
  have htaken := drifts_withHeap ht'.1 heap
  exact (moveToBlock_travels htaken.1 neighbor (fits_of_evictionPlace? hevicts.granted)).mono
    (fun _ _ ht'' => ht'.trans (htaken.trans ht'')) fun _ _ ht'' => ht'.trans_loses (htaken.trans_loses ht'')

/-- A region may take what length it likes, as long as it is not empty and ends where the next one starts. -/
theorem setLength_drifts (h : t.space.Arranged) {start length : Word} (hlength : length ≠ 0)
    (hroom : ∀ q ∈ t.regions, start < q.start → Word.addSaturating start length ≤ q.start) :
    Drifts t (setLength start length t) := by
  obtain ⟨harranged, hdrift⟩ := h.modify (w := start) (f := fun r => { r with length := length })
    (fun _ _ _ => ⟨rfl, .of_marks rfl rfl⟩) (fun _ _ _ => hlength) fun r _ hw q hq hlt => by
      change Word.addSaturating r.start length ≤ q.start
      rw [hw]
      exact hroom q hq hlt
  exact ⟨harranged, [], .none _, hdrift⟩

theorem growRegion_travels (h : t.space.Arranged) (r : Region) {newSize : Word} (hsize : newSize ≠ 0) (byForce : Bool) :
    (growRegion r newSize byForce).Leads t (fun _ t' => Drifts t t') fun _ t' => Loses t t' := by
  unfold growRegion
  refine .bind (.present (fun newStop hstop => ?_) fun _ => loses_refl h)
  have hnext : r.start.toNat + 1 < Word.modulus := by
    have hsum := Word.add?_eq_some_iff.mp hstop
    have hlt := newStop.toNat_lt
    have hpos := Word.toNat_pos hsize
    unfold Word.modulus
    omega
  refine .bind (.read (.bind ((evictNeighbors_travels h r.start newStop byForce _).mono (fun _ t' ht' => ?_)
    fun _ _ ht' => ht')))
  refine .bind (allocate_leads (fun granted heap hresize => ?_) fun _ => ht'.loses)
  obtain ⟨-, hle, hne, hfits⟩ := Heap.resize?_eq hresize
  refine .refuse (fun hlt => absurd hlt (UInt64.not_lt.mpr hle)) fun _ => ?_
  obtain ⟨size, hsized, hpositive, -, hroom⟩ := granted_fits ht'.1.ordered hnext hne
  have hgrown : ∀ v, v = size → Drifts t (setLength r.start v { t' with heap := heap }) := by
    intro v hv
    rw [hv]
    refine (ht'.trans (drifts_withHeap ht'.1 heap)).trans (setLength_drifts ht'.1 hpositive fun q hq hlt => ?_)
    exact Word.addSaturating_le_of_toNat (hroom q hq hlt)
  exact .bind (.read (.bind (.update (.answer (hgrown _ hsized)))))

theorem resizeRegion_travels (h : t.space.Arranged) (query : Region) (newSize : Word) (byForce : Bool) :
    (resizeRegion query newSize byForce).Leads t (fun _ t' => Drifts t t') fun _ t' => Loses t t' := by
  unfold resizeRegion
  refine .bind (.read (.bind (.lift (fun r hr => ?_) fun _ _ => loses_refl h)))
  have hmem := (h.ordered.mem_of_findRegion hr).1
  refine .branch (fun _ => .answer (.refl h)) fun _ => .refuse (fun _ => loses_refl h) fun hsize =>
    .refuse (fun _ => loses_refl h) fun _ => .branch (fun hlt => ?_) fun _ => growRegion_travels h r hsize byForce
  refine .bind (.update (.bind (.update (.answer ?_))))
  refine (drifts_withHeap h _).trans (setLength_drifts h hsize fun q hq hbehind => ?_)
  exact UInt64.le_trans (Word.addSaturating_le (UInt64.le_of_lt hlt)) ((h.clear r hmem).behind q hq hbehind)

theorem defragmentRegion_travels (h : t.space.Arranged) (query : Region) (newSize : Word) :
    (defragmentRegion query newSize).Leads t (fun _ t' => Drifts t t') fun _ t' => Loses t t' := by
  unfold defragmentRegion
  refine .bind (.read (.bind (.lift (fun r _ => ?_) fun _ _ => loses_refl h)))
  refine .refuse (fun _ => loses_refl h) fun _ => .refuse (fun _ => loses_refl h) fun hshrinks => ?_
  refine .bind (allocate_leads (fun a heap halloc => ?_) fun _ => loses_refl h)
  have hfits : a.toNat + r.length.toNat < Word.modulus := by
    have := Heap.fits_of_allocWithin? halloc
    have := UInt64.le_iff_toNat_le.mp (UInt64.not_lt.mp hshrinks)
    omega
  have htaken := drifts_withHeap h heap
  exact .bind ((moveToBlock_travels htaken.1 r hfits).mono (fun _ _ ht' => .answer (htaken.trans ht'))
    fun _ _ ht' => htaken.trans_loses ht')

/-- What a request has made of the regions: each is what a tracked one has become, or has just been added, and is no
other than the one that the moves took there. -/
structure Turned (q : SpaceRequest) (t : Tracker ρ) (moves : List (Word × Word)) (t' : Tracker ρ) : Prop where
  arranged : t'.space.Arranged
  comes : ∀ r' ∈ t'.regions, q = .add r' ∨ ∃ r ∈ t.regions, r.Heeds r'
  follows : ∀ r ∈ t.regions, ∀ r' ∈ t'.regions, r'.start = Region.carried moves r.start → r.Heeds r'

omit [Relocator ρ] in
theorem turned_of_drift {l : List Region} {moves : List (Word × Word)} (q : SpaceRequest) (harranged : t'.space.Arranged)
    (hrising : Region.Rising l) (hdrift : Region.Drift t.regions moves l) (hsubset : t'.regions ⊆ l) :
    Turned q t moves t' where
  arranged := harranged
  comes r' hr' := by
    obtain ⟨r, hr, -, hheeds⟩ := hdrift.comes r' (hsubset hr')
    exact .inr ⟨r, hr, hheeds⟩
  follows r hr r' hr' hstart := by
    obtain ⟨s, hs, hcarried, hheeds⟩ := hdrift.goes r hr
    obtain rfl := hrising.eq_of_start (hsubset hr') hs (hstart.trans hcarried.symm)
    exact hheeds

omit [Relocator ρ] in
theorem turned_of_subset (h : t.space.Arranged) (q : SpaceRequest) (harranged : t'.space.Arranged)
    (hsubset : t'.regions ⊆ t.regions) : Turned q t [] t' :=
  turned_of_drift q harranged h.ordered.rising (.refl _) hsubset

end Tracker

namespace SpaceRequest

def isMove : SpaceRequest → Bool
  | move .. => true
  | _ => false

def isForRemoval : SpaceRequest → Bool
  | remove .. | destroy => true
  | _ => false

end SpaceRequest

namespace Tracker

variable {ρ : Type} [Relocator ρ] {t t' : Tracker ρ}

/-- What a request that succeeds leaves behind: it takes the regions along, unless it is for regions to go. -/
def Done (q : SpaceRequest) (t t' : Tracker ρ) : Prop :=
  ∃ moves, Relocator.Moves t.relocation moves t'.relocation ∧ Turned q t moves t' ∧
    (q.isForRemoval = false → ∀ r ∈ t.regions, ∃ r' ∈ t'.regions, r'.start = Region.carried moves r.start)

def Failed (q : SpaceRequest) (t t' : Tracker ρ) : Prop :=
  ∃ moves, Relocator.Moves t.relocation moves t'.relocation ∧ Turned q t (if q.isMove then [] else moves) t'

theorem Drifts.done (h : Drifts t t') (q : SpaceRequest) : Done q t t' := by
  obtain ⟨harranged, moves, hmoves, hdrift⟩ := h
  refine ⟨moves, hmoves, turned_of_drift q harranged harranged.ordered.rising hdrift fun _ hr => hr, fun _ r hr => ?_⟩
  obtain ⟨r', hr', hstart, -⟩ := hdrift.goes r hr
  exact ⟨r', hr', hstart⟩

theorem Loses.failed (h : Loses t t') {q : SpaceRequest} (hq : q.isMove = false) : Failed q t t' := by
  obtain ⟨harranged, moves, l, hmoves, hrising, hdrift, hsubset⟩ := h
  refine ⟨moves, hmoves, ?_⟩
  rw [hq]
  exact turned_of_drift q harranged hrising hdrift hsubset

theorem failed_refl (h : t.space.Arranged) (q : SpaceRequest) : Failed q t t := by
  refine ⟨[], .none _, ?_⟩
  rw [ite_self]
  exact turned_of_subset h q h fun _ hr => hr

theorem onSpace_turns (h : t.space.Arranged) (q : SpaceRequest) {α : Type} {x : Stateful AddressSpace α}
    (hx : x.Leads t.space (fun _ s => Done q t { t with space := s }) fun _ s => s = t.space) :
    (onSpace x).Leads t (fun _ => Done q t) fun _ => Failed q t :=
  .zoom (hx.mono (fun _ _ hs => hs) fun _ _ hs => hs ▸ failed_refl h q)

theorem done_of_stays (q : SpaceRequest) {s : AddressSpace} (hs : AddressSpace.Stays t.space s) :
    Done q t { t with space := s } := by
  have hdrifts : Drifts t { t with space := s } := ⟨hs.arranged, [], .none _, hs.drift⟩
  exact hdrifts.done q

theorem done_of_joins {r : Region} {s : AddressSpace} (harranged : s.Arranged)
    (hmem : ∀ q, q ∈ s.regions.toList ↔ q = r ∨ q ∈ t.space.regions.toList) : Done (.add r) t { t with space := s } := by
  refine ⟨[], .none _, ⟨harranged, fun r' hr' => ?_, fun r₁ hr₁ r' hr' hstart => ?_⟩, fun _ r₁ hr₁ =>
    ⟨r₁, (hmem r₁).mpr (.inr hr₁), rfl⟩⟩
  · rcases (hmem r').mp hr' with rfl | hr'
    · exact .inl rfl
    · exact .inr ⟨r', hr', .refl r'⟩
  · obtain rfl := harranged.ordered.rising.eq_of_start hr' ((hmem r₁).mpr (.inr hr₁)) hstart
    exact .refl _

theorem perform_turns (h : t.space.Arranged) (q : SpaceRequest) :
    q.perform.Leads t (fun _ => Done q t) fun _ => Failed q t := by
  have finish : ∀ {α : Type} {x : Stateful (Tracker ρ) α}, x.Leads t (fun _ => Done q t) (fun _ => Failed q t) →
      (x >>= fun _ => pure ()).Leads t (fun _ => Done q t) fun _ => Failed q t := fun hx =>
    .bind (hx.mono (fun _ _ ht' => .answer ht') fun _ _ ht' => ht')
  cases q with
  | add r =>
    exact finish (onSpace_turns h _ ((AddressSpace.addRegion_joins h r).mono
      (fun _ _ hs => done_of_joins hs.1 hs.2.2.1) fun _ _ hs => hs))
  | remove query m =>
    refine finish (onSpace_turns h _ ((AddressSpace.removeRegion_leaves h query m).mono (fun _ s hs => ?_)
      fun _ _ hs => hs.1))
    obtain ⟨harranged, -, r, -, -, hmem⟩ := hs
    exact ⟨[], .none _, turned_of_subset h _ harranged fun q hq => ((hmem q).mp hq).1, nofun⟩
  | protect query p =>
    exact onSpace_turns h _ ((AddressSpace.protectRegion_stays h query p).mono (fun _ _ hs => done_of_stays _ hs)
      fun _ _ hs => hs)
  | pin address =>
    exact finish (onSpace_turns h _ ((AddressSpace.pin_stays h address).mono (fun _ _ hs => done_of_stays _ hs)
      fun _ _ hs => hs))
  | access address a =>
    exact onSpace_turns h _ ((AddressSpace.requestPermission_stays h address a).mono
      (fun _ _ hs => done_of_stays _ hs) fun _ _ hs => hs)
  | move old new =>
    refine finish ((moveRegion_travels h old new).mono (fun _ t' ht' => ?_) fun _ t' ht' => ?_)
    · obtain ⟨harranged, hmoves, hdrift⟩ := ht'.drifts h
      exact Drifts.done ⟨harranged, _, hmoves, hdrift⟩ _
    · obtain ⟨moves, hmoves⟩ := ht'.relocations
      exact ⟨moves, hmoves, turned_of_subset h _ ht'.arranged ht'.subset⟩
  | resize query newSize byForce =>
    exact finish ((resizeRegion_travels h query newSize byForce).mono (fun _ _ ht' => ht'.done _)
      fun _ _ ht' => ht'.failed rfl)
  | defragment query newSize =>
    exact finish ((defragmentRegion_travels h query newSize).mono (fun _ _ ht' => ht'.done _)
      fun _ _ ht' => ht'.failed rfl)
  | destroy =>
    have hnil : t.space.regions.clear.toList = [] := RegionIndex.toList_clear _
    have harranged : t.space.destroy.Arranged :=
      AddressSpace.arranged_of_nil (RegionIndex.ordered_clear _) hnil
    refine .update ⟨[], .none _, turned_of_subset h _ harranged fun r hr => ?_, nofun⟩
    change r ∈ t.space.regions.clear.toList at hr
    rw [hnil] at hr
    cases hr

theorem Reachable.arranged (h : t.Reachable) : t.space.Arranged := by
  induction h with
  | built hbuild _ x => exact (AddressSpace.sound_of_build hbuild).arranged
  | request _ q ih =>
    refine Leads.state (I := fun t' => t'.space.Arranged) ((perform_turns ih q).mono (fun _ _ ht' => ?_) fun _ _ ht' => ?_)
    · obtain ⟨_, -, hturned, -⟩ := ht'
      exact hturned.arranged
    · obtain ⟨_, -, hturned⟩ := ht'
      exact hturned.arranged
  | host _ _ ih => exact ih
  | memory _ x ih => exact ih

end Tracker

end RegionGuard

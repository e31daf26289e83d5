import RegionGuard.Proofs.HeapLayouts
import RegionGuard.Proofs.SoundSpaces
import RegionGuard.Space.Motion
set_option autoImplicit false

/-!
# Moving and growing regions

What a move of one region leaves behind, whether it succeeds or fails. A region that is moved to a block of the heap, or
grown in place, leaves a sound state behind. Only forced growth can fail after it has changed something, and then it has
only moved regions out of its way.
-/

namespace RegionGuard

open Stateful

/-- A region with all that is recorded of it, at another place. -/
def Region.at (r : Region) (start : Word) : Region := { r with start := start, physicalStart := start }

/-- A relocation that succeeds puts no byte past the last address. -/
def Relocator.StaysInside (ρ : Type) [Relocator ρ] : Prop :=
  ∀ (source destination length : Word) (s s' : ρ),
    (Relocator.relocate source destination length).runFrom s = (.ok (), s') →
      destination.toNat + length.toNat < Word.modulus

namespace Tracker

variable {ρ : Type}

/-- The tracked regions in the order of their starts. -/
def regions (t : Tracker ρ) : List Region := t.space.regions.toList

structure Sound (t : Tracker ρ) : Prop where
  space : t.space.Sound
  heap : t.heap.Sound

structure Moved (t t' : Tracker ρ) (r : Region) (destination : Word) : Prop where
  tracked : r ∈ t.regions
  regions : t'.regions.Perm (r.at destination :: t.regions.filter fun s => !decide (s.start = r.start))

structure Kept (t t' : Tracker ρ) : Prop where
  regions : t'.regions = t.regions
  heap : t'.heap = t.heap

theorem Kept.refl (t : Tracker ρ) : Kept t t := ⟨rfl, rfl⟩

/-- What a failed computation leaves behind: a sound state and, unless it stopped for good, the same regions
and the same heap. -/
def Spared (t : Tracker ρ) (f : Failure) (t' : Tracker ρ) : Prop := t'.Sound ∧ ∀ e, f = .error e → Kept t t'

theorem Spared.refl {t : Tracker ρ} (h : t.Sound) (f : Failure) : Spared t f t := ⟨h, fun _ _ => .refl t⟩

variable {t : Tracker ρ} {r : Region}

/-- A region that was taken out goes back to where it was. -/
theorem restore_regions (h : t.space.Sound) (hr : r ∈ t.regions) {t' : Tracker ρ} (ht' : t'.space.Sound)
    (hlist : t'.regions = t.regions.filter fun s => !decide (s.start = r.start)) :
    (restore r t').space.Sound ∧ (restore r t').regions = t.regions := by
  rcases ht'.ordered.places r with ⟨⟨s, hs, hstart⟩, -⟩ | ⟨-, x, hinsert, hordered, hplace⟩
  · change s ∈ t'.regions at hs
    rw [hlist] at hs
    exact absurd hstart (by simpa using (List.mem_filter.mp hs).2)
  · have hrestore : (restore r t').space.regions = x := by
      change (t'.space.regions.insert r).toOption.getD t'.space.regions = x
      rw [hinsert]
      rfl
    have hsame : x.toList = t.regions := by
      refine hordered.rising.eq_of_perm h.laid.rising ?_
      rw [hplace]
      refine (r.place_perm _).trans ?_
      change (r :: t'.regions).Perm _
      rw [hlist]
      exact h.laid.rising.perm_cons_filter hr
    exact ⟨⟨hrestore ▸ hordered, hrestore ▸ hsame ▸ h.laid⟩, by rw [regions, hrestore, hsame]⟩

theorem insertRegion_leads {x : RegionIndex} (hinsert : t.space.regions.insert r = .ok x) {E : Failure → Tracker ρ → Prop} :
    (insertRegion r).Leads t (fun _ t' => t' = { t with space := { t.space with regions := x } }) E := by
  have hchange : (do
      let regions ← t.space.regions.insert r
      return { t.space with regions := regions } : Outcome AddressSpace) = .ok { t.space with regions := x } := by
    rw [hinsert]
    rfl
  unfold insertRegion onSpace
  refine .zoom (.change (fun s hs => ?_) fun e he => ?_)
  · cases hchange.symm.trans hs
    rfl
  · cases hchange.symm.trans he

variable [Relocator ρ]

/-- While a region is taken out, its bytes go to where there is room, or else it goes back. -/
theorem departure_leads (inside : Relocator.StaysInside ρ) (h : t.Sound) (hr : r ∈ t.regions)
    {s : AddressSpace} (hs : s.Sound)
    (hlist : s.regions.toList = t.regions.filter fun q => !decide (q.start = r.start)) (new : Region) :
    (onError (do
      onSpace (.ask (·.checkRoom new))
      onRelocation (Relocator.relocate r.start new.start r.length)) (restore r)).Leads { t with space := s }
      (fun _ t' => t'.space = s ∧ t'.heap = t.heap ∧ s.checkRoom new = .ok () ∧
        new.start.toNat + r.length.toNat < Word.modulus)
      (Spared t) := by
  have hback : ∀ (e : Error) (x : ρ), Spared t (.error e) (restore r ⟨s, t.heap, x⟩) := by
    intro e x
    have hout : (⟨s, t.heap, x⟩ : Tracker ρ).space.Sound := hs
    obtain ⟨hsound, hregions⟩ := restore_regions h.space hr hout hlist
    exact ⟨⟨hsound, h.heap⟩, fun _ _ => ⟨hregions, rfl⟩⟩
  have hstopped : ∀ (e : Fatal) (x : ρ), Spared t (.fatal e) ⟨s, t.heap, x⟩ := fun e x =>
    ⟨⟨hs, h.heap⟩, fun _ he => nomatch he⟩
  refine .onError (.bind (.zoom (.inquire (fun _ hroom => ?_) fun f _ => ?_)))
  rotate_left
  · cases f with
    | error e => exact hback e _
    | fatal e => exact hstopped e _
  refine .zoom ?_
  change Leads _ t.relocation _ _
  cases hrun : (Relocator.relocate r.start new.start r.length).runFrom t.relocation with
  | mk o x =>
    cases o with
    | ok u => exact .of_ok hrun ⟨rfl, rfl, hroom, inside _ _ _ _ _ hrun⟩
    | error f =>
      refine .of_error hrun ?_
      cases f with
      | error e => exact hback e x
      | fatal e => exact hstopped e x

theorem moveRegion_leads (inside : Relocator.StaysInside ρ) (h : t.Sound) (old new : Region) :
    (moveRegion old new).Leads t
      (fun _ t' => t'.Sound ∧ t'.heap = t.heap ∧ ∃ r, r.start = old.start ∧ Moved t t' r new.start) (Spared t) := by
  unfold moveRegion
  refine .bind (.mono (.each fun r _ => ?_) (fun _ t' ht' => ?_) fun _ _ he => he)
  · exact .require (fun _ => .refl h _) fun _ => .answer ⟨rfl, rfl⟩
  rw [ht']
  refine .bind (.read (.bind (.lift (fun r hr => ?_) fun e _ => .refl h e)))
  obtain ⟨hmem, hagrees⟩ := h.space.mem_of_findRegion hr
  have hstart : r.start = old.start := Region.start_of_agrees hagrees rfl
  refine .refuse (fun _ => .refl h _) fun hfixed => .refuse (fun _ => .refl h _) fun hlength => ?_
  have hlength : new.length = r.length := Decidable.not_not.mp hlength
  obtain ⟨x, hremove, hordered, hlist⟩ := h.space.remove hmem
  have hlawful := h.space.laid.lawful r hmem
  obtain ⟨s, hs⟩ : ∃ s : AddressSpace, s = { t.space with regions := x } := ⟨_, rfl⟩
  have hsound : s.Sound := hs ▸ ⟨hordered, hlist ▸ h.space.laid.filter _⟩
  have hslist : s.regions.toList = t.regions.filter fun q => !decide (q.start = r.start) := hs ▸ hlist
  refine .bind (.update ?_)
  have htaken : mapRegions (fun x => ((x.remove? r .byStart).map (·.2)).getD x) t = { t with space := s } := by
    simp only [mapRegions, hremove, Option.map_some, Option.getD_some, hs]
  rw [htaken]
  refine .bind ((departure_leads inside h hmem hsound hslist new).mono (fun _ t' ht' => ?_) fun _ _ he => he)
  obtain ⟨hspace, hheap, hroom, hfits⟩ := ht'
  have hmoved : (r.at new.start).Lawful := ⟨by simp [Region.at, Region.isIdentityMapped], hlawful.nonempty, hfits⟩
  have hapart : ∀ q ∈ s.regions.toList, q.Apart (r.at new.start) := fun q hq => by
    have := hsound.apart_of_checkRoom (hlength ▸ hlawful.nonempty) (hlength ▸ hfits) hroom q hq
    unfold Region.Apart at this ⊢
    rw [hlength] at this
    exact this
  obtain ⟨y, hinsert, hyordered, hylist, hylaid⟩ := hsound.insert hmoved hapart
  refine .bind ((insertRegion_leads (hspace ▸ hinsert)).mono (fun _ t'' ht'' => .answer ?_) fun _ _ he => he)
  rw [ht'']
  refine ⟨⟨⟨hyordered, hylaid⟩, hheap ▸ h.heap⟩, hheap, r, hstart, hmem, ?_⟩
  change y.toList.Perm _
  rw [hylist, ← hslist]
  exact Region.place_perm _ _

end Tracker

theorem Word.add_one_le_iff {v w : Word} (hv : v.toNat + 1 < Word.modulus) : v + 1 ≤ w ↔ v < w := by
  have hsum : (v + 1).toNat = v.toNat + 1 := by
    rw [UInt64.toNat_add]
    exact Nat.mod_eq_of_lt hv
  rw [UInt64.le_iff_toNat_le, UInt64.lt_iff_toNat_lt, hsum]
  omega

namespace Tracker

variable {ρ : Type} {t t' : Tracker ρ}

/-- The regions are those of another state, each with its length and its marks, and those up to an address
have stayed where they were. -/
structure Shuffled (t t' : Tracker ρ) (start : Word) : Prop where
  shapes : (t'.regions.map (·.at 0)).Perm (t.regions.map (·.at 0))
  stayed : ∀ r ∈ t.regions, r.start ≤ start → r ∈ t'.regions

theorem Shuffled.refl (t : Tracker ρ) (start : Word) : Shuffled t t start := ⟨.refl _, fun _ hr _ => hr⟩

theorem Shuffled.trans {t'' : Tracker ρ} {start : Word} (h : Shuffled t t' start) (h' : Shuffled t' t'' start) :
    Shuffled t t'' start :=
  ⟨h'.shapes.trans h.shapes, fun r hr hle => h'.stayed r (h.stayed r hr hle) hle⟩

theorem Kept.shuffled (h : Kept t t') (start : Word) : Shuffled t t' start :=
  ⟨by rw [h.regions], fun _ hr _ => h.regions ▸ hr⟩

theorem Moved.shapes {r : Region} {destination : Word} (h : Moved t t' r destination) (ht : Region.Rising t.regions) :
    (t'.regions.map (·.at 0)).Perm (t.regions.map (·.at 0)) := by
  refine (h.regions.map _).trans ?_
  change (r.at 0 :: _).Perm _
  exact (ht.perm_cons_filter h.tracked).map (·.at 0)

theorem Moved.shuffled {r : Region} {destination start : Word} (h : Moved t t' r destination) (ht : t.space.Sound)
    (hlt : start < r.start) : Shuffled t t' start where
  shapes := h.shapes ht.laid.rising
  stayed s hs hle := by
    refine h.regions.mem_iff.mpr (List.mem_cons_of_mem _ (List.mem_filter.mpr ⟨hs, ?_⟩))
    simpa using UInt64.ne_of_lt (UInt64.lt_of_le_of_lt hle hlt)

theorem allocate_leads {f : Heap → Option (Word × Heap)} {shortage : MemoryShortage} {Q : Word → Tracker ρ → Prop}
    {E : Failure → Tracker ρ → Prop} (hsome : ∀ a heap, f t.heap = some (a, heap) → Q a { t with heap := heap })
    (hnone : f t.heap = none → E (.error (.outOfMemory shortage)) t) : (allocate f shortage).Leads t Q E := by
  unfold allocate
  refine .bind (.read (.bind (.present (fun found hfound => ?_) hnone)))
  exact .bind (.put (.answer (hsome found.1 found.2 hfound)))

variable [Relocator ρ]

theorem moveToBlock_leads (inside : Relocator.StaysInside ρ) (h : t.Sound) (old : Region) {destination : Word}
    {heap : Heap} (hfree : t.heap.free destination = heap) :
    (moveToBlock old destination).Leads t
      (fun _ t' => t'.Sound ∧ ∃ r, r.start = old.start ∧ Moved t t' r destination) (Spared { t with heap := heap }) := by
  unfold moveToBlock
  refine .bind (.onError ((moveRegion_leads inside h old _).mono (fun _ t' ht' => ?_) fun f t' ht' => ?_))
  · obtain ⟨hsound, -, r, hstart, hmoved⟩ := ht'
    exact .update ⟨⟨hsound.space, hsound.heap.free old.start⟩, r, hstart, hmoved.tracked, hmoved.regions⟩
  · cases f with
    | error e =>
      obtain ⟨hregions, hsame⟩ := ht'.2 e rfl
      refine ⟨⟨ht'.1.space, ht'.1.heap.free destination⟩, fun _ _ => ⟨hregions, ?_⟩⟩
      change t'.heap.free destination = heap
      rw [hsame, hfree]
    | fatal e => exact ⟨ht'.1, fun _ he => nomatch he⟩

theorem defragmentRegion_leads (inside : Relocator.StaysInside ρ) (h : t.Sound) (query : Region) (newSize : Word) :
    (defragmentRegion query newSize).Leads t (fun _ t' => t'.Sound) (Spared t) := by
  unfold defragmentRegion
  refine .bind (.read (.bind (.lift (fun r hr => ?_) fun e _ => .refl h e)))
  refine .refuse (fun _ => .refl h _) fun _ => .refuse (fun _ => .refl h _) fun _ => ?_
  refine .bind (allocate_leads (fun a heap halloc => ?_) fun _ => .refl h _)
  have hsound : ({ t with heap := heap } : Tracker ρ).Sound := ⟨h.space, h.heap.allocWithin? halloc⟩
  refine .bind ((moveToBlock_leads inside hsound r (Heap.free_of_allocWithin? h.heap halloc)).mono ?_ ?_)
  · exact fun _ t' ht' => .answer ht'.1
  · exact fun f t' ht' => ht'

theorem evictionPlace?_eq {start newStop length place : Word} {heap heap' : Heap} (h : heap.Sound)
    (hplace : evictionPlace? start newStop length heap = some (place, heap')) :
    heap'.Sound ∧ heap'.free place = heap := by
  unfold evictionPlace? at hplace
  split at hplace
  · rename_i hbehind
    cases hplace
    exact ⟨h.allocWithin? hbehind, Heap.free_of_allocWithin? h hbehind⟩
  · exact ⟨h.allocWithin? hplace, Heap.free_of_allocWithin? h hplace⟩

def SparedUpTo (t : Tracker ρ) (start : Word) (byForce : Bool) (f : Failure) (t' : Tracker ρ) : Prop :=
  t'.Sound ∧ ∀ e, f = .error e → Shuffled t t' start ∧ (byForce = false → Kept t t')

omit [Relocator ρ] in
/-- The first region in the way of a growing one, which may move, and the block that is taken for it. -/
structure Evicts (t : Tracker ρ) (start newStop : Word) (neighbor : Region) (place : Word) (heap : Heap) : Prop where
  next : t.space.regions.nextFrom? (start + 1) = some neighbor
  below : neighbor.start < newStop
  free : t.space.isFixed neighbor = false
  granted : evictionPlace? start newStop neighbor.length t.heap = some (place, heap)

omit [Relocator ρ] in
theorem Evicts.tracked {start newStop place : Word} {neighbor : Region} {heap : Heap} (h : t.space.regions.Ordered)
    (hstart : start.toNat + 1 < Word.modulus) (hevicts : t.Evicts start newStop neighbor place heap) :
    neighbor ∈ t.regions ∧ start < neighbor.start := by
  obtain ⟨hmem, hle, -⟩ := h.nextFrom?_eq_some_iff.mp hevicts.next
  exact ⟨hmem, (Word.add_one_le_iff hstart).mp hle⟩

/-- What each round of evictions keeps, of the state and the number of rounds that are left, holds at the end, and then no region
is in the way. -/
theorem evictNeighbors_rounds {I : Nat → Tracker ρ → Prop} {E : Failure → Tracker ρ → Prop} {start newStop : Word}
    {byForce : Bool} (spent : ∀ t, I 0 t → E (.fatal .unbounded) t) (refused : ∀ n t e, I n t → E (.error e) t)
    (round : ∀ n t neighbor place heap, I (n + 1) t → byForce = true → t.Evicts start newStop neighbor place heap →
      (moveToBlock neighbor place).Leads { t with heap := heap } (fun _ => I n) E)
    {rounds : Nat} (h : I rounds t) :
    (evictNeighbors start newStop byForce rounds).Leads t
      (fun _ t' => (∃ n, I n t') ∧
        ∀ neighbor, t'.space.regions.nextFrom? (start + 1) = some neighbor → newStop ≤ neighbor.start) E := by
  induction rounds generalizing t with
  | zero => exact .stop (spent t h)
  | succ rounds ih =>
    unfold evictNeighbors
    refine .bind (.read ?_)
    cases hnext : t.space.regions.nextFrom? (start + 1) with
    | none => exact .answer ⟨⟨_, h⟩, fun _ hsome => by cases hnext.symm.trans hsome⟩
    | some neighbor =>
      refine .branch (fun hle => .answer ⟨⟨_, h⟩, fun _ hsome => ?_⟩) fun hbelow => ?_
      · cases hnext.symm.trans hsome
        exact hle
      refine .require (fun _ => refused _ _ _ h) fun hforce => .refuse (fun _ => refused _ _ _ h) fun hfixed => ?_
      refine .bind (allocate_leads (fun place heap hplace => ?_) fun _ => refused _ _ _ h)
      have hevicts : t.Evicts start newStop neighbor place heap :=
        ⟨hnext, UInt64.not_le.mp hbelow, Bool.eq_false_iff.mpr hfixed, hplace⟩
      refine .bind ((round rounds t neighbor place heap h hforce hevicts).mono (fun _ t' ht' => ?_) fun _ _ he => he)
      refine .bind (.zoom (.inquire (fun _ _ => ih ht') fun f hf => ?_))
      obtain ⟨e, rfl⟩ := AddressSpace.raises_of_findRegion hf
      exact refused _ _ e ht'

theorem evictNeighbors_leads (inside : Relocator.StaysInside ρ) (h : t.Sound) {start : Word}
    (hstart : start.toNat + 1 < Word.modulus) (newStop : Word) (byForce : Bool) (rounds : Nat) :
    (evictNeighbors start newStop byForce rounds).Leads t
      (fun _ t' => t'.Sound ∧ Shuffled t t' start ∧ (byForce = false → t' = t)) (SparedUpTo t start byForce) := by
  refine (evictNeighbors_rounds (I := fun _ t' => t'.Sound ∧ Shuffled t t' start ∧ (byForce = false → t' = t))
    (fun t' ht' => ⟨ht'.1, nofun⟩) (fun _ t' _ ht' => ?_) (fun _ t' neighbor place heap ht' hforce hevicts => ?_)
    ⟨h, .refl t start, fun _ => rfl⟩).mono (fun _ _ ht' => ht'.1.elim fun _ hkept => hkept) fun _ _ ht' => ht'
  · obtain ⟨hsound, hshuffled, hsame⟩ := ht'
    exact ⟨hsound, fun _ _ => ⟨hshuffled, fun hfalse => hsame hfalse ▸ .refl t⟩⟩
  subst hforce
  obtain ⟨hsound, hshuffled, -⟩ := ht'
  have hbehind := (hevicts.tracked hsound.space.ordered hstart).2
  have hplace := evictionPlace?_eq hsound.heap hevicts.granted
  have htaken : ({ t' with heap := heap } : Tracker ρ).Sound := ⟨hsound.space, hplace.1⟩
  refine (moveToBlock_leads inside htaken neighbor hplace.2).mono (fun _ t'' ht'' => ?_) fun f t'' ht'' => ?_
  · obtain ⟨ht'', r, hr, htracked, hregions⟩ := ht''
    exact ⟨ht'', hshuffled.trans (Moved.shuffled ⟨htracked, hregions⟩ hsound.space (hr ▸ hbehind)), nofun⟩
  · exact ⟨ht''.1, fun e he => ⟨hshuffled.trans ((ht''.2 e he).shuffled start), nofun⟩⟩

omit [Relocator ρ] in
/-- A region may take what length it likes, as long as it is not empty and ends in front of the next one. -/
theorem setLength_sound (h : t.space.Sound) {start length : Word} (hlength : length ≠ 0)
    (hfits : start.toNat + length.toNat < Word.modulus)
    (hroom : ∀ s ∈ t.regions, start < s.start → start.toNat + length.toNat ≤ s.start.toNat) :
    (setLength start length t).space.Sound := by
  obtain ⟨hordered, hlist⟩ := h.ordered.modify_eq (w := start) (f := fun r => { r with length := length })
    fun r _ hr => hr
  refine ⟨hordered, ?_⟩
  change Region.Laid (t.space.regions.modify start _).toList
  rw [hlist]
  refine h.laid.map_at (fun _ _ hr => hr) (fun r hr hw => ⟨(h.laid.lawful r hr).mapped, hlength, ?_⟩) ?_
  · rw [hw]
    exact hfits
  · intro r hr hw s hs hne
    change s.start.toNat + s.length.toNat ≤ r.start.toNat ∨ r.start.toNat + length.toNat ≤ s.start.toNat
    rw [hw]
    by_cases hbehind : start < s.start
    · exact .inr (hroom s hs hbehind)
    · have hfront : s.start < start := UInt64.lt_of_le_of_ne (UInt64.not_lt.mp hbehind) hne
      have := UInt64.lt_iff_toNat_lt.mp hfront
      have hpos := (h.laid.lawful r hr).pos
      have hapart := h.laid.apart s hs r hr (hw ▸ hne)
      unfold Region.Apart at hapart
      rw [hw] at hapart
      exact .inl (by omega)

omit [Relocator ρ] in
theorem granted_fits (h : t.space.regions.Ordered) {start granted : Word} (hstart : start.toNat + 1 < Word.modulus)
    (hgranted : granted ≠ 0) :
    ∃ length, (match t.space.regions.nextFrom? (start + 1) with
      | some neighbor => min (neighbor.start - start) granted
      | none => granted) = length ∧ length ≠ 0 ∧ length.toNat ≤ granted.toNat ∧
        ∀ s ∈ t.regions, start < s.start → start.toNat + length.toNat ≤ s.start.toNat := by
  refine ⟨_, rfl, ?_⟩
  cases hnext : t.space.regions.nextFrom? (start + 1) with
  | none =>
    refine ⟨hgranted, Nat.le_refl _, fun s hs hlt => ?_⟩
    exact absurd ((Word.add_one_le_iff hstart).mpr hlt) (UInt64.not_le.mpr (h.nextFrom?_eq_none_iff.mp hnext s hs))
  | some neighbor =>
    obtain ⟨-, hle, hfirst⟩ := h.nextFrom?_eq_some_iff.mp hnext
    have hbehind := (Word.add_one_le_iff hstart).mp hle
    have hgap : (neighbor.start - start).toNat = neighbor.start.toNat - start.toNat :=
      UInt64.toNat_sub_of_le _ _ (UInt64.le_of_lt hbehind)
    have hlt := UInt64.lt_iff_toNat_lt.mp hbehind
    have hmin : min (neighbor.start - start) granted =
      if neighbor.start - start ≤ granted then neighbor.start - start else granted := rfl
    have hbound : (min (neighbor.start - start) granted).toNat ≤ neighbor.start.toNat - start.toNat ∧
        (min (neighbor.start - start) granted).toNat ≤ granted.toNat ∧ min (neighbor.start - start) granted ≠ 0 := by
      rw [hmin]
      split
      · rename_i hle
        refine ⟨Nat.le_of_eq hgap, UInt64.le_iff_toNat_le.mp hle, fun hzero => ?_⟩
        rw [hzero] at hgap
        change 0 = _ at hgap
        omega
      · rename_i hle
        have := UInt64.lt_iff_toNat_lt.mp (UInt64.not_le.mp hle)
        exact ⟨by omega, Nat.le_refl _, hgranted⟩
    refine ⟨hbound.2.2, hbound.2.1, fun s hs hss => ?_⟩
    have := UInt64.le_iff_toNat_le.mp (hfirst s hs ((Word.add_one_le_iff hstart).mpr hss))
    change start.toNat + (min (neighbor.start - start) granted).toNat ≤ s.start.toNat
    omega

theorem growRegion_leads (inside : Relocator.StaysInside ρ) (h : t.Sound) {r : Region} (hr : r ∈ t.regions)
    (newSize : Word) (byForce : Bool) :
    (growRegion r newSize byForce).Leads t (fun _ t' => t'.Sound) (SparedUpTo t r.start byForce) := by
  have unchanged : ∀ f, SparedUpTo t r.start byForce f t := fun _ =>
    ⟨h, fun _ _ => ⟨.refl t r.start, fun _ => .refl t⟩⟩
  have hlawful := h.space.laid.lawful r hr
  have hnext : r.start.toNat + 1 < Word.modulus := by
    have := hlawful.fits
    have := hlawful.pos
    omega
  unfold growRegion
  refine .bind (.present (fun newStop _ => ?_) fun _ => unchanged _)
  refine .bind (.read (.bind ((evictNeighbors_leads inside h hnext newStop byForce _).mono (fun _ t' ht' => ?_) ?_)))
  · obtain ⟨ht', hshuffled, hforced⟩ := ht'
    have spared : ∀ f, SparedUpTo t r.start byForce f t' := fun _ =>
      ⟨ht', fun _ _ => ⟨hshuffled, fun hfalse => hforced hfalse ▸ .refl t⟩⟩
    refine .bind (allocate_leads (fun granted heap hresize => ?_) fun _ => spared _)
    obtain ⟨-, hle, hne, hfits⟩ := Heap.resize?_eq hresize
    refine .refuse (fun hlt => absurd hlt (UInt64.not_lt.mpr hle)) fun _ => ?_
    obtain ⟨length, hlength, hpositive, hshort, hroom⟩ := granted_fits ht'.space.ordered hnext hne
    refine .bind (.read (.bind (.update (.answer ⟨?_, ht'.heap.resize? hresize⟩))))
    change ({ t' with heap := heap } : Tracker ρ).setLength r.start (match t'.space.regions.nextFrom? (r.start + 1) with
      | some neighbor => min (neighbor.start - r.start) granted
      | none => granted) |>.space.Sound
    rw [hlength]
    exact setLength_sound ht'.space hpositive (by omega) hroom
  · exact fun _ _ ht' => ht'

theorem resizeRegion_leads (inside : Relocator.StaysInside ρ) (h : t.Sound) (query : Region) (newSize : Word)
    (byForce : Bool) :
    (resizeRegion query newSize byForce).Leads t (fun _ t' => t'.Sound) (SparedUpTo t query.start byForce) := by
  have unchanged : ∀ f, SparedUpTo t query.start byForce f t := fun _ =>
    ⟨h, fun _ _ => ⟨.refl t query.start, fun _ => .refl t⟩⟩
  unfold resizeRegion
  refine .bind (.read (.bind (.lift (fun r hr => ?_) fun e _ => unchanged e)))
  obtain ⟨hmem, hagrees⟩ := h.space.mem_of_findRegion hr
  have hstart : r.start = query.start := Region.start_of_agrees hagrees rfl
  refine .branch (fun _ => .answer h) fun _ => .refuse (fun _ => unchanged _) fun hsize =>
    .refuse (fun _ => unchanged _) fun _ => .branch (fun hlt => ?_) fun _ => ?_
  · refine .bind (.update (.bind (.update (.answer ⟨?_, ?_⟩))))
    · have hlt := UInt64.lt_iff_toNat_lt.mp hlt
      have := (h.space.laid.lawful r hmem).fits
      refine setLength_sound h.space hsize (by omega) fun s hs hbehind => ?_
      have := UInt64.lt_iff_toNat_lt.mp hbehind
      have hapart := h.space.laid.apart r hmem s hs (UInt64.ne_of_lt hbehind)
      unfold Region.Apart at hapart
      have := (h.space.laid.lawful s hs).pos
      omega
    · change (((t.heap.resize? r.start newSize).map (·.2)).getD t.heap).Sound
      cases hresize : t.heap.resize? r.start newSize with
      | none => exact h.heap
      | some found => exact h.heap.resize? hresize
  · rw [← hstart]
    exact growRegion_leads inside h hmem newSize byForce

end Tracker

end RegionGuard

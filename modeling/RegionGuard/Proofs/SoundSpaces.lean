import RegionGuard.Space.Basic
import RegionGuard.Proofs.Alike
import RegionGuard.Proofs.Leads
import RegionGuard.Proofs.RegionOrder
set_option autoImplicit false

namespace RegionGuard

namespace Region

structure Lawful (r : Region) : Prop where
  mapped : r.isIdentityMapped = true
  nonempty : r.length ≠ 0
  fits : r.start.toNat + r.length.toNat < Word.modulus

/-- One of two regions ends before the other starts. -/
def Apart (r s : Region) : Prop :=
  r.start.toNat + r.length.toNat ≤ s.start.toNat ∨ s.start.toNat + s.length.toNat ≤ r.start.toNat

theorem Apart.symm {r s : Region} (h : r.Apart s) : s.Apart r := Or.symm h

theorem Lawful.pos {r : Region} (h : r.Lawful) : 0 < r.length.toNat := Word.toNat_pos h.nonempty

theorem stop_toNat {r : Region} (h : r.start.toNat + r.length.toNat < Word.modulus) :
    r.stop.toNat = r.start.toNat + r.length.toNat := by
  have hstop : r.stop = UInt64.ofNat (r.start.toNat + r.length.toNat) := by
    unfold stop Word.addSaturating Word.add? Word.ofNat?
    rw [if_pos h]
    rfl
  rw [hstop]
  exact UInt64.toNat_ofNat_of_lt h

structure Laid (l : List Region) : Prop where
  rising : Rising l
  lawful : ∀ r ∈ l, r.Lawful
  apart : ∀ r ∈ l, ∀ s ∈ l, r.start ≠ s.start → r.Apart s

namespace Laid

variable {l : List Region} {r s : Region}

theorem nil : Laid [] :=
  ⟨List.Pairwise.nil, fun _ h => (List.not_mem_nil h).elim, fun _ h => (List.not_mem_nil h).elim⟩

theorem pairwise (h : Laid l) : l.Pairwise Apart :=
  h.rising.imp_of_mem fun hr hs hlt => h.apart _ hr _ hs (UInt64.ne_of_lt hlt)

theorem filter (h : Laid l) (p : Region → Bool) : Laid (l.filter p) where
  rising := h.rising.filter p
  lawful r hr := h.lawful r (List.mem_filter.mp hr).1
  apart r hr s hs := h.apart r (List.mem_filter.mp hr).1 s (List.mem_filter.mp hs).1

theorem place (h : Laid l) (hr : r.Lawful) (hapart : ∀ s ∈ l, s.Apart r) : Laid (r.place l) := by
  have hmem : ∀ s, s ∈ r.place l ↔ s = r ∨ s ∈ l := fun s =>
    (r.place_perm l).mem_iff.trans List.mem_cons
  refine ⟨h.rising.place fun s hs hstart => ?_, fun s hs => ?_, fun s hs q hq hne => ?_⟩
  · have hpos := hr.pos
    have hspos := (h.lawful s hs).pos
    have := hapart s hs
    unfold Apart at this
    rw [hstart] at this
    omega
  · rcases (hmem s).mp hs with hsr | hs'
    · exact hsr ▸ hr
    · exact h.lawful s hs'
  · rcases (hmem s).mp hs with hsr | hs' <;> rcases (hmem q).mp hq with hqr | hq'
    · exact absurd (hsr ▸ hqr ▸ rfl) hne
    · exact hsr ▸ (hapart q hq').symm
    · exact hqr ▸ hapart s hs'
    · exact h.apart s hs' q hq' hne

theorem map_at (h : Laid l) {w : Word} {f : Region → Region} (hstart : ∀ r ∈ l, r.start = w → (f r).start = w)
    (hlawful : ∀ r ∈ l, r.start = w → (f r).Lawful)
    (hapart : ∀ r ∈ l, r.start = w → ∀ s ∈ l, s.start ≠ w → s.Apart (f r)) :
    Laid (l.map fun r => if r.start = w then f r else r) := by
  refine ⟨h.rising.map_at hstart, fun s hs => ?_, fun s hs q hq hne => ?_⟩
  · obtain ⟨r, hr, rfl⟩ := List.mem_map.mp hs
    split
    · exact hlawful r hr ‹_›
    · exact h.lawful r hr
  · obtain ⟨r, hr, rfl⟩ := List.mem_map.mp hs
    obtain ⟨p, hp, rfl⟩ := List.mem_map.mp hq
    split at hne <;> split at hne
    · rename_i hrw hpw
      exact absurd ((hstart r hr hrw).trans (hstart p hp hpw).symm) hne
    · rename_i hrw hpw
      rw [if_pos hrw, if_neg hpw]
      exact (hapart r hr hrw p hp hpw).symm
    · rename_i hrw hpw
      rw [if_neg hrw, if_pos hpw]
      exact hapart p hp hpw r hr hrw
    · rename_i hrw hpw
      rw [if_neg hrw, if_neg hpw]
      exact h.apart r hr p hp hne

theorem map_mark (h : Laid l) {w : Word} {f : Region → Region}
    (hf : ∀ r ∈ l, r.start = w →
      (f r).start = r.start ∧ (f r).physicalStart = r.physicalStart ∧ (f r).length = r.length) :
    Laid (l.map fun r => if r.start = w then f r else r) := by
  refine h.map_at (fun r hr hw => (hf r hr hw).1.trans hw) (fun r hr hw => ?_) fun r hr hw s hs hne => ?_
  · obtain ⟨hs, hp, hl⟩ := hf r hr hw
    have := h.lawful r hr
    refine ⟨?_, hl ▸ this.nonempty, hs ▸ hl ▸ this.fits⟩
    have hmapped := this.mapped
    unfold isIdentityMapped at hmapped ⊢
    rw [hs, hp]
    exact hmapped
  · have := h.apart s hs r hr (hw ▸ hne)
    unfold Apart at this ⊢
    rw [(hf r hr hw).1, (hf r hr hw).2.2]
    exact this

theorem apart_of_last (h : Laid l) {q : Region} (hq : q.start.toNat + q.length.toNat < Word.modulus)
    (hnone : ((l.filter fun r => decide (r.start < q.stop)).getLast?).filter
      (fun r => decide (q.start < r.stop)) = none) : ∀ s ∈ l, s.Apart q := by
  intro s hs
  by_cases hbelow : s.start < q.stop
  · have hmem : s ∈ l.filter fun r => decide (r.start < q.stop) :=
      List.mem_filter.mpr ⟨hs, decide_eq_true hbelow⟩
    left
    cases hlast : (l.filter fun r => decide (r.start < q.stop)).getLast? with
    | none => exact absurd (List.getLast?_eq_none_iff.mp hlast) (List.ne_nil_of_mem hmem)
    | some last =>
      rw [hlast, Option.filter_some] at hnone
      have hends : ¬ q.start < last.stop := by simpa using hnone
      have hlastmem := (List.mem_filter.mp (List.mem_of_getLast? hlast)).1
      have hle : last.start.toNat + last.length.toNat ≤ q.start.toNat := by
        rw [← stop_toNat (h.lawful last hlastmem).fits]
        exact UInt64.le_iff_toNat_le.mp (UInt64.not_lt.mp hends)
      rcases Rising.eq_or_lt_last (h.rising.filter _) hlast hmem with rfl | hlt
      · exact hle
      · have hspos := (h.lawful s hs).pos
        have := h.apart s hs last hlastmem (UInt64.ne_of_lt hlt)
        have := UInt64.lt_iff_toNat_lt.mp hlt
        unfold Apart at *
        omega
  · right
    rw [← stop_toNat hq]
    exact UInt64.le_iff_toNat_le.mp (UInt64.not_lt.mp hbelow)

end Laid

end Region

theorem RegionIndex.Ordered.mem_of_findRegion {s : AddressSpace} (h : s.regions.Ordered) {query r : Region}
    {m : MatchMask} (hfind : s.findRegion query m = .ok r) : r ∈ s.regions.toList ∧ r.agrees query m = true := by
  unfold AddressSpace.findRegion at hfind
  rw [h.find?_eq] at hfind
  cases hr : s.regions.toList.find? (fun r => r.agrees query m) with
  | none =>
    rw [hr] at hfind
    cases hfind
  | some q =>
    rw [hr] at hfind
    cases hfind
    exact ⟨List.mem_of_find?_eq_some hr, (List.find?_some hr :)⟩

namespace AddressSpace

theorem raises_of_findRegion {s : AddressSpace} {query : Region} {m : MatchMask} {f : Failure}
    (hf : s.findRegion query m = .error f) : ∃ e, f = .error e := by
  unfold findRegion at hf
  cases hfound : s.regions.find? query m with
  | none =>
    rw [hfound] at hf
    cases hf
    exact ⟨_, rfl⟩
  | some r =>
    rw [hfound] at hf
    cases hf

structure Sound (s : AddressSpace) : Prop where
  ordered : s.regions.Ordered
  laid : Region.Laid s.regions.toList

variable {s : AddressSpace}

theorem sound_empty (name : String) (kind : IndexKind) : (empty name kind).Sound :=
  ⟨RegionIndex.ordered_empty kind, (RegionIndex.toList_empty kind).symm ▸ Region.Laid.nil⟩

theorem sound_destroy (s : AddressSpace) : s.destroy.Sound :=
  ⟨RegionIndex.ordered_clear s.regions, (RegionIndex.toList_clear s.regions).symm ▸ Region.Laid.nil⟩

theorem Sound.of_regions (h : s.Sound) {s' : AddressSpace} (hregions : s'.regions = s.regions) : s'.Sound :=
  ⟨hregions ▸ h.ordered, hregions ▸ h.laid⟩

theorem lawful_of_checkShape {r : Region} (h : checkShape r = .ok ()) : r.Lawful := by
  by_cases hmapped : r.isIdentityMapped = true
  · by_cases hempty : r.isEmpty = true
    · rw [checkShape, if_pos hmapped, if_pos hempty] at h
      cases h
    · by_cases hwraps : (Word.add? r.start r.length).isNone = true
      · rw [checkShape, if_pos hmapped, if_neg hempty, if_pos hwraps] at h
        cases h
      · refine ⟨hmapped, by simpa [Region.isEmpty] using hempty, ?_⟩
        unfold Word.add? Word.ofNat? at hwraps
        refine Decidable.byContradiction fun hlt => hwraps ?_
        rw [if_neg hlt]
        rfl
  · rw [checkShape, if_neg hmapped] at h
    cases h

theorem Sound.apart_of_checkRoom (h : s.Sound) {r : Region} (hnonempty : r.length ≠ 0)
    (hfits : r.start.toNat + r.length.toNat < Word.modulus) (hroom : s.checkRoom r = .ok ()) :
    ∀ q ∈ s.regions.toList, q.Apart r := by
  refine h.laid.apart_of_last hfits ?_
  have hnone : s.regions.overlapping? r = none := by
    unfold checkRoom at hroom
    cases hfound : s.regions.overlapping? r with
    | none => rfl
    | some found =>
      rw [hfound] at hroom
      cases hroom
  rwa [h.ordered.overlapping?_eq, if_neg hnonempty] at hnone

theorem Sound.insert (h : s.Sound) {r : Region} (hr : r.Lawful) (hapart : ∀ q ∈ s.regions.toList, q.Apart r) :
    ∃ x, s.regions.insert r = .ok x ∧ x.Ordered ∧ x.toList = r.place s.regions.toList ∧ Region.Laid x.toList := by
  rcases h.ordered.places r with ⟨⟨q, hq, hstart⟩, -⟩ | ⟨-, x, hinsert, hordered, hlist⟩
  · have := hapart q hq
    have := hr.pos
    have := (h.laid.lawful q hq).pos
    unfold Region.Apart at *
    rw [hstart] at *
    omega
  · exact ⟨x, hinsert, hordered, hlist, hlist ▸ h.laid.place hr hapart⟩

theorem addRegion_leads (h : s.Sound) (r : Region) :
    (addRegion r).Leads s (fun _ s' => s'.Sound) fun _ s' => s' = s := by
  unfold addRegion
  refine .bind (.lift (fun _ hshape => ?_) fun _ _ => rfl)
  refine .bind (.inquire (fun _ hroom => ?_) fun _ _ => rfl)
  have hr := lawful_of_checkShape hshape
  obtain ⟨x, hinsert, hordered, -, hlaid⟩ := h.insert hr (h.apart_of_checkRoom hr.nonempty hr.fits hroom)
  refine .bind (.change (fun s' hs' => ?_) fun _ _ => rfl)
  rw [hinsert] at hs'
  cases hs'
  exact .answer ⟨hordered, hlaid⟩

theorem Sound.mem_of_findRegion (h : s.Sound) {query r : Region} {m : MatchMask}
    (hfind : s.findRegion query m = .ok r) : r ∈ s.regions.toList ∧ r.agrees query m = true :=
  h.ordered.mem_of_findRegion hfind

theorem Sound.remove (h : s.Sound) {r : Region} (hr : r ∈ s.regions.toList) :
    ∃ x, s.regions.remove? r .byStart = some (r, x) ∧ x.Ordered ∧
      x.toList = s.regions.toList.filter fun q => !decide (q.start = r.start) := by
  obtain ⟨x, -, hremove, hordered, hlist⟩ := h.ordered.remove?_self hr
  exact ⟨x, hremove, hordered, hlist⟩

theorem removeRegion_leads (h : s.Sound) (query : Region) (m : MatchMask) :
    (removeRegion query m).Leads s (fun _ s' => s'.Sound) fun _ s' => s' = s := by
  unfold removeRegion
  refine .bind (.inquire (fun r hr => ?_) fun _ _ => rfl)
  refine .bind (.read (.refuse (fun _ => rfl) fun _ => ?_))
  refine .bind (.present (fun found hfound => ?_) fun _ => rfl)
  rcases h.ordered.remove?_cases r .byStart with ⟨-, hnone⟩ | ⟨q, y, -, hsome, hordered, hlist⟩
  · rw [hnone] at hfound
    cases hfound
  · rw [hsome] at hfound
    cases hfound
    exact .bind (.put (.answer ⟨hordered, hlist ▸ h.laid.filter _⟩))

theorem Sound.modify (h : s.Sound) (w : Word) {f : Region → Region}
    (hf : ∀ r ∈ s.regions.toList, r.start = w →
      (f r).start = r.start ∧ (f r).physicalStart = r.physicalStart ∧ (f r).length = r.length) :
    { s with regions := s.regions.modify w f }.Sound := by
  obtain ⟨hordered, hlist⟩ := h.ordered.modify_eq fun r hr hw => (hf r hr hw).1.trans hw
  exact ⟨hordered, hlist ▸ h.laid.map_mark hf⟩

theorem protectRegion_leads (h : s.Sound) (query : Region) (p : Protection) :
    (protectRegion query p).Leads s (fun _ s' => s'.Sound) fun _ s' => s' = s := by
  unfold protectRegion
  refine .bind (.inquire (fun r _ => ?_) fun _ _ => rfl)
  refine .branch (fun _ => ?_) fun _ => .bind (.stop rfl)
  exact .update (h.modify r.start fun _ _ _ => ⟨rfl, rfl, rfl⟩)

theorem pin_leads (h : s.Sound) (address : Word) :
    (pin address).Leads s (fun _ s' => s'.Sound) fun _ s' => s' = s := by
  unfold pin
  refine .bind (.read (.bind (.present (fun r hr => ?_) fun _ => rfl)))
  refine .bind (.put (.answer (h.modify r.start fun q hq hstart => ?_)))
  have hrlist : r ∈ s.regions.toList := (RegionIndex.mem_of_containing? hr).1
  rw [h.laid.rising.eq_of_start hq hrlist hstart]
  exact ⟨rfl, rfl, rfl⟩

theorem Sound.latchFixed (h : s.Sound) (a : Access) (f : FixedRegion) : (AddressSpace.latchFixed a s f).1.Sound := by
  cases f with
  | tracked start => exact h.modify start fun _ _ _ => ⟨rfl, rfl, rfl⟩
  | released r => exact h

theorem Sound.latchStack (h : s.Sound) (a : Access) : (AddressSpace.latchStack a s).Sound := by
  unfold AddressSpace.latchStack
  split
  · exact (h.latchFixed a _).of_regions rfl
  · exact h

theorem Sound.latchBlob (h : s.Sound) (a : Access) : (AddressSpace.latchBlob a s).Sound := by
  unfold AddressSpace.latchBlob
  split
  · exact (h.latchFixed a _).of_regions rfl
  · exact h

theorem requestPermission_leads (h : s.Sound) (address : Word) (a : Access) :
    (requestPermission address a).Leads s (fun _ s' => s'.Sound) fun _ s' => s' = s := by
  unfold requestPermission
  refine .bind (.read (.branch (fun _ => .put (h.latchStack a)) fun _ => ?_))
  refine .branch (fun _ => .put (h.latchBlob a)) fun _ => ?_
  cases s.regionAt? address with
  | none => exact .raise rfl
  | some r =>
    exact .branch (fun _ => .put (h.modify r.start fun _ _ _ => ⟨rfl, rfl, rfl⟩)) fun _ => .raise rfl

/-- What holds of an empty address space, and still does when the stack and the data region have joined, holds of one
that is built. -/
theorem build_induction {I : AddressSpace → Prop} {name : String} {kind : IndexKind} {stack blob : Option Region}
    (hempty : I (empty name kind))
    (hadd : ∀ s r, stack = some r ∨ blob = some r → I s → (addRegion r).Leads s (fun _ => I) fun _ _ => True)
    (hfixed : ∀ s stack blob, I s → I { s with stack := stack, blob := blob }) (h : build name kind stack blob = .ok s) :
    I s := by
  have hjoins : ∀ {s : AddressSpace} (r : Region), stack = some r ∨ blob = some r → I s →
      (do
        let added ← addRegion r
        return some (FixedRegion.tracked added.start) : Stateful AddressSpace (Option FixedRegion)).Leads s
          (fun _ s' => I s') fun _ _ => True :=
    fun r hr hs => .bind ((hadd _ r hr hs).mono (fun _ _ hs' => .answer hs') fun _ _ _ => trivial)
  unfold build at h
  dsimp only at h
  split at h
  · rename_i first found built hrun
    cases h
    refine hfixed _ _ _ (Stateful.Leads.ok (Q := fun _ s' => I s') (E := fun _ _ => True) ?_ hrun)
    refine .bind (Stateful.Leads.mono (Q := fun _ s' => I s') ?_ (fun _ s₁ hs₁ => .bind ?_) fun _ _ he => he)
    · cases stack with
      | none => exact .answer hempty
      | some r => exact hjoins r (.inl rfl) hempty
    · cases blob with
      | none => exact .answer (.answer hs₁)
      | some r => exact (hjoins r (.inr rfl) hs₁).mono (fun _ _ hs₂ => .answer hs₂) fun _ _ he => he
  · cases h

theorem sound_of_build {name : String} {kind : IndexKind} {stack blob : Option Region}
    (h : build name kind stack blob = .ok s) : s.Sound :=
  build_induction (sound_empty name kind)
    (fun _ r _ hs => (addRegion_leads hs r).mono (fun _ _ hs' => hs') fun _ _ _ => trivial)
    (fun _ _ _ hs => hs.of_regions rfl) h

end AddressSpace

end RegionGuard

import RegionGuard.Proofs.Leads
import RegionGuard.Proofs.Travels
set_option autoImplicit false

namespace RegionGuard

open Stateful

def FixedRegion.released? : FixedRegion → Option Region
  | .tracked _ => none
  | .released r => some r

namespace AddressSpace

/-- The fixed regions that no index tracks any more. -/
def released (s : AddressSpace) : List Region := (s.stack.toList ++ s.blob.toList).filterMap FixedRegion.released?

def Admitting (r : Region) (address : Word) (a : Access) : Prop :=
  r.containsAddress address = true ∧ r.protection.allows a = true

variable {s s' : AddressSpace} {address : Word} {a : Access} {r : Region} {f : FixedRegion}

theorem IsAnchored.released (h : s.IsAnchored) : s.released = [] := by
  refine List.filterMap_eq_nil_iff.mpr fun f hf => ?_
  have htracked : f.isTracked := by
    rcases List.mem_append.mp hf with hf | hf
    · exact h.1 f (Option.mem_toList.mp hf)
    · exact h.2 f (Option.mem_toList.mp hf)
  cases f with
  | tracked start => rfl
  | released r => cases htracked

theorem admits_eq_true {r? : Option Region} : admits address a r? = true ↔ ∃ r, r? = some r ∧ Admitting r address a := by
  unfold Admitting
  cases r? with
  | none => simp [admits]
  | some r => simp [admits]

theorem mem_of_resolve (h : s.Arranged) (f? : Option FixedRegion) (hf : f? = s.stack ∨ f? = s.blob) (hr : f?.bind s.resolve? = some r) :
    r ∈ s.released ∨ r ∈ s.regions.toList ∧ f? = some (.tracked r.start) := by
  obtain ⟨f, hsome, hresolve⟩ := Option.bind_eq_some_iff.mp hr
  cases f with
  | released q =>
    cases hresolve
    refine .inl (List.mem_filterMap.mpr ⟨.released r, ?_, rfl⟩)
    rcases hf with hf | hf
    · exact List.mem_append_left _ (Option.mem_toList.mpr (hf ▸ hsome))
    · exact List.mem_append_right _ (Option.mem_toList.mpr (hf ▸ hsome))
  | tracked start =>
    have hstart : r.start = start := by
      change s.regions.find? (.startingAt start) .byStart = some r at hresolve
      rw [h.ordered.find?_eq] at hresolve
      exact Region.start_of_agrees (List.find?_some hresolve :) rfl
    exact .inr ⟨RegionIndex.mem_of_find? hresolve, hstart ▸ hsome⟩

/-- An access is permitted exactly if a tracked region, or one that was cut loose, contains the address and allows it. -/
theorem permits_iff (h : s.Arranged) :
    s.permits address a = true ↔ ∃ r ∈ s.released ++ s.regions.toList, Admitting r address a := by
  unfold permits
  rw [Bool.or_eq_true, Bool.or_eq_true, admits_eq_true, admits_eq_true]
  constructor
  · have fixed : ∀ f? : Option FixedRegion, f? = s.stack ∨ f? = s.blob → (∃ r, f?.bind s.resolve? = some r ∧ Admitting r address a) →
        ∃ r ∈ s.released ++ s.regions.toList, Admitting r address a := by
      rintro f? hf ⟨r, hr, hadmitting⟩
      refine ⟨r, List.mem_append.mpr ?_, hadmitting⟩
      exact (mem_of_resolve h f? hf hr).imp_right And.left
    rintro ((hstack | hblob) | hfound)
    · exact fixed s.stack (.inl rfl) hstack
    · exact fixed s.blob (.inr rfl) hblob
    · cases hr : s.regionAt? address with
      | none =>
        rw [hr] at hfound
        cases hfound
      | some r =>
        rw [hr] at hfound
        obtain ⟨hmem, hcontains⟩ := RegionIndex.mem_of_containing? hr
        exact ⟨r, List.mem_append_right _ hmem, hcontains, hfound⟩
  · rintro ⟨r, hr, hadmitting⟩
    rcases List.mem_append.mp hr with hr | hr
    · obtain ⟨f, hf, hreleased⟩ := List.mem_filterMap.mp hr
      cases f with
      | tracked start => cases hreleased
      | released q =>
        cases hreleased
        rcases List.mem_append.mp hf with hf | hf
        · exact .inl (.inl ⟨r, by rw [stackRegion?, Option.mem_toList.mp hf]; rfl, hadmitting⟩)
        · exact .inl (.inr ⟨r, by rw [blobRegion?, Option.mem_toList.mp hf]; rfl, hadmitting⟩)
    · rw [h.regionAt?_eq hr hadmitting.1]
      exact .inr hadmitting.2

theorem latchStack_tracked {start : Word} (h : s.stack = some (.tracked start)) (a : Access) :
    latchStack a s = { s with regions := s.regions.modify start (·.latch a) } := by
  unfold latchStack
  rw [h]
  cases s
  cases h
  rfl

theorem latchBlob_tracked {start : Word} (h : s.blob = some (.tracked start)) (a : Access) :
    latchBlob a s = { s with regions := s.regions.modify start (·.latch a) } := by
  unfold latchBlob
  rw [h]
  cases s
  cases h
  rfl

/-- A permitted access is recorded of the one region that contains the address, unless a region that was cut loose
answers. -/
theorem requestPermission_latches (h : s.Arranged) (hreleased : ∀ r ∈ s.released, ¬ Admitting r address a)
    (hrun : (requestPermission address a).runFrom s = (.ok (), s')) :
    ∃ r ∈ s.regions.toList, Admitting r address a ∧ s' = { s with regions := s.regions.modify r.start (·.latch a) } := by
  unfold requestPermission at hrun
  rw [runFrom_get_bind] at hrun
  split at hrun
  · rename_i hstack
    obtain ⟨r, hr, hadmitting⟩ := admits_eq_true.mp hstack
    rcases mem_of_resolve h s.stack (.inl rfl) hr with hr | ⟨hmem, hf⟩
    · exact absurd hadmitting (hreleased r hr)
    · cases hrun
      exact ⟨r, hmem, hadmitting, latchStack_tracked hf a⟩
  · split at hrun
    · rename_i hblob
      obtain ⟨r, hr, hadmitting⟩ := admits_eq_true.mp hblob
      rcases mem_of_resolve h s.blob (.inr rfl) hr with hr | ⟨hmem, hf⟩
      · exact absurd hadmitting (hreleased r hr)
      · cases hrun
        exact ⟨r, hmem, hadmitting, latchBlob_tracked hf a⟩
    · cases hr : s.regionAt? address with
      | none =>
        rw [hr] at hrun
        cases hrun
      | some r =>
        rw [hr] at hrun
        obtain ⟨hmem, hcontains⟩ := RegionIndex.mem_of_containing? hr
        by_cases hallows : r.protection.allows a
        · simp only [hallows, if_true] at hrun
          cases hrun
          exact ⟨r, hmem, ⟨hcontains, hallows⟩, rfl⟩
        · simp only [hallows] at hrun
          cases hrun

theorem Arranged.latch_eq (h : s.Arranged) (hr : r ∈ s.regions.toList) (a : Access) :
    (s.regions.modify r.start (·.latch a)).toList = s.regions.toList.map fun q => if q = r then q.latch a else q := by
  rw [(h.ordered.modify_eq (f := (·.latch a)) fun _ _ hq => hq).2]
  refine List.map_congr_left fun q hq => ?_
  by_cases hstart : q.start = r.start
  · obtain rfl := h.ordered.rising.eq_of_start hq hr hstart
    rw [if_pos rfl, if_pos rfl]
  · rw [if_neg hstart, if_neg fun heq => hstart (congrArg _ heq)]

theorem Arranged.eq_of_contains (h : s.Arranged) {q : Region} (hr : r ∈ s.regions.toList)
    (hq : q ∈ s.regions.toList) (hcontains : r.containsAddress address = true)
    (hcontains' : q.containsAddress address = true) : q = r :=
  Option.some.inj ((h.regionAt?_eq hq hcontains').symm.trans (h.regionAt?_eq hr hcontains))

/-- A property that depends neither on the tracked regions nor on what was requested of the fixed ones. -/
structure IsSteady (I : AddressSpace → Prop) : Prop where
  regions : ∀ s index, I s → I { s with regions := index }
  latchStack : ∀ s a, I s → I (latchStack a s)
  latchBlob : ∀ s a, I s → I (latchBlob a s)

theorem isSteady_isAnchored : IsSteady IsAnchored where
  regions _ _ hs := hs
  latchStack _ a hs := isAnchored_latchStack hs a
  latchBlob _ a hs := isAnchored_latchBlob hs a

section

variable {I : AddressSpace → Prop} (hI : IsSteady I)

include hI

theorem addRegion_steady (r : Region) : Maintains I (addRegion r) := by
  refine .bind (.lift _) fun _ => .bind (.ask _) fun _ => .bind (.change fun s s' hs hs' => ?_) fun _ => .answer _
  obtain ⟨x, -, hx⟩ := bind_eq_ok.mp hs'
  cases hx
  exact hI.regions _ _ hs

theorem removeRegion_steady (query : Region) (m : MatchMask) : Maintains I (removeRegion query m) :=
  .bind (.ask _) fun _ => .inspect fun _ hs => .refuse fun _ => .bind (.present _ _) fun _ =>
    .bind (.put (hI.regions _ _ hs)) fun _ => .answer _

theorem protectRegion_steady (query : Region) (p : Protection) : Maintains I (protectRegion query p) :=
  .bind (.ask _) fun _ => .branch (fun _ => .update fun _ hs => hI.regions _ _ hs) fun _ => .bind (.stop _) fun _ =>
    .update fun _ hs => hI.regions _ _ hs

theorem pin_steady (address : Word) : Maintains I (pin address) :=
  .inspect fun _ hs => .bind (.present _ _) fun _ => .bind (.put (hI.regions _ _ hs)) fun _ => .answer _

theorem requestPermission_steady (address : Word) (a : Access) : Maintains I (requestPermission address a) := by
  refine .inspect fun s hs => .branch (fun _ => .put (hI.latchStack s a hs)) fun _ =>
    .branch (fun _ => .put (hI.latchBlob s a hs)) fun _ => ?_
  cases s.regionAt? address with
  | none => exact .raise _
  | some r => exact .branch (fun _ => .put (hI.regions _ _ hs)) fun _ => .raise _

end

end AddressSpace

namespace Tracker

variable {ρ : Type} {t t' : Tracker ρ}

def Anchored (t : Tracker ρ) : Prop := t.space.IsAnchored

section

variable {I : AddressSpace → Prop}

theorem onSpace_steady {α : Type} {x : Stateful AddressSpace α} (hx : Maintains I x) :
    Maintains (fun t => I t.space) (onSpace x : Stateful (Tracker ρ) α) := .zoom hx (fun _ h => h) fun _ _ _ h => h

theorem onRelocation_steady {α : Type} (x : Stateful ρ α) : Maintains (fun t => I t.space) (onRelocation x) :=
  .zoom (J := fun _ => True) (fun _ _ => trivial) (fun _ _ => trivial) fun _ _ h _ => h

theorem allocate_steady (f : Heap → Option (Word × Heap)) (shortage : MemoryShortage) :
    Maintains (fun t : Tracker ρ => I t.space) (allocate f shortage) :=
  .inspect fun _ h => .bind (.present _ _) fun _ => .bind (.put h) fun _ => .answer _

variable [Relocator ρ] (hI : AddressSpace.IsSteady I)

include hI

theorem moveRegion_steady (old new : Region) : Maintains (fun t : Tracker ρ => I t.space) (moveRegion old new) := by
  unfold moveRegion
  refine .bind (.each fun r _ => .require fun _ => .answer _) fun _ => .inspect fun t ht => .bind (.lift _) fun r => ?_
  refine .refuse fun _ => .refuse fun _ => .bind (.update fun _ h => hI.regions _ _ h) fun _ => ?_
  refine .bind (.onError (.bind (onSpace_steady (.ask _)) fun _ => onRelocation_steady _) fun _ h => hI.regions _ _ h)
    fun _ => ?_
  refine .bind (onSpace_steady (.change fun s s' hs hs' => ?_)) fun _ => .answer _
  obtain ⟨x, -, hx⟩ := bind_eq_ok.mp hs'
  cases hx
  exact hI.regions _ _ hs

theorem moveToBlock_steady (old : Region) (destination : Word) :
    Maintains (fun t : Tracker ρ => I t.space) (moveToBlock old destination) :=
  .bind (.onError (moveRegion_steady hI _ _) fun _ h => h) fun _ => .update fun _ h => h

theorem evictNeighbors_steady (start newStop : Word) (byForce : Bool) (rounds : Nat) :
    Maintains (fun t : Tracker ρ => I t.space) (evictNeighbors start newStop byForce rounds) :=
  .of_leads fun _ ht => (evictNeighbors_rounds (I := fun _ t => I t.space) (E := fun _ t => I t.space) (fun _ ht' => ht')
    (fun _ _ _ ht' => ht') (fun _ _ neighbor place _ ht' _ _ => (moveToBlock_steady hI neighbor place).leads ht') ht).mono
    (fun _ _ ht' => ht'.1.elim fun _ hsteady => hsteady) fun _ _ ht' => ht'

theorem resizeRegion_steady (query : Region) (newSize : Word) (byForce : Bool) :
    Maintains (fun t : Tracker ρ => I t.space) (resizeRegion query newSize byForce) := by
  unfold resizeRegion
  refine .inspect fun t _ => .bind (.lift _) fun r => .branch (fun _ => .answer _) fun _ => .refuse fun _ =>
    .refuse fun _ => .branch (fun _ => ?_) fun _ => ?_
  · exact .bind (.update fun _ h => h) fun _ => .bind (.update fun _ h => hI.regions _ _ h) fun _ => .answer _
  · refine .bind (.present _ _) fun newStop => .inspect fun t _ => .bind (evictNeighbors_steady hI _ _ _ _) fun _ => ?_
    refine .bind (allocate_steady _ _) fun granted => .refuse fun _ => .inspect fun t _ => ?_
    exact .bind (.update fun _ h => hI.regions _ _ h) fun _ => .answer _

theorem defragmentRegion_steady (query : Region) (newSize : Word) :
    Maintains (fun t : Tracker ρ => I t.space) (defragmentRegion query newSize) :=
  .inspect fun _ _ => .bind (.lift _) fun _ => .refuse fun _ => .refuse fun _ =>
    .bind (allocate_steady _ _) fun _ => .bind (moveToBlock_steady hI _ _) fun _ => .answer _

/-- No request but for the end of an address space concerns more than the regions. -/
theorem perform_steady {q : SpaceRequest} (hq : q ≠ .destroy) : Maintains (fun t : Tracker ρ => I t.space) q.perform := by
  have finish : ∀ {α : Type} {x : Stateful (Tracker ρ) α}, Maintains (fun t => I t.space) x →
      Maintains (fun t => I t.space) (x >>= fun _ => pure ()) := fun hx => .bind hx fun _ => .answer _
  cases q with
  | add r => exact finish (onSpace_steady (AddressSpace.addRegion_steady hI r))
  | remove query m => exact finish (onSpace_steady (AddressSpace.removeRegion_steady hI query m))
  | protect query p => exact onSpace_steady (AddressSpace.protectRegion_steady hI query p)
  | pin address => exact finish (onSpace_steady (AddressSpace.pin_steady hI address))
  | access address a => exact onSpace_steady (AddressSpace.requestPermission_steady hI address a)
  | move old new => exact finish (moveRegion_steady hI old new)
  | resize query newSize byForce => exact finish (resizeRegion_steady hI query newSize byForce)
  | defragment query newSize => exact finish (defragmentRegion_steady hI query newSize)
  | destroy => exact absurd rfl hq

end

section

variable [Relocator ρ]

theorem perform_anchored {q : SpaceRequest} (hq : q ≠ .destroy) : Maintains (Anchored (ρ := ρ)) q.perform :=
  perform_steady AddressSpace.isSteady_isAnchored hq

/-- The states of an address space that has not been destroyed. -/
inductive Standing : Tracker ρ → Prop
  | built {name : String} {kind : IndexKind} {stack blob : Option Region} {space : AddressSpace} {heap : Heap} :
      AddressSpace.build name kind stack blob = .ok space → heap.Reachable → ∀ x, Standing ⟨space, heap, x⟩
  | request {t : Tracker ρ} {q : SpaceRequest} : Standing t → q ≠ .destroy → Standing (q.perform.runFrom t).2
  | host {t : Tracker ρ} {heap : Heap} : Standing t → heap.Reachable → Standing { t with heap := heap }
  | memory {t : Tracker ρ} : Standing t → ∀ x, Standing { t with relocation := x }

theorem Standing.reachable {t : Tracker ρ} (h : t.Standing) : t.Reachable := by
  induction h with
  | built hbuild hheap x => exact .built hbuild hheap x
  | request _ _ ih => exact ih.request _
  | host _ hheap ih => exact ih.host hheap
  | memory _ x ih => exact ih.memory x

theorem Standing.anchored {t : Tracker ρ} (h : t.Standing) : t.Anchored := by
  induction h with
  | built hbuild hheap x => exact AddressSpace.isAnchored_of_build hbuild
  | request _ hq ih => exact perform_anchored hq _ ih
  | host _ hheap ih => exact ih
  | memory _ x ih => exact ih

/-- A request is answered from the tracked regions, and from fixed regions that were cut loose: only the end of an
address space does that. An access that only tracked regions allow is recorded of the one that contains the address,
and a refused one changes nothing. -/
theorem requests_answered_from_regions {t : Tracker ρ} (h : t.Reachable) (address : Word) (a : Access) :
    (t.Standing → t.space.released = []) ∧
      ((∃ t', (SpaceRequest.access address a).perform.runFrom t = (.ok (), t')) ↔
        ∃ r ∈ t.space.released ++ t.regions, AddressSpace.Admitting r address a) ∧
      (∀ t', (SpaceRequest.access address a).perform.runFrom t = (.ok (), t') →
        (∀ r ∈ t.space.released, ¬ AddressSpace.Admitting r address a) →
        ∃ r ∈ t.regions, AddressSpace.Admitting r address a ∧
          (∀ q ∈ t.regions, q.containsAddress address = true → q = r) ∧
          t' = { t with space := { t.space with regions := t'.space.regions } } ∧
          t'.regions = t.regions.map fun q => if q = r then q.latch a else q) ∧
      ∀ e t', (SpaceRequest.access address a).perform.runFrom t = (.error e, t') →
        e = .error (.violation address a) ∧ t' = t := by
  have harranged := h.arranged
  have hrun : ∀ {o s'}, (AddressSpace.requestPermission address a).runFrom t.space = (o, s') →
      (SpaceRequest.access address a).perform.runFrom t = (o, { t with space := s' }) := by
    intro o s' hs'
    unfold SpaceRequest.perform onSpace
    rw [runFrom_zoom, hs']
  refine ⟨fun hstanding => hstanding.anchored.released, ?_, fun t' ht' hreleased => ?_, fun e t' ht' => ?_⟩
  · refine Iff.trans ?_ (AddressSpace.permits_iff harranged)
    by_cases hpermits : t.space.permits address a = true
    · obtain ⟨s', hs'⟩ := AddressSpace.requestPermission_of_permits hpermits
      exact iff_of_true ⟨_, hrun hs'⟩ hpermits
    · refine iff_of_false ?_ hpermits
      rintro ⟨t', ht'⟩
      rw [hrun (AddressSpace.requestPermission_of_not_permits (Bool.eq_false_iff.mpr hpermits))] at ht'
      cases ht'
  · cases hs : (AddressSpace.requestPermission address a).runFrom t.space with
    | mk o s' =>
      rw [hrun hs] at ht'
      cases ht'
      obtain ⟨r, hr, hadmitting, hs'⟩ := AddressSpace.requestPermission_latches harranged hreleased hs
      refine ⟨r, hr, hadmitting, fun q hq hcontains => harranged.eq_of_contains hr hq hadmitting.1 hcontains, ?_, ?_⟩
      · rw [hs']
      · rw [hs']
        exact harranged.latch_eq hr a
  · by_cases hpermits : t.space.permits address a = true
    · obtain ⟨s', hs'⟩ := AddressSpace.requestPermission_of_permits hpermits
      rw [hrun hs'] at ht'
      cases ht'
    · rw [hrun (AddressSpace.requestPermission_of_not_permits (Bool.eq_false_iff.mpr hpermits))] at ht'
      cases ht'
      exact ⟨rfl, rfl⟩

end

def stacked : Tracker Ledger :=
  ⟨⟨"kernel", .keyed, .keyed (Table.insert ∅ 0x8000 (.make 0x8000 0x1000 .readWrite)), [], AddressSpace.noThread,
    some (.tracked 0x8000), none⟩, .make 0x100000 0x10000, .empty⟩

theorem stacked_standing : stacked.Standing := by
  have hbuild : AddressSpace.build "kernel" .keyed (some (.make 0x8000 0x1000 .readWrite)) none = .ok stacked.space := rfl
  exact .built hbuild (.make _ _) _

theorem requests_answered_from_stack :
    stacked.Standing ∧ stacked.space.released = [] ∧
      ∃ t', (SpaceRequest.access 0x8FFF .write).perform.runFrom stacked = (.ok (), t') ∧
        t'.regions = [⟨0x8000, 0x8000, 0x1000, .readWrite, .write⟩] := by
  obtain ⟨hreleased, hiff, hlatch, -⟩ := requests_answered_from_regions stacked_standing.reachable 0x8FFF .write
  have hreleased := hreleased stacked_standing
  obtain ⟨t', ht'⟩ := hiff.mpr ⟨.make 0x8000 0x1000 .readWrite, by decide, by decide, by decide⟩
  obtain ⟨r, hr, -, -, -, hregions⟩ := hlatch t' ht' (by rw [hreleased]; exact fun _ hq => nomatch hq)
  refine ⟨stacked_standing, hreleased, t', ht', ?_⟩
  rw [hregions]
  obtain rfl : r = .make 0x8000 0x1000 .readWrite := List.mem_singleton.mp hr
  decide

/-- A destroyed address space tracks nothing, and still grants accesses to what was its stack. -/
theorem destroyed_stack_answers :
    ∃ t : Tracker Ledger, t.Reachable ∧ t.regions = [] ∧
      ∃ t', (SpaceRequest.access 0x8010 .write).perform.runFrom t = (.ok (), t') :=
  ⟨stacked.after [.destroy], stacked_standing.reachable.after _, rfl, _, rfl⟩

end Tracker

end RegionGuard

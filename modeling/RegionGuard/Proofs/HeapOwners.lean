import RegionGuard.Proofs.HousedRegions
set_option autoImplicit false

namespace RegionGuard

open Stateful

/-- What the owner of a heap asks for. -/
inductive HostRequest where
  | add (size : Word) (nonempty : size ≠ 0) (p : Protection)
  /-- Stop tracking a region, and give its block back. -/
  | remove (query : Region) (m : MatchMask)
  | resize (query : Region) (newSize : Word) (byForce : Bool)
  | defragment (query : Region) (newSize : Word)
  | protect (query : Region) (p : Protection)
  | pin (address : Word)
  | access (address : Word) (a : Access)
deriving DecidableEq, Repr

namespace HostRequest

variable {ρ : Type} [Relocator ρ]

/-- Carries out a request, without its answer. -/
def perform : HostRequest → Stateful (Tracker ρ) Unit
  | add size _ p => do
    let place ← Tracker.allocate (·.alloc? size) (.block size)
    (SpaceRequest.add (.make place size p)).perform
  | remove query m => do
    let r ← Tracker.onSpace (AddressSpace.removeRegion query m)
    modify (Tracker.free r.start)
  | resize query newSize byForce => (SpaceRequest.resize query newSize byForce).perform
  | defragment query newSize => (SpaceRequest.defragment query newSize).perform
  | protect query p => (SpaceRequest.protect query p).perform
  | pin address => (SpaceRequest.pin address).perform
  | access address a => (SpaceRequest.access address a).perform

end HostRequest

namespace Tracker

section Requests

variable {ρ : Type} [Relocator ρ] {t t' : Tracker ρ}

/-- A request leaves all regions in their blocks, and stops only where the relocator does or a permission that was relied
on is taken back. -/
theorem perform_houses (h : t.Housed) (q : HostRequest) :
    q.perform.Leads t (fun _ t' => t'.Housed) fun f t' => Spares f t' ∨ (∃ query p, q = .protect query p) ∧ t'.Housed := by
  have finish : ∀ {α : Type} {x : Stateful (Tracker ρ) α}, x.Leads t (fun _ t' => t'.Housed) Spares →
      (x >>= fun _ => pure ()).Leads t (fun _ t' => t'.Housed)
        fun f t' => Spares f t' ∨ (∃ query p, q = .protect query p) ∧ t'.Housed := fun hx =>
    .bind (hx.mono (fun _ _ ht' => .answer ht') fun _ _ ht' => .inl ht')
  cases q with
  | add size hsize p =>
    refine .bind (allocate_leads (fun place heap halloc => .bind ?_) fun _ => .inl h)
    exact (addRegion_houses h hsize halloc p).mono (fun _ _ ht' => .answer ht') fun _ _ ht' => .inl ht'
  | remove query m =>
    exact .bind ((removeRegion_houses h query m).mono (fun _ _ ht' => .update ht') fun _ _ ht' => .inl ht')
  | resize query newSize byForce => exact finish (resizeRegion_houses h query newSize byForce)
  | defragment query newSize => exact finish (defragmentRegion_houses h query newSize)
  | protect query p =>
    change (onSpace (AddressSpace.protectRegion query p)).Leads t _ _
    refine .zoom ((AddressSpace.protectRegion_stays h.arranged query p).mono (fun _ _ hs => h.stays hs) fun _ s hs => ?_)
    obtain rfl : s = t.space := hs
    exact .inr ⟨⟨query, p, rfl⟩, h⟩
  | pin address =>
    exact finish (onSpace_houses h ((AddressSpace.pin_stays h.arranged address).and (AddressSpace.pin_raises t.space address)))
  | access address a =>
    exact (onSpace_houses h ((AddressSpace.requestPermission_stays h.arranged address a).and
      (AddressSpace.requestPermission_raises t.space address a))).mono (fun _ _ ht' => ht') fun _ _ ht' => .inl ht'

/-- The states of an address space over the heap that its regions live in. Nothing is in the heap at first, and its
arena shares no byte with the stack and the blob. Requests may fail, as long as they do not stop for good, and the state of
the relocator may change meanwhile. -/
inductive Hosted : Tracker ρ → Prop
  | built {name : String} {kind : IndexKind} {stack blob : Option Region} {space : AddressSpace} {heap : Heap} :
      AddressSpace.build name kind stack blob = .ok space → heap.blocks = ∅ →
      (∀ r, stack = some r ∨ blob = some r → ∀ w, r.containsAddress w = true → heap.covers w = false) →
      ∀ x, Hosted ⟨space, heap, x⟩
  | request {t t' : Tracker ρ} {q : HostRequest} {o : Outcome Unit} : Hosted t → q.perform.runFrom t = (o, t') →
      (∀ e, o ≠ .error (.fatal e)) → Hosted t'
  | memory {t : Tracker ρ} : Hosted t → ∀ x, Hosted { t with relocation := x }

theorem Hosted.housed (h : t.Hosted) : t.Housed := by
  induction h with
  | built hbuild hempty hapart _ => exact AddressSpace.lodged_of_build hbuild hempty hapart
  | memory _ _ ih => exact ih
  | @request t t' q o _ hrun hgoes ih =>
    have hled := perform_houses ih q
    cases o with
    | ok u => exact hled.ok hrun
    | error f =>
      cases f with
      | error e => exact (hled.error hrun).elim id (·.2)
      | fatal e => exact absurd rfl (hgoes e)

/-- The regions in the arena of a heap are those that were given its blocks: they start where the blocks do, and none is
longer than its block. Requests stop for good only where the relocator does, or where a permission that was relied on is
taken back. -/
theorem regions_lie_in_blocks (h : t.Hosted) :
    (t.regions.filter fun r => t.heap.covers r.start).map (·.start) = t.heap.blocks.keys ∧
      (∀ r ∈ t.regions, t.heap.covers r.start = true → ∃ size, t.heap.blockSize? r.start = some size ∧ r.length ≤ size) ∧
      ∀ (q : HostRequest) (e : Fatal), (q.perform.runFrom t).1 = .error (.fatal e) →
        Relocator.CanStop ρ e ∨ ∃ query p, q = .protect query p := by
  have hhoused := h.housed
  have hhome : ∀ r ∈ t.regions, t.heap.covers r.start = true → ∃ size, t.heap.blockSize? r.start = some size ∧ r.length ≤ size :=
    fun r hr hcovers => hhoused.homes _ _ (AddressSpace.mem_extents.mpr ⟨r, hr, rfl, rfl⟩) (hhoused.free_of_covers hcovers)
  refine ⟨?_, hhome, fun q e hstops => ?_⟩
  · -- Both lists are in order, so it is enough that they have the same members.
    have hstarts : ((t.regions.filter fun r => t.heap.covers r.start).map (·.start)).Pairwise (· < ·) :=
      List.pairwise_map.mpr (hhoused.arranged.ordered.rising.filter _)
    have hkeys : t.heap.blocks.keys.Pairwise (· < ·) :=
      List.pairwise_map.mpr (t.heap.blocks.sorted.imp Std.compare_eq_lt.mp)
    have hperm : ((t.regions.filter fun r => t.heap.covers r.start).map (·.start)).Perm t.heap.blocks.keys := by
      refine (List.perm_ext_iff_of_nodup (hstarts.imp UInt64.ne_of_lt) t.heap.blocks.nodup_keys).mpr fun w => ?_
      rw [List.mem_map, Table.mem_keys_iff, Option.isSome_iff_exists]
      constructor
      · rintro ⟨r, hr, rfl⟩
        obtain ⟨hr, hcovers⟩ := List.mem_filter.mp hr
        obtain ⟨size, hsize, -⟩ := hhome r hr hcovers
        exact ⟨size, hsize⟩
      · rintro ⟨size, hsize⟩
        obtain ⟨n, hn⟩ := hhoused.tenant hsize
        obtain ⟨r, hr, rfl, -⟩ := AddressSpace.mem_extents.mp hn
        exact ⟨r, List.mem_filter.mpr ⟨hr, (hhoused.laid.room hsize).covers_place⟩, rfl⟩
    exact hperm.eq_of_pairwise
      (fun v w _ _ hvw hwv => absurd (UInt64.lt_trans hvw hwv) (UInt64.lt_irrefl v)) hstarts hkeys
  · have hled := perform_houses hhoused q
    cases hrun : q.perform.runFrom t with
    | mk o t' =>
      rw [hrun] at hstops
      cases hstops
      exact (hled.error hrun).imp id (·.1)

/-- The state after requests, one after the other, unless one of them stops for good. -/
def served? (t : Tracker ρ) : List HostRequest → Option (Tracker ρ)
  | [] => some t
  | q :: rest =>
    match q.perform.runFrom t with
    | (.error (.fatal _), _) => none
    | (_, t') => served? t' rest

theorem Hosted.served (h : t.Hosted) {requests : List HostRequest} (hserved : t.served? requests = some t') : t'.Hosted := by
  induction requests generalizing t with
  | nil => exact Option.some.inj hserved ▸ h
  | cons q rest ih =>
    unfold served? at hserved
    split at hserved
    · cases hserved
    · rename_i hgoes hrun
      exact ih (.request h hrun hgoes) hserved

end Requests

def furnished : Tracker Ledger :=
  ⟨{ AddressSpace.empty "kernel" .keyed with
      regions := .keyed ((∅ : Table Word Region).insert 0x1000 (.make 0x1000 0x100 .readWrite))
      stack := some (.tracked 0x1000) }, .make 0x100000 0x1000, .empty⟩

theorem furnished_hosted : furnished.Hosted := by
  have hbuild : AddressSpace.build "kernel" .keyed (some (.make 0x1000 0x100 .readWrite)) none = .ok furnished.space := rfl
  refine .built hbuild rfl ?_ _
  rintro r (hr | hr) w hw
  all_goals cases hr
  have hlt : w < 0x1100 := (of_decide_eq_true hw).2
  exact decide_eq_false fun hcovers => absurd (UInt64.lt_of_le_of_lt hcovers.1 hlt) (by decide)

/-- What is asked of the furnished address space: three regions side by side, of which the first grows over the others, the
second goes, and the third moves to where that one was. -/
def furnishing : List HostRequest :=
  [.add 0x10 (by decide) .readWrite, .add 0x10 (by decide) .readWrite, .add 0x10 (by decide) .readWrite,
    .resize (.startingAt 0x100000) 0x28 false, .resize (.startingAt 0x100000) 0x28 true,
    .remove (.startingAt 0x100030) .byStart, .defragment (.startingAt 0x100040) 0x10, .resize (.startingAt 0x100000) 8 false]

theorem regions_lie_in_blocks_furnished :
    ∃ t : Tracker Ledger, t.Hosted ∧ t.regions.map (fun r => (r.start, r.length)) = [(0x1000, 0x100), (0x100000, 8), (0x100030, 0x10)] ∧
      (t.regions.filter fun r => t.heap.covers r.start).map (·.start) = [0x100000, 0x100030] ∧
      ∃ size, t.heap.blockSize? 0x100000 = some size ∧ 8 ≤ size := by
  have hview : ((furnished.served? furnishing).map fun t =>
      (t.regions.map (fun r => (r.start, r.length)), t.heap.blocks.keys, t.heap.covers 0x100000)) =
      some ([(0x1000, 0x100), (0x100000, 8), (0x100030, 0x10)], [0x100000, 0x100030], true) := by decide +kernel
  obtain ⟨t, hserved, hview⟩ := Option.map_eq_some_iff.mp hview
  obtain ⟨hregions, hview⟩ := Prod.mk.inj hview
  obtain ⟨hkeys, hcovers⟩ := Prod.mk.inj hview
  have hhosted : t.Hosted := furnished_hosted.served hserved
  obtain ⟨r, hr, hextent⟩ := List.mem_map.mp (hregions ▸ List.mem_cons_of_mem _ List.mem_cons_self :
    ((0x100000, 8) : Word × Word) ∈ t.regions.map fun r => (r.start, r.length))
  obtain ⟨hstart, hlength⟩ := Prod.mk.inj hextent
  refine ⟨t, hhosted, hregions, (regions_lie_in_blocks hhosted).1.trans hkeys, ?_⟩
  have hhome := (regions_lie_in_blocks hhosted).2.1 r hr (hstart ▸ hcovers)
  rw [hstart, hlength] at hhome
  exact hhome

end Tracker

end RegionGuard

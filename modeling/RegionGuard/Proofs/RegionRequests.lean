import RegionGuard.Monitor
import RegionGuard.Proofs.Motions
import RegionGuard.Proofs.Outcomes
set_option autoImplicit false

namespace RegionGuard

open Stateful

namespace Heap

/-- The heaps that blocks can be taken from and given back to, from an empty one on. -/
inductive Reachable : Heap → Prop
  | make (base size : Word) : Reachable (make base size)
  | aligned {base size alignment : Word} {h : Heap} : makeAligned base size alignment = .ok h → Reachable h
  | alloc {h h' : Heap} {size low high place : Word} :
      Reachable h → h.allocWithin? size low high = some (place, h') → Reachable h'
  | resize {h h' : Heap} {address size granted : Word} :
      Reachable h → h.resize? address size = some (granted, h') → Reachable h'
  | free {h : Heap} : Reachable h → ∀ address, Reachable (h.free address)

theorem Reachable.laid {h : Heap} (hr : h.Reachable) : h.Laid := by
  induction hr with
  | make base size => exact laid_of_empty rfl
  | @aligned base size alignment h hmake =>
    unfold makeAligned at hmake
    dsimp only at hmake
    split at hmake
    · cases hmake
      exact laid_of_empty rfl
    · cases hmake
  | alloc _ halloc ih =>
    obtain ⟨granted, rfl, -, hroom, -⟩ := ih.granted halloc
    exact ih.insert hroom
  | resize _ hresize ih =>
    obtain ⟨rfl, -, hroom, -⟩ := ih.resized hresize
    exact ih.insert hroom
  | free _ address ih => exact ih.free address

theorem Reachable.sound {h : Heap} (hr : h.Reachable) : h.Sound := hr.laid.sound

end Heap

/-- What an address space can be asked to do. -/
inductive SpaceRequest where
  | add (r : Region)
  | remove (query : Region) (m : MatchMask)
  | protect (query : Region) (p : Protection)
  | pin (address : Word)
  | access (address : Word) (a : Access)
  | move (old new : Region)
  | resize (query : Region) (newSize : Word) (byForce : Bool)
  | defragment (query : Region) (newSize : Word)
  | destroy
deriving DecidableEq, Repr

namespace SpaceRequest

variable {ρ : Type} [Relocator ρ]

/-- Carries out a request, without its answer. -/
def perform : SpaceRequest → Stateful (Tracker ρ) Unit
  | add r => do let _ ← Tracker.onSpace (AddressSpace.addRegion r)
  | remove query m => do let _ ← Tracker.onSpace (AddressSpace.removeRegion query m)
  | protect query p => Tracker.onSpace (AddressSpace.protectRegion query p)
  | pin address => do let _ ← Tracker.onSpace (AddressSpace.pin address)
  | access address a => Tracker.onSpace (AddressSpace.requestPermission address a)
  | move old new => do let _ ← Tracker.moveRegion old new
  | resize query newSize byForce => do let _ ← Tracker.resizeRegion query newSize byForce
  | defragment query newSize => do let _ ← Tracker.defragmentRegion query newSize
  | destroy => modify fun t => { t with space := t.space.destroy }

end SpaceRequest

namespace Tracker

variable {ρ : Type} [Relocator ρ]

/-- The states of an address space over a heap: built, then changed by requests, failed ones included. The
heap and the relocator are shared with others, who change them as they like. -/
inductive Reachable : Tracker ρ → Prop
  | built {name : String} {kind : IndexKind} {stack blob : Option Region} {space : AddressSpace} {heap : Heap} :
      AddressSpace.build name kind stack blob = .ok space → heap.Reachable → ∀ x, Reachable ⟨space, heap, x⟩
  | request {t : Tracker ρ} : Reachable t → ∀ q : SpaceRequest, Reachable (q.perform.runFrom t).2
  | host {t : Tracker ρ} {heap : Heap} : Reachable t → heap.Reachable → Reachable { t with heap := heap }
  | memory {t : Tracker ρ} : Reachable t → ∀ x, Reachable { t with relocation := x }

omit [Relocator ρ] in
theorem onSpace_leads {t : Tracker ρ} (h : t.Sound) {α : Type} {x : Stateful AddressSpace α}
    (hx : x.Leads t.space (fun _ => AddressSpace.Sound) fun _ s => s = t.space) :
    (onSpace x).Leads t (fun _ t' => t'.Sound) (Spared t) :=
  .zoom (hx.mono (fun _ _ hs => ⟨hs, h.heap⟩) fun f _ hs => hs ▸ .refl h f)

def SparedBy (q : SpaceRequest) (t : Tracker ρ) (f : Failure) (t' : Tracker ρ) : Prop :=
  t'.Sound ∧ ∀ e, f = .error e →
    (∀ query newSize, q = .resize query newSize true → Shuffled t t' query.start) ∧
      ((∀ query newSize, q ≠ .resize query newSize true) → Kept t t')

omit [Relocator ρ] in
theorem Spared.by {t t' : Tracker ρ} {f : Failure} (h : Spared t f t') (q : SpaceRequest) : SparedBy q t f t' :=
  ⟨h.1, fun e he => ⟨fun query _ _ => (h.2 e he).shuffled query.start, fun _ => h.2 e he⟩⟩

theorem perform_leads (inside : Relocator.StaysInside ρ) {t : Tracker ρ} (h : t.Sound) (q : SpaceRequest) :
    q.perform.Leads t (fun _ t' => t'.Sound) (SparedBy q t) := by
  have finish : ∀ {α : Type} {x : Stateful (Tracker ρ) α}, x.Leads t (fun _ t' => t'.Sound) (Spared t) →
      (x >>= fun _ => pure ()).Leads t (fun _ t' => t'.Sound) (SparedBy q t) := fun hx =>
    .bind (hx.mono (fun _ _ ht' => .answer ht') fun _ _ ht' => ht'.by q)
  cases q with
  | add r => exact finish (onSpace_leads h (AddressSpace.addRegion_leads h.space r))
  | remove query m => exact finish (onSpace_leads h (AddressSpace.removeRegion_leads h.space query m))
  | protect query p =>
    exact (onSpace_leads h (AddressSpace.protectRegion_leads h.space query p)).mono (fun _ _ ht' => ht')
      fun _ _ ht' => ht'.by _
  | pin address => exact finish (onSpace_leads h (AddressSpace.pin_leads h.space address))
  | access address a =>
    exact (onSpace_leads h (AddressSpace.requestPermission_leads h.space address a)).mono (fun _ _ ht' => ht')
      fun _ _ ht' => ht'.by _
  | move old new => exact finish ((moveRegion_leads inside h old new).mono (fun _ _ ht' => ht'.1) fun _ _ ht' => ht')
  | defragment query newSize => exact finish (defragmentRegion_leads inside h query newSize)
  | destroy => exact .update ⟨AddressSpace.sound_destroy _, h.heap⟩
  | resize query newSize byForce =>
    refine .bind ((resizeRegion_leads inside h query newSize byForce).mono (fun _ _ ht' => .answer ht') ?_)
    refine fun f t' ht' => ⟨ht'.1, fun e he => ⟨fun _ _ hq => ?_, fun hq => (ht'.2 e he).2 ?_⟩⟩
    · cases hq
      exact (ht'.2 e he).1
    · exact Bool.eq_false_iff.mpr fun htrue => hq query newSize (htrue ▸ rfl)

theorem Reachable.sound (inside : Relocator.StaysInside ρ) {t : Tracker ρ} (h : t.Reachable) : t.Sound := by
  induction h with
  | built hbuild hheap x => exact ⟨AddressSpace.sound_of_build hbuild, hheap.sound⟩
  | request _ q ih => exact ((perform_leads inside ih q).mono (fun _ _ ht' => ht') fun _ _ ht' => ht'.1).state
  | host _ hheap ih => exact ⟨ih.space, hheap.sound⟩
  | memory _ x ih => exact ⟨ih.space, ih.heap⟩

def after (t : Tracker ρ) (requests : List SpaceRequest) : Tracker ρ :=
  requests.foldl (fun t q => (q.perform.runFrom t).2) t

theorem Reachable.after {t : Tracker ρ} (h : t.Reachable) (requests : List SpaceRequest) :
    (t.after requests).Reachable := by
  induction requests generalizing t with
  | nil => exact h
  | cons q rest ih => exact ih (.request h q)

end Tracker

namespace Memory

theorem copy_inside {m m' : Memory} {source destination length : Word}
    (h : m.copy source destination length = .ok m') : destination.toNat + length.toNat < Word.modulus := by
  unfold copy at h
  dsimp only at h
  split at h
  · cases h
  · obtain ⟨bytes, hread, hwrite⟩ := bind_eq_ok.mp h
    obtain ⟨_, -, hbytes⟩ := bind_eq_ok.mp hread
    obtain ⟨_, hcheck, -⟩ := bind_eq_ok.mp hwrite
    cases hbytes
    unfold check at hcheck
    split at hcheck
    · cases hcheck
    · rename_i hinside
      rw [List.length_map, List.length_range] at hinside
      omega

end Memory

theorem Ledger.staysInside : Relocator.StaysInside Ledger := by
  intro source destination length l l' hrun
  change runFrom (Ledger.relocate source destination length) l = _ at hrun
  unfold Ledger.relocate at hrun
  obtain ⟨u, copied, hcopy, -⟩ := runFrom_bind_ok.mp hrun
  rw [runFrom_change] at hcopy
  cases hmemory : l.memory.copy source destination length with
  | ok m => exact Memory.copy_inside hmemory
  | error e =>
    rw [hmemory] at hcopy
    cases hcopy

namespace Tracker

def crowded : Tracker Ledger :=
  after ⟨.empty "kernel" .sorted, .make 0x100000 0x10000, .empty⟩
    [.add (.make 0x1000 0x10 .readWrite), .defragment (.startingAt 0x1000) 0x10,
      .add (.make 0x1000 0x10 .readWrite), .defragment (.startingAt 0x1000) 0x10,
      .add (.make 0x1000 0x10 .readWrite), .defragment (.startingAt 0x1000) 0x10, .pin 0x100020]

theorem crowded_reachable : crowded.Reachable := by
  have hbuild : AddressSpace.build "kernel" .sorted none none = .ok (.empty "kernel" .sorted) := rfl
  exact Reachable.after (.built hbuild (.make _ _) _) _

def crowdedGrowth : SpaceRequest := .resize (.startingAt 0x100000) 0x30 true

theorem forced_growth_leaves_trace :
    ∃ t : Tracker Ledger, t.Reachable ∧ ∃ (q : SpaceRequest) (e : Error) (t' : Tracker Ledger),
      q.perform.runFrom t = (.error (.error e), t') ∧ t'.regions ≠ t.regions := by
  refine ⟨crowded, crowded_reachable, crowdedGrowth, .regionPinned 0x100020, (crowdedGrowth.perform.runFrom crowded).2,
    Prod.ext ?_ rfl, ?_⟩
  · decide +kernel
  · decide +kernel

/-- A request that fails changes neither the tracked regions nor the blocks, unless it grows a region by force.
Forced growth that fails has at most moved regions behind the growing one; it loses none. -/
theorem failed_request_traces {ρ : Type} [Relocator ρ] (inside : Relocator.StaysInside ρ) {t t' : Tracker ρ} (h : t.Reachable)
    {q : SpaceRequest} {e : Error} (hrun : q.perform.runFrom t = (.error (.error e), t')) :
    ((∀ query newSize, q ≠ .resize query newSize true) → t'.regions = t.regions ∧ t'.heap = t.heap) ∧
      ∀ query newSize, q = .resize query newSize true →
        (t'.regions.map (·.at 0)).Perm (t.regions.map (·.at 0)) ∧
          ∀ r ∈ t.regions, r.start ≤ query.start → r ∈ t'.regions := by
  obtain ⟨hforced, hkept⟩ := ((perform_leads inside (h.sound inside) q).error hrun).2 e rfl
  exact ⟨fun hq => ⟨(hkept hq).regions, (hkept hq).heap⟩,
    fun query newSize hq => ⟨(hforced query newSize hq).shapes, (hforced query newSize hq).stayed⟩⟩

theorem failed_request_traces_crowded :
    crowded.Reachable ∧ (crowdedGrowth.perform.runFrom crowded).1 = .error (.error (.regionPinned 0x100020)) ∧
      ((crowdedGrowth.perform.runFrom crowded).2.regions.map (·.at 0)).Perm (crowded.regions.map (·.at 0)) ∧
        ∀ r ∈ crowded.regions, r.start ≤ 0x100000 → r ∈ (crowdedGrowth.perform.runFrom crowded).2.regions := by
  have hfails : (crowdedGrowth.perform.runFrom crowded).1 = .error (.error (.regionPinned 0x100020)) := by decide +kernel
  exact ⟨crowded_reachable, hfails,
    (failed_request_traces Ledger.staysInside crowded_reachable (Prod.ext hfails rfl)).2 (.startingAt 0x100000) 0x30 rfl⟩

/-- The regions that an address space tracks are identity mapped, are not empty, do not wrap around, lie apart
and are listed in the order of their starts. -/
theorem regions_wellFormed {t : Tracker Ledger} (h : t.Reachable) :
    t.regions.Pairwise (fun r s => r.start < s.start) ∧ t.regions.Pairwise Region.Apart ∧
      ∀ r ∈ t.regions, r.isIdentityMapped = true ∧ r.length ≠ 0 ∧
        r.start.toNat + r.length.toNat ≤ Word.maximum.toNat := by
  have hlaid := (h.sound Ledger.staysInside).space.laid
  refine ⟨hlaid.rising, hlaid.pairwise, fun r hr => ⟨(hlaid.lawful r hr).mapped, (hlaid.lawful r hr).nonempty, ?_⟩⟩
  exact Nat.le_of_lt_succ (hlaid.lawful r hr).fits

theorem regions_wellFormed_after_failed_growth :
    (crowded.after [crowdedGrowth]).Reachable ∧
      (crowded.after [crowdedGrowth]).regions =
        [.make 0x100000 0x10 .readWrite, .make 0x100020 0x10 (.readWrite ∪ .pin), .make 0x100030 0x10 .readWrite] ∧
      (crowded.after [crowdedGrowth]).regions.Pairwise (fun r s => r.start < s.start) ∧
      (crowded.after [crowdedGrowth]).regions.Pairwise Region.Apart ∧
      ∀ r ∈ (crowded.after [crowdedGrowth]).regions, r.isIdentityMapped = true ∧ r.length ≠ 0 ∧
        r.start.toNat + r.length.toNat ≤ Word.maximum.toNat :=
  ⟨crowded_reachable.after _, by decide +kernel, regions_wellFormed (crowded_reachable.after _)⟩

end Tracker

end RegionGuard

import RegionGuard.Proofs.Leads
import RegionGuard.Proofs.Travels
set_option autoImplicit false

namespace RegionGuard

open Stateful

namespace Table

variable {κ α : Type}

theorem filter_key_eq [DecidableEq κ] {l : List (κ × α)} (distinct : (l.map (·.1)).Nodup) (k : κ) :
    (l.filter fun e => e.1 == k) = ((l.lookup k).map fun v => (k, v)).toList := by
  induction l with
  | nil => rfl
  | cons e rest ih =>
    obtain ⟨hnot, hdistinct⟩ := List.nodup_cons.mp distinct
    rw [lookup_cons_if, List.filter_cons]
    by_cases hk : k = e.1
    · have hrest : (rest.filter fun d => d.1 == k) = [] := by
        refine List.filter_eq_nil_iff.mpr fun d hd hdk => hnot (List.mem_map.mpr ⟨d, hd, ?_⟩)
        exact (eq_of_beq hdk).trans hk
      rw [if_pos hk, if_pos (beq_iff_eq.mpr hk.symm), hrest, hk]
      rfl
    · rw [if_neg hk, if_neg (mt (fun h => (eq_of_beq h).symm) hk), ih hdistinct]

end Table

namespace Memory

theorem copy_from_inside {m m' : Memory} {source destination length : Word}
    (h : m.copy source destination length = .ok m') : source.toNat + length.toNat < Word.modulus := by
  unfold copy at h
  dsimp only at h
  split at h
  · cases h
  · obtain ⟨bytes, hread, -⟩ := bind_eq_ok.mp h
    obtain ⟨_, hcheck, -⟩ := bind_eq_ok.mp hread
    unfold check at hcheck
    split at hcheck
    · cases hcheck
    · omega

end Memory

namespace Ledger

theorem moveAllocations_eq {source length : Word} {t : Table Word Allocation}
    (hstarts : ∀ w a, t.get? w = some a → a.start = w) (hlength : source < Word.addSaturating source length)
    (alone : ∀ w a, t.get? w = some a → source ≤ w → w < Word.addSaturating source length → w = source)
    (destination : Word) :
    moveAllocations source destination length t =
      (t.get? source).elim t fun a => (t.erase source).insert destination { a with start := destination } := by
  have hinside : ∀ e ∈ t.entries, (decide (source ≤ e.1) && decide (e.1 < Word.addSaturating source length)) =
      (e.1 == source) := by
    intro e he
    rw [Bool.eq_iff_iff, Bool.and_eq_true, decide_eq_true_eq, decide_eq_true_eq, beq_iff_eq]
    constructor
    · exact fun h => alone e.1 e.2 ((t.get?_eq_some_iff e.1 e.2).mpr he) h.1 h.2
    · rintro h
      rw [h]
      exact ⟨UInt64.le_refl _, hlength⟩
  have hmoving : (t.filter fun w _ => decide (source ≤ w) && decide (w < Word.addSaturating source length)).values =
      (t.get? source).toList := by
    unfold Table.filter Table.values Table.get?
    dsimp only
    rw [List.filter_congr hinside, Table.filter_key_eq t.nodup_keys]
    cases t.entries.lookup source <;> rfl
  have hstaying : (t.filter fun w _ => !(decide (source ≤ w) && decide (w < Word.addSaturating source length))) =
      t.erase source := by
    exact Table.ext (List.filter_congr fun e he => congrArg (!·) (hinside e he))
  unfold moveAllocations
  dsimp only
  rw [hmoving, hstaying]
  cases ha : t.get? source with
  | none =>
    refine Table.ext (List.filter_eq_self.mpr fun e he => ?_)
    rw [Bool.not_eq_true', beq_eq_false_iff_ne]
    rintro rfl
    rw [(t.get?_eq_some_iff e.1 e.2).mpr he] at ha
    cases ha
  | some a =>
    have hplace : destination + (a.start - source) = destination := by
      rw [hstarts source a ha, UInt64.sub_self, UInt64.add_zero]
    change (t.erase source).insert (destination + (a.start - source)) _ = _
    rw [hplace]
    rfl

theorem redirect_maintains (source destination length cell : Word) {allocations : Table Word Allocation} :
    Maintains (fun l : Ledger => l.allocations = allocations) (redirect source destination length cell) := by
  refine .change fun l l' hl hl' => ?_
  obtain ⟨pointer, -, hl'⟩ := bind_eq_ok.mp hl'
  split at hl'
  · obtain ⟨memory, -, hl'⟩ := bind_eq_ok.mp hl'
    cases hl'
    exact hl
  · cases hl'
    exact hl

/-- Allocations move when all bytes and pointers could be moved, and else stay. -/
theorem relocate_leads (l : Ledger) (source destination length : Word) :
    (relocate source destination length).Leads l
      (fun _ l' => source.toNat + length.toNat < Word.modulus ∧
        l'.allocations = moveAllocations source destination length l.allocations)
      fun _ l' => l'.allocations = l.allocations := by
  have hcells : ∀ cells : List Word,
      Maintains (fun l' : Ledger => l'.allocations = l.allocations) (cells.forM (redirect source destination length)) := by
    intro cells
    induction cells with
    | nil => exact .answer _
    | cons cell rest ih => exact .bind (redirect_maintains _ _ _ cell) fun _ => ih
  unfold relocate
  refine .bind (.change (fun l' hl' => ?_) fun _ _ => rfl)
  obtain ⟨memory, hcopy, hl'⟩ := bind_eq_ok.mp hl'
  cases hl'
  refine .bind (.read (.bind (((hcells _).leads ?_).mono (fun _ l' hl' => Leads.update ?_) fun _ _ hl' => hl')))
  · rfl
  · refine ⟨Memory.copy_from_inside hcopy, ?_⟩
    change moveAllocations source destination length l'.allocations = _
    rw [hl']

theorem allocations_of_moves {l l' : Ledger} {moves : List (Word × Word)} (h : Relocator.Moves l moves l')
    (hmoves : moves = []) : l'.allocations = l.allocations := by
  induction h with
  | none => rfl
  | done => exact absurd hmoves (List.append_ne_nil_of_right_ne_nil _ (List.cons_ne_nil _ _))
  | refused _ run ih => exact ((relocate_leads _ _ _ _).error run).trans (ih hmoves)

end Ledger

theorem AddressSpace.fixes_of_build {name : String} {kind : IndexKind} {stack blob : Option Region} {s : AddressSpace}
    (h : build name kind stack blob = .ok s) : s.Arranged ∧ ∀ w, s.fixes w = true ↔ ∃ n, (w, n) ∈ s.extents := by
  have hjoins : ∀ {s : AddressSpace} (r : Region), s.Arranged →
      (do
        let added ← addRegion r
        return some (FixedRegion.tracked added.start) : Stateful AddressSpace (Option FixedRegion)).Leads s
          (fun f s' => s'.Arranged ∧ ∀ w, (∃ n, (w, n) ∈ s'.extents) ↔
            (∃ n, (w, n) ∈ s.extents) ∨ (f.toList.any fun f => f.start == w) = true) fun _ _ => True := by
    intro s r hs
    refine .bind ((addRegion_joins hs r).mono (fun added s' hs' => .answer ?_) fun _ _ _ => trivial)
    obtain ⟨harranged, -, hmem, -, rfl⟩ := hs'
    refine ⟨harranged, fun w => ⟨?_, ?_⟩⟩
    · rintro ⟨n, hn⟩
      obtain ⟨q, hq, hextent⟩ := mem_extents.mp hn
      rcases (hmem q).mp hq with rfl | hq
      · exact .inr (List.any_eq_true.mpr ⟨_, List.mem_singleton_self _, beq_iff_eq.mpr hextent.1⟩)
      · exact .inl ⟨n, mem_extents.mpr ⟨q, hq, hextent⟩⟩
    · rintro (⟨n, hn⟩ | hw)
      · obtain ⟨q, hq, hextent⟩ := mem_extents.mp hn
        exact ⟨n, mem_extents.mpr ⟨q, (hmem q).mpr (.inr hq), hextent⟩⟩
      · obtain ⟨f, hf, hstart⟩ := List.any_eq_true.mp hw
        obtain rfl := List.mem_singleton.mp hf
        exact ⟨added.length, mem_extents.mpr ⟨added, (hmem added).mpr (.inl rfl), eq_of_beq hstart, rfl⟩⟩
  have hnil : (RegionIndex.empty kind).toList = [] := RegionIndex.toList_empty kind
  have hempty : (empty name kind).Arranged := arranged_of_nil (RegionIndex.ordered_empty kind) hnil
  have hnone : ∀ w n, (w, n) ∉ (empty name kind).extents := by
    intro w n hwn
    obtain ⟨q, hq, -⟩ := mem_extents.mp hwn
    change q ∈ (RegionIndex.empty kind).toList at hq
    rw [hnil] at hq
    cases hq
  unfold build at h
  dsimp only at h
  split at h
  · rename_i first found built hrun
    cases h
    suffices hled : built.Arranged ∧ ∀ w, (∃ n, (w, n) ∈ built.extents) ↔
        (first.toList.any fun f => f.start == w) = true ∨ (found.toList.any fun f => f.start == w) = true by
      refine ⟨hled.1.of_regions rfl, fun w => ?_⟩
      change ((first.toList ++ found.toList).any fun f => f.start == w) = true ↔ _
      rw [List.any_append, Bool.or_eq_true]
      exact (hled.2 w).symm
    refine Leads.ok (Q := fun (p : Option FixedRegion × Option FixedRegion) s' => s'.Arranged ∧
      ∀ w, (∃ n, (w, n) ∈ s'.extents) ↔
        (p.1.toList.any fun f => f.start == w) = true ∨ (p.2.toList.any fun f => f.start == w) = true)
      (E := fun _ _ => True) ?_ hrun
    refine .bind (Leads.mono (Q := fun f s' => s'.Arranged ∧ ∀ w, (∃ n, (w, n) ∈ s'.extents) ↔
      (f.toList.any fun f => f.start == w) = true) ?_ (fun f s₁ hs₁ => .bind ?_) fun _ _ he => he)
    · cases stack with
      | none => exact .answer ⟨hempty, fun w => iff_of_false (fun hn => hn.elim (hnone w)) Bool.false_ne_true⟩
      | some r =>
        refine (hjoins r hempty).mono (fun f s' hs' => ⟨hs'.1, fun w => (hs'.2 w).trans ?_⟩) fun _ _ he => he
        exact or_iff_right fun hn => hn.elim (hnone w)
    · cases blob with
      | none => exact .answer (.answer ⟨hs₁.1, fun w => (hs₁.2 w).trans (or_iff_left Bool.false_ne_true).symm⟩)
      | some r =>
        refine (hjoins r hs₁.1).mono (fun g s' hs' => .answer ⟨hs'.1, fun w => (hs'.2 w).trans ?_⟩) fun _ _ he => he
        rw [hs₁.2 w]
  · cases h

namespace Tracker

/-- The ledger has allocations for tracked regions that are neither the stack nor the blob, and a strict one has them
for all of these. -/
structure InStep (strict : Prop) (t : Tracker Ledger) : Prop where
  arranged : t.space.Arranged
  homes : ∀ w, t.space.fixes w = true → ∃ n, (w, n) ∈ t.space.extents
  backed : ∀ w a, t.relocation.allocations.get? w = some a →
    a.start = w ∧ (w, a.length) ∈ t.space.extents ∧ t.space.fixes w = false
  listed : strict → ∀ w n, (w, n) ∈ t.space.extents → t.space.fixes w = false →
    ∃ a, t.relocation.allocations.get? w = some a

variable {strict : Prop} {t t' : Tracker Ledger}

namespace InStep

theorem congr (h : InStep strict t) (hspace : t'.space = t.space)
    (hallocations : t'.relocation.allocations = t.relocation.allocations) : InStep strict t' where
  arranged := hspace ▸ h.arranged
  homes := hspace ▸ h.homes
  backed := by
    rw [hspace, hallocations]
    exact h.backed
  listed := by
    rw [hspace, hallocations]
    exact h.listed

theorem stays (h : InStep strict t) {s : AddressSpace} (hs : AddressSpace.Stays t.space s)
    (hspace : t'.space = s) (hallocations : t'.relocation.allocations = t.relocation.allocations) :
    InStep strict t' where
  arranged := hspace ▸ hs.arranged
  homes := by
    rw [hspace, hs.fixes, hs.extents]
    exact h.homes
  backed := by
    rw [hspace, hs.fixes, hs.extents, hallocations]
    exact h.backed
  listed := by
    rw [hspace, hs.fixes, hs.extents, hallocations]
    exact h.listed

theorem length_eq (h : InStep strict t) {r : Region} (hr : r ∈ t.regions) {a : Allocation}
    (ha : t.relocation.allocations.get? r.start = some a) : a.length = r.length := by
  obtain ⟨-, hextent, -⟩ := h.backed r.start a ha
  obtain ⟨q, hq, hstart, hlength⟩ := AddressSpace.mem_extents.mp hextent
  rw [← hlength, h.arranged.ordered.rising.eq_of_start hq hr hstart]

/-- The bytes of a region hold no allocation but its own. -/
theorem alone (h : InStep strict t) {r : Region} (hr : r ∈ t.regions) {w : Word} {a : Allocation}
    (ha : t.relocation.allocations.get? w = some a) (hle : r.start ≤ w) (hlt : w < Word.addSaturating r.start r.length) :
    w = r.start := by
  obtain ⟨-, hextent, -⟩ := h.backed w a ha
  obtain ⟨q, hq, rfl, -⟩ := AddressSpace.mem_extents.mp hextent
  by_contra hne
  have hbehind := (h.arranged.clear r hr).behind q hq (UInt64.lt_of_le_of_ne hle (Ne.symm hne))
  exact absurd (UInt64.lt_of_lt_of_le hlt hbehind) (UInt64.lt_irrefl _)

theorem departed (h : InStep strict t) {old new : Region} (ht' : Departed t old new t') : InStep strict t' := by
  obtain ⟨r, hr, -, hfree, hfresh, hrun, hmem⟩ := ht'.moved
  obtain ⟨hfits, hallocations⟩ := (Ledger.relocate_leads t.relocation r.start new.start r.length).ok hrun
  have hfixed : t.space.fixes r.start = false := (Bool.or_eq_false_iff.mp hfree).2
  have hpositive : r.start < Word.addSaturating r.start r.length := by
    have hpos := Word.toNat_pos (h.arranged.nonempty r hr)
    have hstop : r.stop.toNat = r.start.toNat + r.length.toNat := Region.stop_toNat hfits
    refine UInt64.lt_iff_toNat_lt.mpr ?_
    change r.start.toNat < r.stop.toNat
    omega
  rw [Ledger.moveAllocations_eq (fun w a ha => (h.backed w a ha).1) hpositive
    (fun w a ha hle hlt => h.alone hr ha hle hlt)] at hallocations
  have hnew : t.space.fixes new.start = false := by
    by_contra hfixes
    obtain ⟨n, hn⟩ := h.homes new.start (Bool.eq_true_of_not_eq_false hfixes)
    obtain ⟨q, hq, hstart, -⟩ := AddressSpace.mem_extents.mp hn
    rw [← hstart, hfresh q hq hstart] at hfixes
    exact hfixes hfixed
  have hold : ∀ {w n}, (w, n) ∈ t.space.extents → w ≠ r.start → (w, n) ∈ t'.space.extents := by
    intro w n hwn hne
    obtain ⟨q, hq, rfl, rfl⟩ := AddressSpace.mem_extents.mp hwn
    exact AddressSpace.mem_extents.mpr ⟨q, (hmem q).mpr (.inr ⟨hq, hne⟩), rfl, rfl⟩
  have hmoved : (new.start, r.length) ∈ t'.space.extents :=
    AddressSpace.mem_extents.mpr ⟨_, (hmem _).mpr (.inl rfl), rfl, rfl⟩
  have hhomes : ∀ w, t'.space.fixes w = true → ∃ n, (w, n) ∈ t'.space.extents := by
    intro w hw
    rw [ht'.fixes] at hw
    obtain ⟨n, hn⟩ := h.homes w hw
    exact ⟨n, hold hn fun hwr => Bool.false_ne_true (hfixed.symm.trans (hwr ▸ hw))⟩
  cases hb : t.relocation.allocations.get? r.start with
  | none =>
    rw [hb] at hallocations
    change t'.relocation.allocations = t.relocation.allocations at hallocations
    refine ⟨ht'.arranged, hhomes, fun w a ha => ?_, fun hstrict w n hwn hw => ?_⟩
    · rw [hallocations] at ha
      obtain ⟨hstart, hextent, hw⟩ := h.backed w a ha
      refine ⟨hstart, hold hextent fun hwr => ?_, ht'.fixes ▸ hw⟩
      rw [hwr, hb] at ha
      cases ha
    · obtain ⟨a, ha⟩ := h.listed hstrict r.start r.length (AddressSpace.mem_extents.mpr ⟨r, hr, rfl, rfl⟩) hfixed
      cases hb.symm.trans ha
  | some b =>
    rw [hb] at hallocations
    change t'.relocation.allocations = Table.insert _ _ _ at hallocations
    have hget : ∀ w, t'.relocation.allocations.get? w =
        if w = new.start then some { b with start := new.start }
        else if w = r.start then none else t.relocation.allocations.get? w := fun w => by
      rw [hallocations, Table.get?_insert, Table.get?_erase]
    refine ⟨ht'.arranged, hhomes, fun w a ha => ?_, fun hstrict w n hwn hw => ?_⟩
    · rw [hget] at ha
      split at ha
      · rename_i hwn
        cases ha
        refine ⟨hwn.symm, ?_, ?_⟩
        · rw [hwn, h.length_eq hr hb]
          exact hmoved
        · rw [hwn, ht'.fixes]
          exact hnew
      · split at ha
        · cases ha
        · obtain ⟨hstart, hextent, hw⟩ := h.backed w a ha
          exact ⟨hstart, hold hextent ‹_›, ht'.fixes ▸ hw⟩
    · rw [hget]
      by_cases hwn' : w = new.start
      · exact ⟨_, if_pos hwn'⟩
      · obtain ⟨q, hq, hstart, -⟩ := AddressSpace.mem_extents.mp hwn
        rcases (hmem q).mp hq with rfl | ⟨hq, hne⟩
        · exact absurd hstart.symm hwn'
        · rw [if_neg hwn', if_neg (hstart ▸ hne)]
          rw [ht'.fixes] at hw
          exact h.listed hstrict w q.length (AddressSpace.mem_extents.mpr ⟨q, hq, hstart, rfl⟩) hw

/-- A move that fails without stopping leaves the ledger in step. -/
theorem stranded (h : InStep strict t) {old new : Region} {e : Error} (ht' : Stranded t old new (.error e) t') :
    InStep strict t' := by
  have hfits : Fits Ledger new := .inr Ledger.staysInside
  obtain ⟨hregions, hfixes⟩ := ht'.kept hfits e rfl
  have hstays : AddressSpace.Stays t.space t'.space := by
    unfold regions at hregions
    refine ⟨ht'.arranged, hregions ▸ .refl _, ?_, hfixes⟩
    unfold AddressSpace.extents
    rw [hregions]
  exact h.stays hstays rfl (Ledger.allocations_of_moves (ht'.unmoved hfits) rfl)

end InStep

def Recovers (strict : Prop) (f : Failure) (t : Tracker Ledger) : Prop := ∀ e, f = .error e → InStep strict t

theorem InStep.recovers (h : InStep strict t) (f : Failure) : Recovers strict f t := fun _ _ => h

theorem moveRegion_inStep (h : InStep strict t) (old new : Region) :
    (moveRegion old new).Leads t (fun _ => InStep strict) (Recovers strict) :=
  (moveRegion_travels h.arranged old new).mono (fun _ _ ht' => h.departed ht') fun f t' ht' e he => by
    subst he
    exact h.stranded ht'

theorem moveToBlock_inStep (h : InStep strict t) (old : Region) (destination : Word) :
    (moveToBlock old destination).Leads t (fun _ => InStep strict) (Recovers strict) := by
  unfold moveToBlock
  refine .bind (.onError ((moveRegion_inStep h old _).mono (fun _ t' ht' => .update (ht'.congr rfl rfl)) fun f t' ht' => ?_))
  cases f with
  | error e =>
    have hfreed : InStep strict (free destination t') := (ht' e rfl).congr rfl rfl
    exact hfreed.recovers _
  | fatal e => exact fun _ he => nomatch he

theorem defragmentRegion_inStep (h : InStep strict t) (query : Region) (newSize : Word) :
    (defragmentRegion query newSize).Leads t (fun _ => InStep strict) (Recovers strict) := by
  unfold defragmentRegion
  refine .bind (.read (.bind (.lift (fun r _ => ?_) fun _ _ => h.recovers _)))
  refine .refuse (fun _ => h.recovers _) fun _ => .refuse (fun _ => h.recovers _) fun _ => ?_
  refine .bind (allocate_leads (fun a heap _ => ?_) fun _ => h.recovers _)
  have htaken : InStep strict { t with heap := heap } := h.congr rfl rfl
  exact .bind ((moveToBlock_inStep htaken r a).mono (fun _ _ ht' => .answer ht') fun _ _ ht' => ht')

end Tracker

inductive MonitorCall where
  | malloc (start size : Word)
  | calloc (start size members : Word)
  | realloc (start size old : Word)
  | free (start : Word)
  | global (start size id : Word)
  | escape (cell : Word)
  | guard (address : Word) (isWrite : Bool)
  | guardStack (frameSize : Word)
  | pin (pointer : Word)
  | move (old new : Region)
  | defragment (query : Region) (newSize : Word)

namespace MonitorCall

/-- Carries out a call, without its answer. -/
def perform : MonitorCall → Stateful Monitor Unit
  | malloc start size => Monitor.notifyMalloc start size
  | calloc start size members => Monitor.notifyCalloc start size members
  | realloc start size old => Monitor.notifyRealloc start size old
  | free start => Monitor.notifyFree start
  | global start size id => Monitor.notifyGlobal start size id
  | escape cell => Monitor.notifyEscape cell
  | guard address isWrite => Monitor.guardAddress address isWrite
  | guardStack frameSize => Monitor.guardCalleeStack frameSize
  | pin pointer => Monitor.pinPointer pointer
  | move old new => do let _ ← Monitor.onTracker (Tracker.moveRegion old new)
  | defragment query newSize => do let _ ← Monitor.onTracker (Tracker.defragmentRegion query newSize)

def givenBack? : MonitorCall → Option Word
  | realloc _ _ old => some old
  | free start => some start
  | _ => none

end MonitorCall

namespace Monitor

open Tracker

variable {strict : Prop} {m : Monitor}

def SparesPinned (m : Monitor) (q : MonitorCall) : Prop :=
  ∀ w, q.givenBack? = some w → ∀ r ∈ m.tracker.regions, r.start = w → r.isPinned = false

def InStep (strict : Prop) (m : Monitor) : Prop := m.tracker.InStep strict

theorem onSpace_inStep (h : m.InStep strict) {α : Type} {x : Stateful AddressSpace α}
    (hx : x.Leads m.space (fun _ s => AddressSpace.Stays m.space s) fun _ s => s = m.space) :
    (onSpace x).Leads m (fun _ => InStep strict) fun _ => InStep strict := by
  unfold onSpace onTracker Tracker.onSpace
  refine .zoom (.zoom (hx.mono (fun _ s hs => InStep.stays h hs rfl rfl) fun _ s hs => ?_))
  rw [hs]
  exact h

theorem track_inStep (h : m.InStep strict) (start size : Word) (origin : Origin) :
    (track start size origin).Leads m (fun _ => InStep strict) fun _ => InStep strict := by
  unfold track
  refine .branch (fun _ => .answer h) fun _ => .bind ?_
  unfold onSpace onTracker Tracker.onSpace
  refine .zoom (.zoom ((AddressSpace.addRegion_joins h.arranged _).mono (fun _ s hs => .update ?_) fun _ s hs => ?_))
  · obtain ⟨harranged, hfresh, hmem, hfixes, -⟩ := hs
    have hget : ∀ w, (m.ledger.track start size origin).allocations.get? w =
        if w = start then some ⟨start, size, origin⟩ else m.ledger.allocations.get? w := fun w => Table.get?_insert _ _ _ _
    have hold : ∀ {w n}, (w, n) ∈ m.space.extents → (w, n) ∈ s.extents := by
      intro w n hwn
      obtain ⟨q, hq, hextent⟩ := AddressSpace.mem_extents.mp hwn
      exact AddressSpace.mem_extents.mpr ⟨q, (hmem q).mpr (.inr hq), hextent⟩
    refine ⟨harranged, fun w hw => ?_, fun w a ha => ?_, fun hstrict w n hwn hw => ?_⟩
    · obtain ⟨n, hn⟩ := h.homes w (hfixes ▸ hw)
      exact ⟨n, hold hn⟩
    · change (m.ledger.track start size origin).allocations.get? w = some a at ha
      rw [hget] at ha
      split at ha
      · rename_i hstart
        cases ha
        refine ⟨hstart.symm, AddressSpace.mem_extents.mpr ⟨_, (hmem _).mpr (.inl rfl), hstart.symm, rfl⟩, ?_⟩
        by_contra hfixed
        rw [Bool.not_eq_false] at hfixed
        obtain ⟨n, hn⟩ := h.homes w (hfixes ▸ hfixed)
        obtain ⟨q, hq, hqstart, -⟩ := AddressSpace.mem_extents.mp hn
        exact hfresh q hq (hqstart.trans hstart)
      · obtain ⟨hastart, hextent, hfixed⟩ := h.backed w a ha
        exact ⟨hastart, hold hextent, hfixes ▸ hfixed⟩
    · change ∃ a, (m.ledger.track start size origin).allocations.get? w = some a
      rw [hget]
      by_cases hstart : w = start
      · exact ⟨_, if_pos hstart⟩
      · rw [if_neg hstart]
        obtain ⟨q, hq, hqstart, hqlength⟩ := AddressSpace.mem_extents.mp hwn
        rcases (hmem q).mp hq with rfl | hq
        · exact absurd hqstart.symm hstart
        · exact h.listed hstrict w n (AddressSpace.mem_extents.mpr ⟨q, hq, hqstart, hqlength⟩) (hfixes ▸ hw)
  · rw [hs]
    exact h

theorem untrack_inStep (h : m.InStep strict) {start : Word}
    (unpinned : strict → ∀ r ∈ m.tracker.regions, r.start = start → r.isPinned = false) :
    (untrack start).Leads m (fun _ => InStep strict) fun _ => InStep strict := by
  unfold untrack
  refine .bind (.read ?_)
  cases ha : m.ledger.allocations.get? start with
  | none =>
    have hnone : m.ledger.untrack? start = none := by
      unfold Ledger.untrack?
      rw [ha]
      rfl
    rw [hnone]
    exact .answer h
  | some a =>
    obtain ⟨ledger, hledger, hallocations⟩ : ∃ ledger, m.ledger.untrack? start = some (a, ledger) ∧
        ledger.allocations = m.ledger.allocations.erase start := by
      unfold Ledger.untrack?
      rw [ha]
      exact ⟨_, rfl, rfl⟩
    rw [hledger]
    have hget : ∀ w, ledger.allocations.get? w = if w = start then none else m.ledger.allocations.get? w := fun w => by
      rw [hallocations, Table.get?_erase]
    obtain ⟨-, hextent, hfixed⟩ := h.backed start a ha
    obtain ⟨r, hr, hrstart, -⟩ := AddressSpace.mem_extents.mp hextent
    have hfound : m.space.regions.find? (Region.startingAt start) .byStart = some r :=
      h.arranged.ordered.find?_self hr hrstart.symm
    refine .bind (.update (.bind ?_))
    unfold onSpace onTracker Tracker.onSpace
    refine .zoom (.zoom ((AddressSpace.removeRegion_leaves h.arranged _ _).mono (fun _ s hs => .answer ?_) fun _ s hs => ?_))
    · obtain ⟨harranged, hfixes, q, -, hq, hmem⟩ := hs
      obtain rfl : r = q := Option.some.inj (hfound.symm.trans hq)
      have hold : ∀ {w n}, (w, n) ∈ m.space.extents → w ≠ start → (w, n) ∈ s.extents := by
        intro w n hwn hne
        obtain ⟨q, hq, rfl, hlength⟩ := AddressSpace.mem_extents.mp hwn
        exact AddressSpace.mem_extents.mpr ⟨q, (hmem q).mpr ⟨hq, hrstart ▸ hne⟩, rfl, hlength⟩
      refine ⟨harranged, fun w hw => ?_, fun w b hb => ?_, fun hstrict w n hwn hw => ?_⟩
      · obtain ⟨n, hn⟩ := h.homes w (hfixes ▸ hw)
        refine ⟨n, hold hn ?_⟩
        rintro rfl
        exact Bool.false_ne_true (hfixed.symm.trans (hfixes ▸ hw))
      · change ledger.allocations.get? w = some b at hb
        rw [hget] at hb
        split at hb
        · cases hb
        · obtain ⟨hbstart, hbextent, hbfixed⟩ := h.backed w b hb
          exact ⟨hbstart, hold hbextent ‹_›, hfixes ▸ hbfixed⟩
      · change ∃ b, ledger.allocations.get? w = some b
        obtain ⟨q, hq, hqstart, hqlength⟩ := AddressSpace.mem_extents.mp hwn
        obtain ⟨hq, hne⟩ := (hmem q).mp hq
        rw [hget, if_neg (hqstart ▸ hrstart ▸ hne)]
        exact h.listed hstrict w n (AddressSpace.mem_extents.mpr ⟨q, hq, hqstart, hqlength⟩) (hfixes ▸ hw)
    · -- The region stays because it is pinned, and its allocation is gone.
      obtain ⟨hs, hpinned⟩ := hs
      have hpinned : r.isPinned = true := by
        have hisFixed := hpinned r hfound
        rw [AddressSpace.isFixed_eq, Bool.or_eq_true, hrstart] at hisFixed
        exact hisFixed.resolve_right (hfixed ▸ Bool.false_ne_true)
      rw [hs]
      refine ⟨h.arranged, h.homes, fun w b hb => ?_, fun hstrict => ?_⟩
      · change ledger.allocations.get? w = some b at hb
        rw [hget] at hb
        split at hb
        · cases hb
        · exact h.backed w b hb
      · exact absurd hpinned (unpinned hstrict r hr hrstart ▸ Bool.false_ne_true)

theorem counting (h : m.InStep strict) {f : Counters → Counters} {x : Stateful Monitor Unit} {Q : Unit → Monitor → Prop}
    {E : Failure → Monitor → Prop} (hx : ∀ m', m'.tracker = m.tracker → m'.InStep strict → x.Leads m' Q E) :
    (count f >>= fun _ => x).Leads m Q E :=
  .bind (.update (hx _ rfl h))

theorem notifyMalloc_inStep (h : m.InStep strict) (start size : Word) :
    (notifyMalloc start size).Leads m (fun _ => InStep strict) fun _ => InStep strict :=
  counting h fun _ _ hm' => track_inStep hm' start size .heap

/-- Every call that does not stop leaves the ledger in step, a strict one as long as no pinned memory is given back. -/
theorem perform_inStep (h : m.InStep strict) {q : MonitorCall} (spares : strict → m.SparesPinned q) :
    q.perform.Leads m (fun _ => InStep strict) fun f m' => ∀ e, f = .error e → m'.InStep strict := by
  have settled : ∀ {x : Stateful Monitor Unit}, x.Leads m (fun _ => InStep strict) (fun _ => InStep strict) →
      x.Leads m (fun _ => InStep strict) fun f m' => ∀ e, f = .error e → m'.InStep strict := fun hx =>
    hx.mono (fun _ _ hm' => hm') fun _ _ hm' _ _ => hm'
  have moved : ∀ {α : Type} {x : Stateful (Tracker Ledger) α},
      x.Leads m.tracker (fun _ => Tracker.InStep strict) (Tracker.Recovers strict) →
      (onTracker x >>= fun _ => pure ()).Leads m (fun _ => InStep strict)
        fun f m' => ∀ e, f = .error e → m'.InStep strict := fun hx =>
    .bind (.zoom (hx.mono (fun _ _ ht => .answer ht) fun _ _ ht => ht))
  cases q with
  | malloc start size => exact settled (notifyMalloc_inStep h start size)
  | calloc start size members =>
    exact settled (.bind (.present (fun total _ => notifyMalloc_inStep h start total) fun _ => h))
  | realloc start size old =>
    have unpinned : strict → ∀ r ∈ m.tracker.regions, r.start = old → r.isPinned = false := fun hstrict =>
      spares hstrict old rfl
    refine settled (.branch (fun _ => .bind ?_) fun _ => notifyMalloc_inStep h start size)
    exact (untrack_inStep h unpinned).mono (fun _ m' hm' => notifyMalloc_inStep hm' start size) fun _ _ hm' => hm'
  | free start =>
    have unpinned : strict → ∀ r ∈ m.tracker.regions, r.start = start → r.isPinned = false := fun hstrict =>
      spares hstrict start rfl
    refine settled (.branch (fun _ => .answer h) fun _ => counting h fun m' hsame hm' => untrack_inStep hm' ?_)
    rw [hsame]
    exact unpinned
  | global start size id => exact settled (counting h fun _ _ hm' => track_inStep hm' start size _)
  | escape cell => exact settled (counting h fun _ _ hm' => .update (Tracker.InStep.congr hm' rfl rfl))
  | guard address isWrite =>
    refine settled (counting h fun m' hsame hm' => .onError ?_)
    refine (onSpace_inStep hm' (AddressSpace.requestPermission_stays hm'.arranged address _)).mono (fun _ _ hm'' => hm'')
      fun f m'' hm'' => ?_
    cases f with
    | error e => exact hm''
    | fatal e => exact hm''
  | guardStack frameSize =>
    have hkept : ∀ m' : Monitor, AddressSpace.Stays m.space m'.space ∧ m'.ledger = m.ledger → m'.InStep strict := fun m' hm' =>
      Tracker.InStep.stays h hm'.1 rfl (congrArg Ledger.allocations hm'.2)
    exact settled ((guardCalleeStack_stays m h.arranged frameSize).mono (fun _ => hkept) fun _ => hkept)
  | pin pointer =>
    exact settled (.bind ((onSpace_inStep h (AddressSpace.pin_stays h.arranged pointer)).mono
      (fun _ _ hm' => .answer hm') fun _ _ hm' => hm'))
  | move old new => exact moved (moveRegion_inStep h old new)
  | defragment query newSize => exact moved (defragmentRegion_inStep h query newSize)

/-- The states of a monitor over an address space, from a ledger without allocations on, through calls that fulfil a
condition and do not stop, whether they succeed or fail. Programs use the heap, the memory and the stack meanwhile. -/
inductive Serves (P : Monitor → MonitorCall → Prop) : Monitor → Prop
  | built {name : String} {kind : IndexKind} {stack blob : Option Region} {space : AddressSpace} (heap : Heap) :
      AddressSpace.build name kind stack blob = .ok space → Serves P (make space heap)
  | call {m m' : Monitor} {q : MonitorCall} {o : Outcome Unit} : Serves P m → P m q → q.perform.runFrom m = (o, m') →
      (∀ e, o ≠ .error (.fatal e)) → Serves P m'
  | host {m : Monitor} (heap : Heap) : Serves P m → Serves P (m.withHeap heap)
  | memory {m : Monitor} (memory : Memory) : Serves P m → Serves P (m.withMemory memory)
  | stack {m : Monitor} (stackPointer : Word) : Serves P m → Serves P { m with stackPointer := stackPointer }

theorem inStep_of_build {name : String} {kind : IndexKind} {stack blob : Option Region} {space : AddressSpace}
    (heap : Heap) (h : AddressSpace.build name kind stack blob = .ok space) : (make space heap).InStep True := by
  obtain ⟨harranged, hfixes⟩ := AddressSpace.fixes_of_build h
  refine ⟨harranged, fun w hw => (hfixes w).mp hw, fun w a ha => ?_, fun _ w n hwn hw => ?_⟩
  · cases ha
  · exact absurd ((hfixes w).mpr ⟨n, hwn⟩) (hw ▸ Bool.false_ne_true)

theorem Serves.inStep {P : Monitor → MonitorCall → Prop} (h : m.Serves P)
    (spares : strict → ∀ m q, P m q → m.SparesPinned q) : m.InStep strict := by
  induction h with
  | built heap hbuild =>
    have hstrict := inStep_of_build heap hbuild
    exact ⟨hstrict.arranged, hstrict.homes, hstrict.backed, fun _ => hstrict.listed trivial⟩
  | @call m m' q o _ hq hrun hgoes ih =>
    have hled := perform_inStep ih fun hstrict => spares hstrict m q hq
    cases o with
    | ok u => exact hled.ok hrun
    | error f =>
      cases f with
      | error e => exact hled.error hrun e rfl
      | fatal e => exact absurd rfl (hgoes e)
  | host heap _ ih => exact ih.congr rfl rfl
  | memory memory _ ih => exact ih.congr rfl rfl
  | stack stackPointer _ ih => exact ih.congr rfl rfl

/-- Every allocation of the ledger is a tracked region other than the stack and the blob. As long as no pinned memory
is given back, these are all such regions. -/
theorem ledger_in_step (m : Monitor) :
    (m.Serves (fun _ _ => True) → ∀ a ∈ m.ledger.allocations.values,
      (a.start, a.length) ∈ m.space.extents ∧ m.space.fixes a.start = false) ∧
      (m.Serves SparesPinned → ∀ w n, (∃ a ∈ m.ledger.allocations.values, a.start = w ∧ a.length = n) ↔
        (w, n) ∈ m.space.extents ∧ m.space.fixes w = false) := by
  have hvalue : ∀ {strict : Prop}, m.InStep strict → ∀ a ∈ m.ledger.allocations.values,
      (a.start, a.length) ∈ m.space.extents ∧ m.space.fixes a.start = false := by
    intro strict h a ha
    obtain ⟨w, hw⟩ := Table.mem_values_iff.mp ha
    obtain ⟨rfl, hextent, hfixed⟩ := h.backed w a hw
    exact ⟨hextent, hfixed⟩
  refine ⟨fun h => ?_, fun h w n => ?_⟩
  · have hloose : m.InStep False := h.inStep fun hfalse => hfalse.elim
    exact hvalue hloose
  have hstep : m.InStep True := h.inStep fun _ _ _ hq => hq
  constructor
  · rintro ⟨a, ha, rfl, rfl⟩
    exact hvalue hstep a ha
  · rintro ⟨hextent, hfixed⟩
    obtain ⟨a, ha⟩ := hstep.listed trivial w n hextent hfixed
    obtain ⟨hstart, -, -⟩ := hstep.backed w a ha
    obtain ⟨r, hr, rfl, rfl⟩ := AddressSpace.mem_extents.mp hextent
    exact ⟨a, Table.mem_values_of_get? ha, hstart, hstep.length_eq hr ha⟩

/-- A monitor over an address space that tracks nothing. -/
def idle : Monitor := make (.empty "kernel" .sorted) (.make 0x100000 0x10000)

theorem idle_serves (P : Monitor → MonitorCall → Prop) : idle.Serves P := by
  have hbuild : AddressSpace.build "kernel" .sorted none none = .ok (.empty "kernel" .sorted) := rfl
  exact .built _ hbuild

def told (m : Monitor) (calls : List MonitorCall) : Monitor := calls.foldl (fun m q => (q.perform.runFrom m).2) m

theorem Serves.told {P : Monitor → MonitorCall → Prop} (h : m.Serves P) {q : MonitorCall} (hq : P m q)
    (hgoes : (q.perform.runFrom m).1 = .ok ()) : (m.told [q]).Serves P :=
  h.call hq rfl fun _ he => nomatch hgoes.symm.trans he

/-- The idle monitor after two allocations, of which one is moved and the other is given back. -/
def busy : Monitor :=
  idle.told [.malloc 0x1000 0x10, .malloc 0x2000 0x10, .defragment (.startingAt 0x1000) 0x10, .free 0x2000]

theorem ledger_in_step_busy :
    busy.Serves SparesPinned ∧ busy.space.extents = [(0x100000, 0x10)] ∧
      ∃ a ∈ busy.ledger.allocations.values, a.start = 0x100000 ∧ a.length = 0x10 := by
  have hfirst := (idle_serves SparesPinned).told (q := .malloc 0x1000 0x10) nofun (by decide +kernel)
  have hsecond := hfirst.told (q := .malloc 0x2000 0x10) nofun (by decide +kernel)
  have hmoved := hsecond.told (q := .defragment (.startingAt 0x1000) 0x10) nofun (by decide +kernel)
  have hfreed : busy.Serves SparesPinned :=
    hmoved.told (q := .free 0x2000) (fun w hw => by cases hw; decide +kernel) (by decide +kernel)
  exact ⟨hfreed, by decide +kernel, ((ledger_in_step _).2 hfreed 0x100000 0x10).mpr (by decide +kernel)⟩

/-- Memory that is given back while its region is pinned leaves the ledger, and its region stays. -/
theorem pinned_region_without_allocation :
    ∃ m : Monitor, m.Serves (fun _ _ => True) ∧ (∃ w n, (w, n) ∈ m.space.extents ∧ m.space.fixes w = false) ∧
      m.ledger.allocations.values = [] := by
  have hfirst := (idle_serves fun _ _ => True).told (q := .malloc 0x1000 0x10) trivial (by decide +kernel)
  have hpinned := hfirst.told (q := .pin 0x1000) trivial (by decide +kernel)
  have hfails : ((MonitorCall.free 0x1000).perform.runFrom ((idle.told [.malloc 0x1000 0x10]).told [.pin 0x1000])).1 =
      .error (.error (.regionPinned 0x1000)) := by decide +kernel
  refine ⟨_, .call hpinned trivial (Prod.ext hfails rfl) nofun, ⟨0x1000, 0x10, ?_⟩, ?_⟩
  · decide +kernel
  · decide +kernel

end Monitor

end RegionGuard

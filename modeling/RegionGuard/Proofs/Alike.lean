import RegionGuard.Proofs.Latching
import RegionGuard.Proofs.Outcomes
import RegionGuard.Proofs.Sparing
set_option autoImplicit false

namespace RegionGuard

open Stateful

namespace AddressSpace

def IsAnchored (s : AddressSpace) : Prop :=
  (∀ f ∈ s.stack, f.isTracked) ∧ ∀ f ∈ s.blob, f.isTracked

/-- Address spaces that track the same regions, whatever was validated against them. -/
structure Alike (s t : AddressSpace) : Prop where
  same : s.forget = t.forget
  anchored : s.IsAnchored

theorem isAnchored_latchStack {s : AddressSpace} (h : s.IsAnchored) (a : Access) :
    (s.latchStack a).IsAnchored := by
  unfold latchStack
  cases hs : s.stack with
  | none => exact h
  | some f =>
    cases f with
    | tracked start => exact ⟨by simp [latchFixed, FixedRegion.isTracked], h.2⟩
    | released r =>
      have := h.1 _ hs
      cases this

theorem isAnchored_latchBlob {s : AddressSpace} (h : s.IsAnchored) (a : Access) :
    (s.latchBlob a).IsAnchored := by
  unfold latchBlob
  cases hs : s.blob with
  | none => exact h
  | some f =>
    cases f with
    | tracked start => exact ⟨h.1, by simp [latchFixed, FixedRegion.isTracked]⟩
    | released r =>
      have := h.2 _ hs
      cases this

theorem isAnchored_of_build {name : String} {kind : IndexKind} {stack blob : Option Region}
    {s : AddressSpace} (h : build name kind stack blob = .ok s) : s.IsAnchored := by
  unfold build at h
  simp only at h
  split at h
  · rename_i f g u hrun
    cases h
    obtain ⟨f', u₁, hf, hrun⟩ := runFrom_bind_ok.mp hrun
    obtain ⟨g', u₂, hg, hrun⟩ := runFrom_bind_ok.mp hrun
    cases hrun
    have hadd : ∀ (r : Region) (f : Option FixedRegion) (v w : AddressSpace),
        (do
          let added ← addRegion r
          return some (FixedRegion.tracked added.start) : Stateful AddressSpace (Option FixedRegion)).runFrom v =
            (.ok f, w) →
        ∀ x ∈ f, x.isTracked := by
      intro r f v w hr
      obtain ⟨added, v', -, hr⟩ := runFrom_bind_ok.mp hr
      cases hr
      intro x hx
      cases hx
      rfl
    refine ⟨fun x hx => ?_, fun x hx => ?_⟩
    · cases stack with
      | none =>
        cases hf
        cases hx
      | some r => exact hadd _ _ _ _ hf x hx
    · cases blob with
      | none =>
        cases hg
        cases hx
      | some r => exact hadd _ _ _ _ hg x hx
  · cases h

theorem latchStack_forget (a : Access) (s : AddressSpace) : (s.latchStack a).forget = s.forget := by
  unfold latchStack
  cases hs : s.stack with
  | none => rfl
  | some f =>
    have h := latchFixed_forget a s f
    simp only [forget, AddressSpace.mk.injEq] at h ⊢
    simp [h, hs]

theorem latchBlob_forget (a : Access) (s : AddressSpace) : (s.latchBlob a).forget = s.forget := by
  unfold latchBlob
  cases hs : s.blob with
  | none => rfl
  | some f =>
    have h := latchFixed_forget a s f
    simp only [forget, AddressSpace.mk.injEq] at h ⊢
    simp [h, hs]

theorem isAnchored_forget {s : AddressSpace} : s.forget.IsAnchored ↔ s.IsAnchored := by
  have tracked : ∀ f : FixedRegion, f.forget.isTracked = f.isTracked := by
    intro f
    cases f <;> rfl
  unfold IsAnchored forget
  cases s.stack <;> cases s.blob <;> simp [tracked]

theorem requestPermission_forget {s s' : AddressSpace} {address : Word} {a : Access}
    (h : (requestPermission address a).runFrom s = (.ok (), s')) : s'.forget = s.forget := by
  unfold requestPermission at h
  rw [runFrom_bind, runFrom_get] at h
  simp only at h
  split at h
  · rw [runFrom_set] at h
    cases h
    exact latchStack_forget a s
  · split at h
    · rw [runFrom_set] at h
      cases h
      exact latchBlob_forget a s
    · split at h
      · split at h
        · rw [runFrom_set] at h
          cases h
          simp only [forget, RegionIndex.modify_latch_forget]
        · cases h
      · cases h

namespace Alike

variable {s t : AddressSpace}

theorem symm (h : Alike s t) : Alike t s :=
  ⟨h.same.symm, isAnchored_forget.mp (h.same ▸ isAnchored_forget.mpr h.anchored)⟩

theorem trans {u : AddressSpace} (h : Alike s t) (h' : Alike t u) : Alike s u :=
  ⟨h.same.trans h'.same, h.anchored⟩

theorem regions (h : Alike s t) : s.regions.forget = t.regions.forget :=
  congrArg AddressSpace.regions h.same

theorem of_forget {s' t' : AddressSpace} (h : Alike s t) (hs : s'.forget = s.forget)
    (ht : t'.forget = t.forget) (anchored : s'.IsAnchored) : Alike s' t' :=
  ⟨hs.trans (h.same.trans ht.symm), anchored⟩

theorem withRegions (h : Alike s t) {x y : RegionIndex} (hxy : x.forget = y.forget) :
    Alike { s with regions := x } { t with regions := y } := by
  refine ⟨?_, h.anchored⟩
  have hs := h.same
  simp only [forget, AddressSpace.mk.injEq] at hs ⊢
  exact ⟨hs.1, hs.2.1, hxy, hs.2.2.2⟩

theorem checkRoom (h : Alike s t) (r : Region) : s.checkRoom r = t.checkRoom r := by
  rw [← checkRoom_forget s, ← checkRoom_forget t, h.same]

theorem findRegion (h : Alike s t) (query : Region) (m : MatchMask) :
    (s.findRegion query m).map Region.forget = (t.findRegion query m).map Region.forget := by
  rw [← findRegion_forget s, ← findRegion_forget t, h.same]

theorem stackRegion? (h : Alike s t) : s.stackRegion?.map Region.forget = t.stackRegion?.map Region.forget := by
  rw [← stackRegion?_forget s, ← stackRegion?_forget t, h.same]

theorem blobRegion? (h : Alike s t) : s.blobRegion?.map Region.forget = t.blobRegion?.map Region.forget := by
  rw [← blobRegion?_forget s, ← blobRegion?_forget t, h.same]

theorem regionAt? (h : Alike s t) (address : Word) :
    (s.regionAt? address).map Region.forget = (t.regionAt? address).map Region.forget := by
  rw [← regionAt?_forget s, ← regionAt?_forget t, h.same]

theorem isFixed (h : Alike s t) {r q : Region} (hr : r.forget = q.forget) : s.isFixed r = t.isFixed q := by
  rw [← isFixed_forget s, ← isFixed_forget t, h.same, hr]

end Alike

theorem addRegion_respects (r : Region) : Respects Alike (addRegion r) := by
  unfold addRegion
  refine (Respects.lift _).bind fun _ => (Respects.ask fun s t h => h.checkRoom r).bind fun _ =>
    Respects.bind (Respects.change ?_) fun _ => Respects.answer r
  intro s t h
  have hi : (s.regions.insert r).map RegionIndex.forget = (t.regions.insert r).map RegionIndex.forget := by
    rw [← RegionIndex.insert_forget, ← RegionIndex.insert_forget, h.regions]
  rcases outcomes_of_map_eq hi with ⟨e, hs, ht⟩ | ⟨x, y, hs, ht, hxy⟩
  · exact .inl ⟨e, by rw [hs]; rfl, by rw [ht]; rfl⟩
  · exact .inr ⟨_, _, by rw [hs]; rfl, by rw [ht]; rfl, h.withRegions hxy⟩

/-- The regions that two computations answer with differ in what was validated against them only. -/
abbrev AlikeRegions (a b : Region) (s t : AddressSpace) : Prop := a.forget = b.forget ∧ Alike s t

theorem removeRegion_respects (query : Region) (m : MatchMask) :
    Related Alike AlikeRegions (removeRegion query m) (removeRegion query m) := by
  unfold removeRegion
  intro s t h
  rw [runFrom_bind, runFrom_bind, runFrom_ask, runFrom_ask]
  rcases outcomes_of_map_eq (h.findRegion query m) with ⟨e, hs, ht⟩ | ⟨r, q, hs, ht, hrq⟩
  · rw [hs, ht]
    exact rfl
  · rw [hs, ht]
    have hstart : r.forget.start = q.forget.start := by rw [hrq]
    simp only [runFrom_bind, runFrom_get, h.isFixed hrq]
    split
    · rw [runFrom_bind, runFrom_bind, runFrom_raise, runFrom_raise]
      exact congrArg (fun start => Failure.error (.regionPinned start)) hstart
    · have hr : (s.regions.remove? r .byStart).map (fun e => (e.1.forget, e.2.forget)) =
          (t.regions.remove? q .byStart).map (fun e => (e.1.forget, e.2.forget)) := by
        rw [← RegionIndex.remove?_forget, ← RegionIndex.remove?_forget, h.regions]
        exact RegionIndex.remove?_byStart _ hstart
      rcases options_of_map_eq hr with ⟨hs, ht⟩ | ⟨x, y, hs, ht, hxy⟩
      · rw [hs, ht]
        exact rfl
      · rw [hs, ht]
        rw [Prod.mk.injEq] at hxy
        exact ⟨hxy.1, h.withRegions hxy.2⟩

theorem requestPermission_respects (address : Word) (a : Access) :
    Respects Alike (requestPermission address a) := by
  unfold requestPermission
  refine Respects.inspect fun s t h => ?_
  have hstack : admits address a s.stackRegion? = admits address a t.stackRegion? := by
    rw [← admits_forget, ← admits_forget address a t.stackRegion?, h.stackRegion?]
  have hblob : admits address a s.blobRegion? = admits address a t.blobRegion? := by
    rw [← admits_forget, ← admits_forget address a t.blobRegion?, h.blobRegion?]
  rw [hstack, hblob]
  split
  · exact ⟨rfl, h.of_forget (latchStack_forget a s) (latchStack_forget a t)
      (isAnchored_latchStack h.anchored a)⟩
  · split
    · exact ⟨rfl, h.of_forget (latchBlob_forget a s) (latchBlob_forget a t)
        (isAnchored_latchBlob h.anchored a)⟩
    · rcases options_of_map_eq (h.regionAt? address) with ⟨hs, ht⟩ | ⟨r, q, hs, ht, hrq⟩
      · rw [hs, ht]
        exact rfl
      · have hp : r.forget.protection = q.forget.protection := by rw [hrq]
        rw [hs, ht]
        simp only [Region.forget_protection] at hp ⊢
        rw [hp]
        split
        · refine ⟨trivial, h.withRegions ?_⟩
          rw [RegionIndex.modify_latch_forget, RegionIndex.modify_latch_forget, h.regions]
        · exact rfl

theorem latchStack_respects (a : Access) : Respects Alike (modify (latchStack a)) :=
  Respects.update fun s t h => h.of_forget (latchStack_forget a s) (latchStack_forget a t)
    (isAnchored_latchStack h.anchored a)

theorem pin_respects (address : Word) : Related Alike AlikeRegions (pin address) (pin address) := by
  unfold pin
  intro s t h
  simp only [runFrom_bind, runFrom_get]
  rcases options_of_map_eq (h.regionAt? address) with ⟨hs, ht⟩ | ⟨r, q, hs, ht, hrq⟩
  · rw [hs, ht]
    exact rfl
  · rw [hs, ht]
    have hstart : r.forget.start = q.forget.start := by rw [hrq]
    have hpinned : Region.forget { r with protection := r.protection ∪ .pin } =
        Region.forget { q with protection := q.protection ∪ .pin } := by
      simp only [Region.forget, Region.mk.injEq] at hrq ⊢
      simp [hrq]
    refine ⟨hpinned, h.withRegions ?_⟩
    simp only [Region.forget_start] at hstart
    rw [RegionIndex.modify_forget (g := fun _ => Region.forget { q with protection := q.protection ∪ .pin })
        _ _ fun _ => hpinned,
      RegionIndex.modify_forget (g := fun _ => Region.forget { q with protection := q.protection ∪ .pin })
        _ _ fun _ => rfl, h.regions, hstart]

end AddressSpace

namespace Monitor

/-- Monitors that agree on everything but what guards leave behind. -/
structure Alike (m n : Monitor) : Prop where
  space : m.space.Alike n.space
  heap : m.heap = n.heap
  ledger : m.ledger = n.ledger
  stackPointer : m.stackPointer = n.stackPointer

theorem Alike.symm {m n : Monitor} (h : m.Alike n) : n.Alike m :=
  ⟨h.space.symm, h.heap.symm, h.ledger.symm, h.stackPointer.symm⟩

theorem Alike.trans {k m n : Monitor} (h : k.Alike m) (h' : m.Alike n) : k.Alike n :=
  ⟨h.space.trans h'.space, h.heap.trans h'.heap, h.ledger.trans h'.ledger,
    h.stackPointer.trans h'.stackPointer⟩

section

variable {α β : Type}

theorem onSpace_related {x : Stateful AddressSpace α} {y : Stateful AddressSpace β}
    {Q : α → β → Prop}
    (h : Related AddressSpace.Alike (fun a b s t => Q a b ∧ AddressSpace.Alike s t) x y) :
    Related Alike (fun a b m n => Q a b ∧ Alike m n) (onSpace x) (onSpace y) := by
  unfold onSpace onTracker Tracker.onSpace
  apply Related.zoom (S := fun t u => AddressSpace.Alike t.space u.space ∧ t.heap = u.heap ∧
      t.relocation = u.relocation)
    (T := fun a b t u => Q a b ∧ AddressSpace.Alike t.space u.space ∧ t.heap = u.heap ∧
      t.relocation = u.relocation)
  · apply Related.zoom h
    · intro t u htu
      exact htu.1
    · intro t u s s' a b htu hs
      exact ⟨hs.1, hs.2, htu.2⟩
  · intro m n h
    exact ⟨h.space, h.heap, h.ledger⟩
  · intro m n t u a b h htu
    exact ⟨htu.1, htu.2.1, htu.2.2.1, htu.2.2.2, h.stackPointer⟩

theorem onSpace_respects {x : Stateful AddressSpace α} (h : Respects AddressSpace.Alike x) :
    Respects Alike (onSpace x) := onSpace_related h

theorem count_respects (f : Counters → Counters) : Respects Alike (count f) :=
  Respects.update fun _ _ h => ⟨h.space, h.heap, h.ledger, h.stackPointer⟩

theorem mapLedger_respects (f : Ledger → Ledger) : Respects Alike (modify (mapLedger f)) :=
  Respects.update fun _ _ h => ⟨h.space, h.heap, congrArg f h.ledger, h.stackPointer⟩

end

theorem track_respects (start size : Word) (origin : Origin) : Respects Alike (track start size origin) := by
  unfold track
  split
  · exact Respects.answer ()
  · exact (onSpace_respects (AddressSpace.addRegion_respects _)).bind fun _ => mapLedger_respects _

theorem untrack_respects (start : Word) : Respects Alike (untrack start) := by
  unfold untrack
  refine Respects.inspect fun m n h => ?_
  rw [h.ledger]
  split
  · exact Respects.answer () m n h
  · refine (mapLedger_respects _).bind (fun _ => ?_) m n h
    exact Related.bind (onSpace_related (AddressSpace.removeRegion_respects _ _)) fun _ _ _ _ h => ⟨rfl, h.2⟩

theorem notifyMalloc_respects (start size : Word) : Respects Alike (notifyMalloc start size) :=
  (count_respects _).bind fun _ => track_respects start size .heap

theorem notifyCalloc_respects (start size members : Word) :
    Respects Alike (notifyCalloc start size members) :=
  (Respects.present _ _).bind fun total => notifyMalloc_respects start total

theorem notifyRealloc_respects (start size old : Word) :
    Respects Alike (notifyRealloc start size old) := by
  unfold notifyRealloc
  split
  · exact (untrack_respects old).bind fun _ => notifyMalloc_respects start size
  · exact notifyMalloc_respects start size

theorem notifyFree_respects (start : Word) : Respects Alike (notifyFree start) := by
  unfold notifyFree
  split
  · exact Respects.answer ()
  · exact (count_respects _).bind fun _ => untrack_respects start

theorem notifyGlobal_respects (start size id : Word) : Respects Alike (notifyGlobal start size id) :=
  (count_respects _).bind fun _ => track_respects start size (.global id)

theorem notifyEscape_respects (cell : Word) : Respects Alike (notifyEscape cell) :=
  (count_respects _).bind fun _ => mapLedger_respects (·.recordEscape cell)

theorem guardAddress_respects (address : Word) (isWrite : Bool) :
    Respects Alike (guardAddress address isWrite) :=
  (count_respects _).bind fun _ =>
    (onSpace_respects (AddressSpace.requestPermission_respects address (.ofIsWrite isWrite))).onError

theorem guardCalleeStack_respects (frameSize : Word) : Respects Alike (guardCalleeStack frameSize) := by
  refine (count_respects _).bind fun _ => Respects.inspect fun m n h => ?_
  rcases options_of_map_eq h.space.stackRegion? with ⟨hm, hn⟩ | ⟨r, q, hm, hn, hrq⟩
  · rw [hm, hn]
    exact rfl
  · have hstop : r.forget.stop = q.forget.stop := by rw [hrq]
    have hfits : ∀ stackPointer, frameFits r.forget stackPointer frameSize =
        frameFits q.forget stackPointer frameSize := by
      intro stackPointer
      rw [hrq]
    rw [hm, hn, h.stackPointer]
    change Matches _
      (runFrom (if frameFits r (if n.stackPointer = 0 then r.stop else n.stackPointer) frameSize then
        _ else _) m)
      (runFrom (if frameFits q (if n.stackPointer = 0 then q.stop else n.stackPointer) frameSize then
        _ else _) n)
    simp only [Region.forget_stop] at hstop
    rw [hstop, show ∀ w, frameFits r w frameSize = frameFits q w frameSize from hfits]
    generalize (if n.stackPointer = 0 then q.stop else n.stackPointer) = w
    split
    · exact onSpace_respects (AddressSpace.latchStack_respects .write) m n h
    · exact rfl

theorem pinPointer_respects (pointer : Word) : Respects Alike (pinPointer pointer) :=
  Related.bind (onSpace_related (AddressSpace.pin_respects pointer)) fun _ _ _ _ h => ⟨rfl, h.2⟩

end Monitor

namespace Machine

/-- Machines with an image that agree on everything but what guards leave behind. -/
structure Alike (x : Image) (m n : Machine) : Prop where
  left : m.image = x
  right : n.image = x
  monitor : m.monitor.Alike n.monitor

variable {α : Type} {image : Image}

theorem onMonitor_respects {x : Stateful Monitor α} (h : Respects Monitor.Alike x) :
    Respects (Alike image) (onMonitor x) :=
  Respects.zoom h (fun _ _ h => h.monitor) fun _ _ _ _ h hm => ⟨h.left, h.right, hm⟩

theorem Alike.image_eq {m n : Machine} (h : Alike image m n) : m.image = n.image := h.left.trans h.right.symm

theorem Alike.memory {m n : Machine} (h : Alike image m n) : m.memory = n.memory :=
  congrArg Ledger.memory h.monitor.ledger

theorem stores_alike (image : Image) : Stores (Alike image) where
  image _ _ h := h.image_eq
  heap _ _ h := h.monitor.heap
  memory _ _ h := h.memory
  withHeap _ _ h _ := ⟨h.left, h.right, h.monitor.space, rfl, h.monitor.ledger, h.monitor.stackPointer⟩
  withMemory _ _ h memory := ⟨h.left, h.right, h.monitor.space, h.monitor.heap,
    congrArg (fun l => { l with memory := memory }) h.monitor.ledger, h.monitor.stackPointer⟩
  withStackPointer _ _ h _ := ⟨h.left, h.right, h.monitor.space, h.monitor.heap, h.monitor.ledger, rfl⟩

theorem entryPoint_respects (h : Hooks) (function : String) (arguments : List Word)
    {e : String × Stateful Monitor Unit} (he : e ∈ entryPoints h (argument function arguments)) :
    Respects Monitor.Alike e.2 := by
  have arg := fun index => Stores.argument_respects Monitor.Alike function arguments index
  simp only [entryPoints, List.mem_cons, List.not_mem_nil, or_false] at he
  rcases he with rfl | rfl | rfl | rfl | rfl | rfl | rfl | rfl | rfl
  · exact (arg 0).bind fun _ => (arg 1).bind fun _ => Monitor.notifyMalloc_respects _ _
  · exact (arg 0).bind fun _ => (arg 1).bind fun _ => (arg 2).bind fun _ =>
      Monitor.notifyCalloc_respects _ _ _
  · exact (arg 0).bind fun _ => (arg 1).bind fun _ => (arg 2).bind fun _ =>
      Monitor.notifyRealloc_respects _ _ _
  · exact (arg 0).bind fun _ => Monitor.notifyFree_respects _
  · exact (arg 0).bind fun _ => (arg 1).bind fun _ => (arg 2).bind fun _ =>
      Monitor.notifyGlobal_respects _ _ _
  · exact (arg 0).bind fun _ => Monitor.notifyEscape_respects _
  · exact (arg 0).bind fun _ => (arg 1).bind fun _ => Monitor.guardAddress_respects _ _
  · exact (arg 0).bind fun _ => Monitor.guardCalleeStack_respects _
  · exact (arg 0).bind fun _ => Monitor.pinPointer_respects _

theorem builtin?_respects {c : Configuration} {function : String} {arguments : List Word}
    {x : Stateful Machine (Option Word)} (hx : builtin? c function arguments = some x) :
    Respects (Alike image) x := by
  rcases (stores_alike image).builtin?_respects hx with hrespects | ⟨e, he, rfl⟩
  · exact hrespects
  · exact (onMonitor_respects (entryPoint_respects _ _ _ he)).bind fun _ => Respects.answer none

end Machine

namespace RegionIndex

variable {x : RegionIndex} {r : Region}

theorem mem_of_find? {query : Region} {m : MatchMask} (h : x.find? query m = some r) : r ∈ x.toList := by
  cases x with
  | keyed t =>
    obtain ⟨key, -, hr⟩ := Option.bind_eq_some_iff.mp h
    exact Table.mem_values_of_get? hr
  | sorted a =>
    obtain ⟨position, -, hr⟩ := Option.bind_eq_some_iff.mp h
    exact Array.mem_toList_iff.mpr (Array.mem_of_getElem? hr)

theorem mem_of_before? {a : Array Region} {position : Nat} (h : before? a position = some r) :
    r ∈ a.toList := by
  cases position with
  | zero => cases h
  | succ position => exact Array.mem_toList_iff.mpr (Array.mem_of_getElem? h)

theorem mem_of_containing? {address : Word} (h : x.containing? address = some r) :
    r ∈ x.toList ∧ r.containsAddress address := by
  unfold containing? at h
  simp only [Option.filter_eq_some_iff] at h
  refine ⟨?_, h.2⟩
  cases x with
  | keyed t => exact Table.mem_values_of_last? h.1
  | sorted a => exact mem_of_before? h.1

end RegionIndex

namespace AddressSpace

def permits (s : AddressSpace) (address : Word) (a : Access) : Bool :=
  admits address a s.stackRegion? || admits address a s.blobRegion? ||
    match s.regionAt? address with
    | some r => r.protection.allows a
    | none => false

variable {s s' : AddressSpace} {address : Word} {a : Access}

theorem requestPermission_of_permits (h : s.permits address a) :
    ∃ s', (requestPermission address a).runFrom s = (.ok (), s') := by
  unfold requestPermission
  rw [runFrom_bind, runFrom_get]
  simp only
  by_cases hstack : admits address a s.stackRegion?
  · rw [if_pos hstack]
    exact ⟨_, rfl⟩
  rw [if_neg hstack]
  by_cases hblob : admits address a s.blobRegion?
  · rw [if_pos hblob]
    exact ⟨_, rfl⟩
  rw [if_neg hblob]
  simp only [permits, hstack, hblob, Bool.false_or] at h
  cases hr : s.regionAt? address with
  | none =>
    rw [hr] at h
    cases h
  | some r =>
    rw [hr] at h
    simp only at h ⊢
    rw [if_pos h]
    exact ⟨_, rfl⟩

theorem requestPermission_of_not_permits (h : s.permits address a = false) :
    (requestPermission address a).runFrom s = (.error (.error (.violation address a)), s) := by
  simp only [permits, Bool.or_eq_false_iff] at h
  unfold requestPermission
  rw [runFrom_bind, runFrom_get]
  simp only [h.1.1, h.1.2, Bool.false_eq_true, if_false]
  cases hr : s.regionAt? address with
  | none => rfl
  | some r =>
    have hallows := h.2
    rw [hr] at hallows
    simp only at hallows ⊢
    rw [hallows]
    rfl

theorem permits_of_requestPermission (h : (requestPermission address a).runFrom s = (.ok (), s')) :
    s.permits address a := by
  by_contra hn
  rw [requestPermission_of_not_permits (Bool.eq_false_iff.mpr hn)] at h
  cases h

theorem permits_forget (s : AddressSpace) (address : Word) (a : Access) :
    s.forget.permits address a = s.permits address a := by
  unfold permits
  rw [stackRegion?_forget, blobRegion?_forget, regionAt?_forget, admits_forget, admits_forget]
  cases s.regionAt? address <;> rfl

theorem Alike.permits {t : AddressSpace} (h : Alike s t) (address : Word) (a : Access) :
    s.permits address a = t.permits address a := by
  rw [← permits_forget s, ← permits_forget t, h.same]

theorem mem_of_resolve? {f : FixedRegion} {r : Region} (hf : f.isTracked) (h : s.resolve? f = some r) :
    r ∈ s.regions.toList := by
  cases f with
  | tracked start => exact RegionIndex.mem_of_find? h
  | released r => cases hf

/-- A permitted address lies in a tracked region whose protection allows the access. -/
theorem exists_region_of_permits (anchored : s.IsAnchored) (h : s.permits address a) :
    ∃ r ∈ s.regions.toList, r.containsAddress address ∧ r.protection.allows a := by
  have fixed : ∀ f : Option FixedRegion, (∀ g ∈ f, g.isTracked) → admits address a (f.bind s.resolve?) →
      ∃ r ∈ s.regions.toList, r.containsAddress address ∧ r.protection.allows a := by
    intro f hf hadmits
    cases hr : f.bind s.resolve? with
    | none =>
      rw [hr] at hadmits
      cases hadmits
    | some r =>
      rw [hr] at hadmits
      obtain ⟨g, hg, hresolve⟩ := Option.bind_eq_some_iff.mp hr
      exact ⟨r, mem_of_resolve? (hf g hg) hresolve, Bool.and_eq_true_iff.mp hadmits⟩
  simp only [permits, Bool.or_eq_true] at h
  rcases h with (h | h) | h
  · exact fixed s.stack anchored.1 h
  · exact fixed s.blob anchored.2 h
  · cases hr : s.regionAt? address with
    | none =>
      rw [hr] at h
      cases h
    | some r =>
      rw [hr] at h
      obtain ⟨hmem, hcontains⟩ := RegionIndex.mem_of_containing? hr
      exact ⟨r, hmem, hcontains, h⟩

end AddressSpace

namespace Monitor

def permits (m : Monitor) (address : Word) (a : Access) : Bool := m.space.permits address a

variable {m m' : Monitor} {address : Word} {isWrite : Bool}

theorem Alike.permits (h : m.Alike m') (address : Word) (a : Access) :
    m.permits address a = m'.permits address a := h.space.permits address a

def withSpace (m : Monitor) (s : AddressSpace) : Monitor := { m with tracker := { m.tracker with space := s } }

def countGuard (m : Monitor) : Monitor :=
  { m with counters := { m.counters with guards := m.counters.guards + 1 } }

theorem onSpace_runFrom {α : Type} {x : Stateful AddressSpace α} {o : Outcome α} {s : AddressSpace}
    (h : x.runFrom m.space = (o, s)) : (onSpace x).runFrom m = (o, m.withSpace s) := by
  change ((x.runFrom m.space).1, m.withSpace (x.runFrom m.space).2) = _
  rw [h]

theorem guardAddress_runFrom (m : Monitor) (address : Word) (isWrite : Bool) :
    (guardAddress address isWrite).runFrom m =
      (onError (onSpace (AddressSpace.requestPermission address (.ofIsWrite isWrite))) countViolation).runFrom
        m.countGuard := by
  unfold guardAddress count
  rw [runFrom_bind, runFrom_modify]
  rfl

theorem guardAddress_of_permits (h : m.permits address (.ofIsWrite isWrite)) :
    ∃ s, (AddressSpace.requestPermission address (.ofIsWrite isWrite)).runFrom m.space = (.ok (), s) ∧
      (guardAddress address isWrite).runFrom m = (.ok (), m.countGuard.withSpace s) := by
  obtain ⟨s, hs⟩ := AddressSpace.requestPermission_of_permits h
  refine ⟨s, hs, ?_⟩
  rw [guardAddress_runFrom, runFrom_onError, onSpace_runFrom (m := m.countGuard) hs]

theorem guardAddress_of_not_permits (h : m.permits address (.ofIsWrite isWrite) = false) :
    (guardAddress address isWrite).runFrom m =
      (.error (.error (.violation address (.ofIsWrite isWrite))),
        (m.countGuard.withSpace m.space).countViolation) := by
  have hs := AddressSpace.requestPermission_of_not_permits h
  rw [guardAddress_runFrom, runFrom_onError, onSpace_runFrom (m := m.countGuard) hs]

theorem permits_of_guardAddress (h : (guardAddress address isWrite).runFrom m = (.ok (), m')) :
    m.permits address (.ofIsWrite isWrite) := by
  by_contra hn
  rw [guardAddress_of_not_permits (Bool.eq_false_iff.mpr hn)] at h
  cases h

theorem alike_of_guardAddress (anchored : m.space.IsAnchored)
    (h : (guardAddress address isWrite).runFrom m = (.ok (), m')) : m'.Alike m := by
  obtain ⟨s, hs, hm⟩ := guardAddress_of_permits (permits_of_guardAddress h)
  rw [hm] at h
  cases h
  have alike := AddressSpace.requestPermission_respects address (.ofIsWrite isWrite) m.space m.space
    ⟨rfl, anchored⟩
  rw [hs] at alike
  exact ⟨⟨AddressSpace.requestPermission_forget hs, alike.2.anchored⟩, rfl, rfl, rfl⟩

end Monitor

namespace Machine

def permits (m : Machine) (address : Word) (a : Access) : Bool := m.monitor.permits address a

theorem Alike.permits {x : Image} {m n : Machine} (h : Alike x m n) (address : Word) (a : Access) :
    m.permits address a = n.permits address a := h.monitor.permits address a

theorem builtin?_of_mem {c : Configuration} (distinct : c.hooks.names.Nodup) {function : String}
    {arguments : List Word} {x : Stateful Monitor Unit}
    (hx : (function, x) ∈ entryPoints c.hooks (argument function arguments)) :
    builtin? c function arguments = some do
      onMonitor x
      return none := by
  have hkeys : (entryPoints c.hooks (argument function arguments)).map (·.1) = c.hooks.names := rfl
  unfold builtin?
  rw [Table.lookup_of_nodup (hkeys ▸ distinct) hx]

theorem builtin?_guardAddress {c : Configuration} (distinct : c.hooks.names.Nodup) (arguments : List Word) :
    builtin? c c.hooks.guardAddress arguments = some do
      onMonitor (do
        let address ← argument c.hooks.guardAddress arguments 0
        let isWrite ← argument c.hooks.guardAddress arguments 1
        Monitor.guardAddress address (isWrite != 0))
      return none := builtin?_of_mem distinct (by simp [entryPoints])

end Machine

end RegionGuard

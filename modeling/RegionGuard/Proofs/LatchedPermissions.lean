import RegionGuard.Proofs.GuardAnswers
set_option autoImplicit false

namespace RegionGuard

namespace Stateful

variable {σ τ υ φ α β : Type}

/-- On the image of a state a computation gives the same answer, and leaves the image of the state that it is to
leave. -/
def Mirrors (p : σ → τ) (x : Stateful σ α) (y : Stateful τ α) : Prop :=
  ∀ s, y.runFrom (p s) = ((x.runFrom s).1, p (x.runFrom s).2)

namespace Mirrors

variable {p : σ → τ} {x : Stateful σ α} {y : Stateful τ α} {f : α → Stateful σ β} {g : α → Stateful τ β}

theorem bind (h : Mirrors p x y) (hf : ∀ a, Mirrors p (f a) (g a)) : Mirrors p (x >>= f) (y >>= g) := by
  intro s
  rw [runFrom_bind, runFrom_bind, h s]
  cases hrun : x.runFrom s with
  | mk o s' =>
    cases o with
    | ok a => exact hf a s'
    | error e => rfl

theorem answer (a : α) : Mirrors p (pure a) (pure a) := fun _ => rfl

theorem raise (e : Error) : Mirrors p (Failure.raise e : Stateful σ α) (Failure.raise e) := fun _ => rfl

theorem stop (e : Fatal) : Mirrors p (Failure.stop e : Stateful σ α) (Failure.stop e) := fun _ => rfl

theorem lift (o : Outcome α) : Mirrors p (liftM o) (liftM o) := fun _ => rfl

theorem present (o : Option α) (e : Error) : Mirrors p (Failure.orRaise o e) (Failure.orRaise o e) := by
  cases o with
  | none => exact raise e
  | some a => exact answer a

theorem update {h : σ → σ} {k : τ → τ} (hp : ∀ s, k (p s) = p (h s)) :
    Mirrors p (modify h : Stateful σ PUnit) (modify k) := fun s => Prod.ext rfl (hp s)

theorem put {s : σ} {t : τ} (hp : t = p s) : Mirrors p (set s : Stateful σ PUnit) (set t) :=
  fun _ => Prod.ext rfl hp

/-- Two computations that read the state first. -/
theorem inspect {f : σ → Stateful σ α} {g : τ → Stateful τ α} (h : ∀ s, Mirrors p (f s) (g (p s))) :
    Mirrors p (get >>= f) (get >>= g) := by
  intro s
  rw [runFrom_get_bind, runFrom_get_bind]
  exact h s s

theorem branch {c : Prop} [Decidable c] {x' : Stateful σ α} {y' : Stateful τ α} (h : Mirrors p x y)
    (h' : Mirrors p x' y') : Mirrors p (if c then x else x') (if c then y else y') := by
  split
  · exact h
  · exact h'

theorem refuse {c : Prop} [Decidable c] {e : Error} {f : PUnit → Stateful σ α} {g : PUnit → Stateful τ α}
    (h : Mirrors p (f ⟨⟩) (g ⟨⟩)) :
    Mirrors p (if c then (Failure.raise e : Stateful σ PUnit) >>= f else f ⟨⟩)
      (if c then (Failure.raise e : Stateful τ PUnit) >>= g else g ⟨⟩) :=
  branch (fun _ => rfl) h

theorem require {c : Prop} [Decidable c] {e : Error} {f : PUnit → Stateful σ α} {g : PUnit → Stateful τ α}
    (h : Mirrors p (f ⟨⟩) (g ⟨⟩)) :
    Mirrors p (if c then f ⟨⟩ else (Failure.raise e : Stateful σ PUnit) >>= f)
      (if c then g ⟨⟩ else (Failure.raise e : Stateful τ PUnit) >>= g) :=
  branch h fun _ => rfl

theorem each {l : List υ} {f : υ → PUnit → Stateful σ (ForInStep PUnit)} {g : υ → PUnit → Stateful τ (ForInStep PUnit)}
    (h : ∀ a, Mirrors p (f a ⟨⟩) (g a ⟨⟩)) : Mirrors p (forIn l ⟨⟩ f) (forIn l ⟨⟩ g) := by
  induction l with
  | nil => exact answer _
  | cons a rest ih =>
    rw [List.forIn_cons, List.forIn_cons]
    refine (h a).bind fun r => ?_
    cases r with
    | done b => exact answer b
    | yield b => exact ih

theorem zoom {q : υ → φ} {part : σ → υ} {put : υ → σ → σ} {part' : τ → φ} {put' : φ → τ → τ} {x : Stateful υ α}
    {y : Stateful φ α} (h : Mirrors q x y) (hpart : ∀ s, part' (p s) = q (part s))
    (hput : ∀ s u, put' (q u) (p s) = p (put u s)) : Mirrors p (Stateful.zoom part put x) (Stateful.zoom part' put' y) := by
  intro s
  rw [runFrom_zoom, runFrom_zoom, hpart, h (part s)]
  exact Prod.ext rfl (hput s _)

theorem same (x : Stateful σ α) : Mirrors id x x := fun _ => rfl

theorem onError {h : σ → σ} {k : τ → τ} (hxy : Mirrors p x y) (hp : ∀ s, k (p s) = p (h s)) :
    Mirrors p (Stateful.onError x h) (Stateful.onError y k) := by
  intro s
  rw [runFrom_onError, runFrom_onError, hxy s]
  cases hrun : x.runFrom s with
  | mk o s' =>
    cases o with
    | ok a => rfl
    | error e =>
      cases e with
      | error e => exact Prod.ext rfl (hp s')
      | fatal e => rfl

end Mirrors

end Stateful

open Stateful

/-- A relocator that keeps a log of the relocations that succeed, each from one start to another. -/
structure Logbook (ρ : Type) where
  relocation : ρ
  moves : List (Word × Word)

namespace Logbook

variable {ρ : Type} [Relocator ρ]

/-- Carries out a relocation, and writes it down. -/
def relocate (source destination length : Word) : Stateful (Logbook ρ) Unit := do
  Stateful.zoom (·.relocation) (fun x b => { b with relocation := x }) (Relocator.relocate source destination length)
  modify fun b => { b with moves := b.moves ++ [(source, destination)] }

instance : Relocator (Logbook ρ) := ⟨relocate⟩

theorem relocate_leads (b : Logbook ρ) (source destination length : Word) :
    (relocate source destination length).Leads b (fun _ b' => b'.moves = b.moves ++ [(source, destination)])
      fun _ b' => b'.moves = b.moves := by
  refine .bind (.zoom (Stateful.Leads.mono (Q := fun _ _ => True) (E := fun _ _ => True) ?_
    (fun _ _ _ => .update rfl) fun _ _ _ => rfl))
  exact Maintains.leads (I := fun _ => True) (fun _ _ => trivial) trivial

theorem moves_eq {b b' : Logbook ρ} {moves : List (Word × Word)} (h : Relocator.Moves b moves b') :
    b'.moves = b.moves ++ moves := by
  induction h with
  | none => exact (List.append_nil _).symm
  | @done y z moves source destination length _ run ih =>
    rw [(relocate_leads y source destination length).ok run, ih, List.append_assoc]
  | @refused y z moves source destination length f _ run ih =>
    rw [(relocate_leads y source destination length).error run, ih]

end Logbook

namespace Tracker

variable {ρ : Type}

def withLogbook (t : Tracker ρ) : Tracker (Logbook ρ) := ⟨t.space, t.heap, ⟨t.relocation, []⟩⟩

def withoutLogbook (t : Tracker (Logbook ρ)) : Tracker ρ := ⟨t.space, t.heap, t.relocation.relocation⟩

theorem withoutLogbook_space (t : Tracker (Logbook ρ)) : t.withoutLogbook.space = t.space := rfl

theorem onSpace_mirrors {α : Type} (x : Stateful AddressSpace α) :
    Mirrors (withoutLogbook (ρ := ρ)) (onSpace x) (onSpace x) :=
  .zoom (.same x) (fun _ => rfl) fun _ _ => rfl

theorem allocate_mirrors (f : Heap → Option (Word × Heap)) (shortage : MemoryShortage) :
    Mirrors (withoutLogbook (ρ := ρ)) (allocate f shortage) (allocate f shortage) :=
  .inspect fun _ => .bind (.present _ _) fun _ => .bind (.put rfl) fun _ => .answer _

variable [Relocator ρ]

theorem relocate_mirrors (source destination length : Word) :
    Mirrors (withoutLogbook (ρ := ρ)) (onRelocation (Relocator.relocate source destination length))
      (onRelocation (Relocator.relocate source destination length)) := by
  refine .zoom (q := Logbook.relocation) (fun b => ?_) (fun _ => rfl) fun _ _ => rfl
  change _ = (((Logbook.relocate source destination length).runFrom b).1,
    ((Logbook.relocate source destination length).runFrom b).2.relocation)
  unfold Logbook.relocate
  rw [runFrom_bind, runFrom_zoom]
  cases (Relocator.relocate source destination length).runFrom b.relocation with
  | mk o x =>
    cases o with
    | ok u => rfl
    | error e => rfl

theorem moveRegion_mirrors (old new : Region) :
    Mirrors (withoutLogbook (ρ := ρ)) (moveRegion old new) (moveRegion old new) := by
  unfold moveRegion
  refine .bind (.each fun r => .require (.answer _)) fun _ => .inspect fun t => .bind (.lift _) fun r => ?_
  refine .refuse (.refuse (.bind (.update fun _ => rfl) fun _ => ?_))
  refine .bind (.onError (.bind (onSpace_mirrors _) fun _ => relocate_mirrors _ _ _) fun _ => rfl) fun _ => ?_
  exact .bind (onSpace_mirrors _) fun _ => .answer _

theorem moveToBlock_mirrors (old : Region) (destination : Word) :
    Mirrors (withoutLogbook (ρ := ρ)) (moveToBlock old destination) (moveToBlock old destination) :=
  .bind (.onError (moveRegion_mirrors _ _) fun _ => rfl) fun _ => .update fun _ => rfl

theorem evictNeighbors_mirrors (start newStop : Word) (byForce : Bool) (rounds : Nat) :
    Mirrors (withoutLogbook (ρ := ρ)) (evictNeighbors start newStop byForce rounds)
      (evictNeighbors start newStop byForce rounds) := by
  induction rounds with
  | zero => exact .stop _
  | succ rounds ih =>
    unfold evictNeighbors
    refine .inspect fun t => ?_
    rw [withoutLogbook_space]
    cases t.space.regions.nextFrom? (start + 1) with
    | none => exact .answer _
    | some neighbor =>
      refine .branch (.answer _) (.require (.refuse (.bind (allocate_mirrors _ _) fun _ => ?_)))
      exact .bind (moveToBlock_mirrors _ _) fun _ => .bind (onSpace_mirrors _) fun _ => ih

theorem resizeRegion_mirrors (query : Region) (newSize : Word) (byForce : Bool) :
    Mirrors (withoutLogbook (ρ := ρ)) (resizeRegion query newSize byForce) (resizeRegion query newSize byForce) := by
  unfold resizeRegion
  refine .inspect fun t => .bind (.lift _) fun r => .branch (.answer _) (.refuse (.refuse (.branch ?_ ?_)))
  · exact .bind (.update fun _ => rfl) fun _ => .bind (.update fun _ => rfl) fun _ => .answer _
  · refine .bind (.present _ _) fun newStop => .inspect fun t => .bind (evictNeighbors_mirrors _ _ _ _) fun _ => ?_
    refine .bind (allocate_mirrors _ _) fun granted => .refuse (.inspect fun t => ?_)
    exact .bind (.update fun _ => rfl) fun _ => .answer _

theorem defragmentRegion_mirrors (query : Region) (newSize : Word) :
    Mirrors (withoutLogbook (ρ := ρ)) (defragmentRegion query newSize) (defragmentRegion query newSize) :=
  .inspect fun _ => .bind (.lift _) fun _ => .refuse (.refuse (.bind (allocate_mirrors _ _) fun _ =>
    .bind (moveToBlock_mirrors _ _) fun _ => .answer _))

/-- A request does the same under a relocator that keeps a log. -/
theorem perform_mirrors (q : SpaceRequest) : Mirrors (withoutLogbook (ρ := ρ)) q.perform q.perform := by
  have finish : ∀ {α : Type} {x : Stateful (Tracker (Logbook ρ)) α} {y : Stateful (Tracker ρ) α},
      Mirrors withoutLogbook x y → Mirrors withoutLogbook (x >>= fun _ => pure ()) (y >>= fun _ => pure ()) :=
    fun h => .bind h fun _ => .answer _
  cases q with
  | add r => exact finish (onSpace_mirrors _)
  | remove query m => exact finish (onSpace_mirrors _)
  | protect query p => exact onSpace_mirrors _
  | pin address => exact finish (onSpace_mirrors _)
  | access address a => exact onSpace_mirrors _
  | move old new => exact finish (moveRegion_mirrors old new)
  | resize query newSize byForce => exact finish (resizeRegion_mirrors query newSize byForce)
  | defragment query newSize => exact finish (defragmentRegion_mirrors query newSize)
  | destroy => exact .update fun _ => rfl

end Tracker

namespace SpaceRequest

variable {ρ : Type} [Relocator ρ]

/-- The relocations that a request brings about, each from one start to another. A move that fails has brought about
none, even where its bytes have been moved. -/
def moves (q : SpaceRequest) (t : Tracker ρ) : List (Word × Word) :=
  let result := q.perform.runFrom t.withLogbook
  if q.isMove && !result.1.isOk then [] else result.2.relocation.moves

end SpaceRequest

namespace Tracker

variable {ρ : Type} [Relocator ρ]

/-- A request turns the regions as its moves say, and takes all of them along when it succeeds and is not for regions
to go. -/
theorem turned_of_request {t : Tracker ρ} (h : t.space.Arranged) (q : SpaceRequest) :
    Turned q t (q.moves t) (q.perform.runFrom t).2 ∧
      ((q.perform.runFrom t).1 = .ok () → q.isForRemoval = false → ∀ r ∈ t.regions,
        ∃ r' ∈ (q.perform.runFrom t).2.regions, r'.start = Region.carried (q.moves t) r.start) := by
  have hmirrors : q.perform.runFrom t = _ := perform_mirrors q t.withLogbook
  have hturns := perform_turns (t := t.withLogbook) h q
  rw [hmirrors]
  unfold SpaceRequest.moves
  cases hrun : q.perform.runFrom t.withLogbook with
  | mk o u =>
    cases o with
    | ok a =>
      obtain ⟨moves, hmoves, hturned, hkept⟩ := hturns.ok hrun
      have hlog : u.relocation.moves = moves := Logbook.moves_eq hmoves
      rw [← hlog] at hturned hkept
      have hall : (q.isMove && !Except.isOk (Except.ok a : Outcome Unit)) = false := Bool.and_false _
      dsimp only
      rw [hall]
      exact ⟨⟨hturned.arranged, hturned.comes, hturned.follows⟩, fun _ => hkept⟩
    | error e =>
      obtain ⟨moves, hmoves, hturned⟩ := hturns.error hrun
      have hlog : u.relocation.moves = moves := Logbook.moves_eq hmoves
      rw [← hlog] at hturned
      have hmoved : (q.isMove && !Except.isOk (Except.error e : Outcome Unit)) = q.isMove := Bool.and_true _
      dsimp only
      rw [hmoved]
      exact ⟨⟨hturned.arranged, hturned.comes, hturned.follows⟩, nofun⟩

end Tracker

inductive ThreadRequest where
  | add (thread : Word)
  | remove (thread : Word)
  | switchIn (thread : Word)
  | switchOut (thread : Word)
  | fault (f : Fault)

namespace ThreadRequest

def perform : ThreadRequest → Stateful AddressSpace Unit
  | add thread => AddressSpace.addThread thread
  | remove thread => AddressSpace.removeThread thread
  | switchIn thread => AddressSpace.switchIn thread
  | switchOut thread => AddressSpace.switchOut thread
  | fault f => AddressSpace.exception f

end ThreadRequest

/-- What can happen to an address space. Others use its heap and the memory of its relocator as they like. -/
inductive SpaceEvent (ρ : Type) where
  | request (q : SpaceRequest)
  | thread (q : ThreadRequest)
  | calleeStack (stackPointer frameSize : Word)
  | host (heap : Heap)
  | memory (x : ρ)

namespace AddressSpace

variable {s : AddressSpace}

theorem switchedOut_stays {s' : AddressSpace} (h : Stays s s') (thread : Word) : Stays s (switchedOut thread s') := by
  unfold switchedOut
  split
  · exact h.of_regions rfl h.fixes
  · exact h

theorem thread_stays (h : s.Arranged) (q : ThreadRequest) : Stays s (q.perform.runFrom s).2 := by
  refine Leads.state (I := fun s' => Stays s s') ?_
  cases q with
  | add thread => exact .bind (.read (.refuse (fun _ => h.stays) fun _ => .put (h.stays.of_regions rfl rfl)))
  | remove thread =>
    refine .bind (.read (.require (fun _ => h.stays) fun _ => .put (switchedOut_stays ?_ thread)))
    exact h.stays.of_regions rfl rfl
  | switchIn thread =>
    exact .bind (.read (.require (fun _ => h.stays) fun _ => .put (h.stays.of_regions rfl rfl)))
  | switchOut thread => exact .update (switchedOut_stays h.stays thread)
  | fault f => exact .bind (.read (.raise h.stays))

end AddressSpace

namespace SpaceEvent

variable {ρ : Type} [Relocator ρ]

/-- Whether an event adds no region that something was requested of before. -/
def IsFresh (e : SpaceEvent ρ) : Prop := ∀ r, e = request (.add r) → r.requested = .none

def next (e : SpaceEvent ρ) (t : Tracker ρ) : Tracker ρ :=
  match e with
  | request q => (q.perform.runFrom t).2
  | thread q => { t with space := (q.perform.runFrom t.space).2 }
  | calleeStack stackPointer frameSize =>
    let monitor := { Monitor.make t.space t.heap with stackPointer := stackPointer }
    { t with space := ((Monitor.guardCalleeStack frameSize).runFrom monitor).2.space }
  | host heap => { t with heap := heap }
  | memory x => { t with relocation := x }

def moves (e : SpaceEvent ρ) (t : Tracker ρ) : List (Word × Word) :=
  match e with
  | request q => q.moves t
  | _ => []

/-- Whether an event lets go of no region: it is no request, or one that succeeds and is not for regions to go. -/
def Spares (e : SpaceEvent ρ) (t : Tracker ρ) : Prop :=
  ∀ q, e = request q → q.isForRemoval = false ∧ (q.perform.runFrom t).1 = .ok ()

end SpaceEvent

namespace Tracker

variable {ρ : Type} [Relocator ρ] {t : Tracker ρ}

/-- What an event has made of the regions: each is what a tracked one has become, or has just been added, and is no
other than the one that the moves took there. -/
structure Passed (e : SpaceEvent ρ) (t : Tracker ρ) : Prop where
  arranged : (e.next t).space.Arranged
  comes : ∀ r' ∈ (e.next t).regions, e = .request (.add r') ∨ ∃ r ∈ t.regions, r.Heeds r'
  follows : ∀ r ∈ t.regions, ∀ r' ∈ (e.next t).regions, r'.start = Region.carried (e.moves t) r.start → r.Heeds r'
  spares : e.Spares t → ∀ r ∈ t.regions, ∃ r' ∈ (e.next t).regions, r'.start = Region.carried (e.moves t) r.start

theorem passed_of_stays {e : SpaceEvent ρ} (hs : AddressSpace.Stays t.space (e.next t).space) (hmoves : e.moves t = []) :
    Passed e t where
  arranged := hs.arranged
  comes r' hr' := by
    obtain ⟨r, hr, -, hheeds⟩ := hs.drift.comes r' hr'
    exact .inr ⟨r, hr, hheeds⟩
  follows r hr r' hr' hstart := by
    obtain ⟨m, hm, hcarried, hheeds⟩ := hs.drift.goes r hr
    rw [hmoves] at hstart
    obtain rfl := hs.arranged.ordered.rising.eq_of_start hr' hm (hstart.trans hcarried.symm)
    exact hheeds
  spares _ r hr := by
    obtain ⟨m, hm, hcarried, -⟩ := hs.drift.goes r hr
    exact ⟨m, hm, hmoves ▸ hcarried⟩

theorem passed (h : t.space.Arranged) (e : SpaceEvent ρ) : Passed e t := by
  cases e with
  | request q =>
    obtain ⟨hturned, hkept⟩ := turned_of_request h q
    exact ⟨hturned.arranged, fun r' hr' => (hturned.comes r' hr').imp_left (congrArg _), hturned.follows,
      fun hspares => hkept (hspares q rfl).2 (hspares q rfl).1⟩
  | thread q => exact passed_of_stays (AddressSpace.thread_stays h q) rfl
  | calleeStack stackPointer frameSize =>
    have hstays := Monitor.guardCalleeStack_stays { Monitor.make t.space t.heap with stackPointer := stackPointer } h frameSize
    have hspace := Leads.state (I := fun m : Monitor => AddressSpace.Stays t.space m.space)
      (hstays.mono (fun _ _ hm => hm.1) fun _ _ hm => hm.1)
    exact passed_of_stays hspace rfl
  | host heap => exact passed_of_stays h.stays rfl
  | memory x => exact passed_of_stays h.stays rfl

/-- What events make of an address space, one after the other, whether they succeed or not. -/
def history (t : Tracker ρ) (events : List (SpaceEvent ρ)) : Tracker ρ := events.foldl (fun t e => e.next t) t

theorem arranged_history (h : t.space.Arranged) (events : List (SpaceEvent ρ)) : (t.history events).space.Arranged := by
  induction events generalizing t with
  | nil => exact h
  | cons e rest ih => exact ih (passed h e).arranged

/-- A tracked region becomes another through events: each time it is the one that is tracked where the relocations
take it. -/
def Follows : Tracker ρ → Region → List (SpaceEvent ρ) → Region → Prop
  | _, r, [], r' => r' = r
  | t, r, e :: rest, r' => ∃ m ∈ (e.next t).regions,
      m.start = Region.carried (e.moves t) r.start ∧ Follows (e.next t) m rest r'

theorem Follows.eq {events : List (SpaceEvent ρ)} {r r₁ r₂ : Region} (h : t.space.Arranged) (h₁ : t.Follows r events r₁)
    (h₂ : t.Follows r events r₂) : r₁ = r₂ := by
  induction events generalizing t r with
  | nil => exact h₁.trans h₂.symm
  | cons e rest ih =>
    obtain ⟨m₁, hm₁, hstart₁, h₁⟩ := h₁
    obtain ⟨m₂, hm₂, hstart₂, h₂⟩ := h₂
    have harranged := (passed h e).arranged
    obtain rfl := harranged.ordered.rising.eq_of_start hm₁ hm₂ (hstart₁.trans hstart₂.symm)
    exact ih harranged h₁ h₂

theorem Follows.heeds {events : List (SpaceEvent ρ)} {r r' : Region} (h : t.space.Arranged) (hr : r ∈ t.regions)
    (hfollows : t.Follows r events r') : r.Heeds r' := by
  induction events generalizing t r with
  | nil =>
    rw [show r' = r from hfollows]
    exact .refl r
  | cons e rest ih =>
    obtain ⟨m, hm, hstart, hfollows⟩ := hfollows
    have hpassed := passed h e
    exact (hpassed.follows r hr m hm hstart).trans (ih hpassed.arranged hm hfollows)

/-- An address space as it is built, with fixed regions that nothing was requested of yet. -/
def Started (t : Tracker ρ) : Prop :=
  ∃ name kind stack blob, AddressSpace.build name kind stack blob = .ok t.space ∧
    ∀ r, stack = some r ∨ blob = some r → r.requested = .none

def Honest (t : Tracker ρ) : Prop := t.space.Arranged ∧ ∀ r ∈ t.regions, r.Honors

omit [Relocator ρ] in
theorem Started.honest (h : t.Started) : t.Honest := by
  obtain ⟨name, kind, stack, blob, hbuild, hfresh⟩ := h
  refine ⟨(AddressSpace.sound_of_build hbuild).arranged, ?_⟩
  refine (AddressSpace.build_induction (I := fun s => s.Arranged ∧ ∀ r ∈ s.regions.toList, r.Honors) ?_ ?_ ?_ hbuild).2
  · have hnil := RegionIndex.toList_empty kind
    exact ⟨AddressSpace.arranged_of_nil (RegionIndex.ordered_empty kind) hnil, fun r hr => nomatch hnil ▸ hr⟩
  · refine fun s r hr hs => (AddressSpace.addRegion_joins hs.1 r).mono (fun _ s' hs' => ?_) fun _ _ _ => trivial
    obtain ⟨harranged, -, hmem, -⟩ := hs'
    refine ⟨harranged, fun q hq => ?_⟩
    rcases (hmem q).mp hq with rfl | hq
    · unfold Region.Honors
      rw [hfresh q hr]
      exact AddressSpace.keepsLatched_none _
    · exact hs.2 q hq
  · exact fun s stack blob hs => ⟨hs.1.of_regions rfl, hs.2⟩

theorem Honest.next (h : t.Honest) {e : SpaceEvent ρ} (fresh : e.IsFresh) : (e.next t).Honest := by
  have hpassed := passed h.1 e
  refine ⟨hpassed.arranged, fun r' hr' => ?_⟩
  rcases hpassed.comes r' hr' with hadd | ⟨r, hr, hheeds⟩
  · unfold Region.Honors
    rw [fresh r' hadd]
    exact AddressSpace.keepsLatched_none _
  · exact hheeds.honors (h.2 r hr)

theorem Honest.history (h : t.Honest) {events : List (SpaceEvent ρ)} (fresh : ∀ e ∈ events, e.IsFresh) :
    (t.history events).Honest := by
  induction events generalizing t with
  | nil => exact h
  | cons e rest ih =>
    exact ih (h.next (fresh e List.mem_cons_self)) fun e' he' => fresh e' (List.mem_cons_of_mem _ he')

/-- What was requested of a region stays granted through all events, and stays requested wherever the region goes. Only
a request for regions to go, or one that fails, may lose a region. -/
theorem latched_permissions_kept (h : t.Started) {events : List (SpaceEvent ρ)} (fresh : ∀ e ∈ events, e.IsFresh) :
    (∀ r ∈ (t.history events).regions,
      (r.requested.contains .write = true → r.protection.contains .write = true) ∧
        (r.requested.contains .read = true → r.protection.meets .readWrite = true)) ∧
      ∀ before after, events = before ++ after → ∀ r ∈ (t.history before).regions,
        (∀ r', (t.history before).Follows r after r' → r'.requested.contains r.requested = true) ∧
          ∀ e, e.Spares (t.history before) → ∃ r', (t.history before).Follows r [e] r' := by
  refine ⟨fun r hr => AddressSpace.keepsLatched_iff.mp ((h.honest.history fresh).2 r hr), ?_⟩
  rintro before after rfl r hr
  have harranged := (h.honest.history fun e he => fresh e (List.mem_append_left _ he)).1
  refine ⟨fun r' hfollows => (Follows.heeds harranged hr hfollows).requested, fun e hspares => ?_⟩
  obtain ⟨r', hr', hstart⟩ := (passed harranged e).spares hspares r hr
  exact ⟨r', r', hr', hstart, rfl⟩

def firstUses : List (SpaceEvent Ledger) :=
  [.calleeStack 0x9000 0x100, .request (.add (.make 0x1000 0x10 .readWrite)), .request (.access 0x1008 .write)]

def laterUses : List (SpaceEvent Ledger) :=
  [.request (.defragment (.startingAt 0x1000) 0x10), .request (.protect (.startingAt 0x100000) .read)]

theorem latched_permissions_kept_stacked :
    stacked.Started ∧ (∀ e ∈ firstUses ++ laterUses, e.IsFresh) ∧
      (stacked.history (firstUses ++ laterUses)).regions =
        [⟨0x8000, 0x8000, 0x1000, .readWrite, .write⟩, ⟨0x100000, 0x100000, 0x10, .readWrite, .write⟩] ∧
      ∃ r ∈ (stacked.history firstUses).regions, ∃ r', (stacked.history firstUses).Follows r laterUses r' ∧
        r.start = 0x1000 ∧ r'.start = 0x100000 ∧ r'.requested.contains .write = true := by
  have hbuild : AddressSpace.build "kernel" .keyed (some (.make 0x8000 0x1000 .readWrite)) none = .ok stacked.space := rfl
  have hstarted : stacked.Started := ⟨_, _, _, _, hbuild, fun r hr => by rcases hr with hr | hr <;> cases hr; rfl⟩
  have fresh : ∀ e ∈ firstUses ++ laterUses, e.IsFresh := by
    intro e he r hadd
    subst hadd
    simp [firstUses, laterUses] at he
    rw [he]
    rfl
  have hmoved : (stacked.history firstUses).Follows ⟨0x1000, 0x1000, 0x10, .readWrite, .write⟩ laterUses
      ⟨0x100000, 0x100000, 0x10, .readWrite, .write⟩ :=
    ⟨⟨0x100000, 0x100000, 0x10, .readWrite, .write⟩, by decide +kernel, by decide +kernel,
      ⟨0x100000, 0x100000, 0x10, .readWrite, .write⟩, by decide +kernel, by decide +kernel, rfl⟩
  have hmem : (⟨0x1000, 0x1000, 0x10, .readWrite, .write⟩ : Region) ∈ (stacked.history firstUses).regions := by
    decide +kernel
  exact ⟨hstarted, fresh, by decide +kernel, _, hmem, _, hmoved, rfl, rfl,
    ((latched_permissions_kept hstarted fresh).2 firstUses laterUses rfl _ hmem).1 _ hmoved⟩

end Tracker

end RegionGuard

import RegionGuard.Proofs.LatchedPermissions
import RegionGuard.Proofs.RangeChecks
set_option autoImplicit false

/-!
# Regions that stay

The stack, the blob and every pinned region stay where they are, whatever an address space is asked for. Each request looks
whether a region is fixed before it takes the region out or changes its length, and a request that fails puts back no other
region than the one it has taken out.
-/

namespace RegionGuard

open Stateful

namespace AddressSpace

variable {s : AddressSpace} {w n : Word} {byPin : Bool}

/-- The region at a start is tracked with its length and is fixed there: by its pin, or as the stack or the blob. -/
structure Holds (w n : Word) (byPin : Bool) (s : AddressSpace) : Prop where
  ordered : s.regions.Ordered
  tracked : ∃ r ∈ s.regions.toList, r.start = w ∧ r.length = n ∧ (if byPin then r.isPinned else s.fixes w) = true

theorem isFixed_of_holds {r : Region} (hstart : r.start = w) (h : (if byPin then r.isPinned else s.fixes w) = true) :
    s.isFixed r = true := by
  rw [isFixed_eq, hstart]
  cases byPin with
  | true => exact Bool.or_eq_true_iff.mpr (.inl h)
  | false => exact Bool.or_eq_true_iff.mpr (.inr h)

namespace Holds

theorem start_ne (h : s.Holds w n byPin) {r : Region} (hr : r ∈ s.regions.toList) (hfree : s.isFixed r = false) :
    r.start ≠ w := by
  intro hstart
  obtain ⟨q, hq, hqstart, -, hfixed⟩ := h.tracked
  obtain rfl := h.ordered.rising.eq_of_start hr hq (hstart.trans hqstart.symm)
  exact Bool.noConfusion (hfree.symm.trans (isFixed_of_holds hqstart hfixed))

theorem of_mem (h : s.Holds w n byPin) {s' : AddressSpace} (hordered : s'.regions.Ordered) (hfixes : s'.fixes = s.fixes)
    (hmem : ∀ r ∈ s.regions.toList, r.start = w → r ∈ s'.regions.toList) : s'.Holds w n byPin := by
  obtain ⟨r, hr, hstart, hlength, hfixed⟩ := h.tracked
  exact ⟨hordered, r, hmem r hr hstart, hstart, hlength, hfixes ▸ hfixed⟩

theorem congr (h : s.Holds w n byPin) {s' : AddressSpace} (hregions : s'.regions = s.regions) (hfixes : s'.fixes = s.fixes) :
    s'.Holds w n byPin :=
  h.of_mem (hregions ▸ h.ordered) hfixes fun _ hr _ => hregions ▸ hr

/-- The region at a start may change as long as it stays there and, where it is held, keeps its length and its pin. -/
theorem modify (h : s.Holds w n byPin) {v : Word} {f : Region → Region}
    (hstart : ∀ r ∈ s.regions.toList, r.start = v → (f r).start = v)
    (hheld : ∀ r ∈ s.regions.toList, r.start = v → v = w →
      (f r).length = r.length ∧ (byPin = true → r.isPinned = true → (f r).isPinned = true)) :
    { s with regions := s.regions.modify v f }.Holds w n byPin := by
  obtain ⟨hordered, hlist⟩ := h.ordered.modify_eq hstart
  obtain ⟨r, hr, hw, hlength, hfixed⟩ := h.tracked
  refine ⟨hordered, ?_⟩
  by_cases hv : r.start = v
  · obtain ⟨hkept, hpin⟩ := hheld r hr hv (hv.symm.trans hw)
    refine ⟨f r, ?_, (hstart r hr hv).trans (hv.symm.trans hw), hkept.trans hlength, ?_⟩
    · rw [hlist]
      exact List.mem_map.mpr ⟨r, hr, if_pos hv⟩
    · cases byPin with
      | true => exact hpin rfl hfixed
      | false => exact hfixed
  · refine ⟨r, ?_, hw, hlength, hfixed⟩
    rw [hlist]
    exact List.mem_map.mpr ⟨r, hr, if_neg hv⟩

theorem latch (h : s.Holds w n byPin) (v : Word) (a : Access) :
    { s with regions := s.regions.modify v (·.latch a) }.Holds w n byPin :=
  h.modify (fun _ _ hv => hv) fun _ _ _ _ => ⟨rfl, fun _ hpin => hpin⟩

theorem latchFixed (h : s.Holds w n byPin) (a : Access) (f : FixedRegion) :
    (AddressSpace.latchFixed a s f).1.Holds w n byPin := by
  cases f with
  | tracked start => exact h.latch start a
  | released r => exact h

theorem latchStack (h : s.Holds w n byPin) (a : Access) : (AddressSpace.latchStack a s).Holds w n byPin := by
  have hfixes := fixes_latchStack a s
  unfold AddressSpace.latchStack at hfixes ⊢
  cases hf : s.stack with
  | none => exact h
  | some f =>
    rw [hf] at hfixes
    refine (h.latchFixed a f).congr rfl (hfixes.trans ?_)
    unfold AddressSpace.fixes
    rw [(latchFixed_start a s f).2.1, (latchFixed_start a s f).2.2]

theorem latchBlob (h : s.Holds w n byPin) (a : Access) : (AddressSpace.latchBlob a s).Holds w n byPin := by
  have hfixes := fixes_latchBlob a s
  unfold AddressSpace.latchBlob at hfixes ⊢
  cases hf : s.blob with
  | none => exact h
  | some f =>
    rw [hf] at hfixes
    refine (h.latchFixed a f).congr rfl (hfixes.trans ?_)
    unfold AddressSpace.fixes
    rw [(latchFixed_start a s f).2.1, (latchFixed_start a s f).2.2]

theorem switchedOut (h : s.Holds w n byPin) (thread : Word) : (AddressSpace.switchedOut thread s).Holds w n byPin := by
  unfold AddressSpace.switchedOut
  split
  · exact h.congr rfl rfl
  · exact h

theorem remove (h : s.Holds w n byPin) {r : Region} (hr : r ∈ s.regions.toList) (hfree : s.isFixed r = false)
    {x : RegionIndex} (hremove : s.regions.remove? r .byStart = some (r, x)) : { s with regions := x }.Holds w n byPin := by
  obtain ⟨y, -, hremove', hordered, hlist⟩ := h.ordered.remove?_self hr
  cases hremove.symm.trans hremove'
  refine h.of_mem hordered rfl fun q hq hstart => ?_
  change q ∈ x.toList
  rw [hlist, List.mem_filter]
  have hne : q.start ≠ r.start := fun heq => h.start_ne hr hfree (heq.symm.trans hstart)
  exact ⟨hq, by simpa using hne⟩

theorem insert (h : s.Holds w n byPin) {r : Region} {x : RegionIndex} (hinsert : s.regions.insert r = .ok x) :
    { s with regions := x }.Holds w n byPin := by
  rcases h.ordered.places r with ⟨-, hrefused⟩ | ⟨-, y, hplaced, hordered, hlist⟩
  · cases hrefused.symm.trans hinsert
  · cases hplaced.symm.trans hinsert
    refine h.of_mem hordered rfl fun q hq _ => ?_
    change q ∈ x.toList
    rw [hlist]
    exact (r.place_perm _).mem_iff.mpr (List.mem_cons_of_mem _ hq)

end Holds

theorem insert_holds (r : Region) : Maintains (Holds w n byPin) (.change fun s => do
    let regions ← s.regions.insert r
    return { s with regions := regions }) := by
  refine .change fun s s' hs hs' => ?_
  obtain ⟨x, hinsert, hx⟩ := bind_eq_ok.mp hs'
  cases hx
  exact hs.insert hinsert

theorem addRegion_holds (r : Region) : Maintains (Holds w n byPin) (addRegion r) :=
  .bind (.lift _) fun _ => .bind (.ask _) fun _ => .bind (insert_holds r) fun _ => .answer _

theorem removeRegion_holds (query : Region) (m : MatchMask) : Maintains (Holds w n byPin) (removeRegion query m) := by
  refine .of_leads fun s hs => ?_
  unfold removeRegion
  refine .bind (.inquire (fun r hr => ?_) fun _ _ => hs)
  have hmem := (hs.ordered.mem_of_findRegion hr).1
  refine .bind (.read (.refuse (fun _ => hs) fun hfree => .bind (.present (fun found hremove => ?_) fun _ => hs)))
  obtain ⟨x, -, hremove', -⟩ := hs.ordered.remove?_self hmem
  cases hremove'.symm.trans hremove
  exact .bind (.put (.answer (hs.remove hmem (Bool.eq_false_iff.mpr hfree) hremove)))

/-- A protection may replace another unless it takes away the pin that holds a region. -/
theorem protectRegion_holds {query : Region} {p : Protection}
    (hkeeps : byPin = true → query.start = w → p.contains .pin = true) :
    Maintains (Holds w n byPin) (protectRegion query p) := by
  refine .of_leads fun s hs => ?_
  unfold protectRegion
  refine .bind (.inquire (fun r hr => ?_) fun _ _ => hs)
  have hstart := Region.start_of_agrees (hs.ordered.mem_of_findRegion hr).2 rfl
  refine .branch (fun _ => .update (hs.modify (fun _ _ hv => hv) fun q _ _ hv => ⟨rfl, fun hpin _ => ?_⟩)) fun _ =>
    .bind (.stop hs)
  exact hkeeps hpin (hstart.symm.trans hv)

theorem pin_holds (address : Word) : Maintains (Holds w n byPin) (pin address) := by
  refine .of_leads fun s hs => ?_
  unfold pin
  refine .bind (.read (.bind (.present (fun r hr => ?_) fun _ => hs)))
  have hmem := (RegionIndex.mem_of_containing? hr).1
  refine .bind (.put (.answer (hs.modify (fun _ _ _ => rfl) fun q hq hv _ => ?_)))
  obtain rfl := hs.ordered.rising.eq_of_start hq hmem hv
  exact ⟨rfl, fun _ _ => (Protection.contains_bit_union (k := 4) rfl).mpr (.inr rfl)⟩

theorem requestPermission_holds (address : Word) (a : Access) :
    Maintains (Holds w n byPin) (requestPermission address a) := by
  refine .of_leads fun s hs => ?_
  unfold requestPermission
  refine .bind (.read (.branch (fun _ => .put (hs.latchStack a)) fun _ => .branch (fun _ => .put (hs.latchBlob a))
    fun _ => ?_))
  cases s.regionAt? address with
  | none => exact .raise hs
  | some r => exact .branch (fun _ => .put (hs.latch r.start a)) fun _ => .raise hs

theorem thread_holds (q : ThreadRequest) : Maintains (Holds w n byPin) q.perform := by
  cases q with
  | add thread => exact .of_leads fun _ hs => .bind (.read (.refuse (fun _ => hs) fun _ => .put (hs.congr rfl rfl)))
  | remove thread =>
    refine .of_leads fun s hs => .bind (.read (.require (fun _ => hs) fun _ => .put ?_))
    exact Holds.switchedOut (s := { s with threads := s.threads.erase thread }) (hs.congr rfl rfl) thread
  | switchIn thread => exact .of_leads fun _ hs => .bind (.read (.require (fun _ => hs) fun _ => .put (hs.congr rfl rfl)))
  | switchOut thread => exact .update fun _ hs => hs.switchedOut thread
  | fault f => exact .of_leads fun _ hs => .bind (.read (.raise hs))

theorem protectRegion_refused (s : AddressSpace) (query : Region) (p : Protection) :
    (protectRegion query p).Leads s (fun _ _ => True) fun _ s' => s' = s := by
  unfold protectRegion
  exact .bind (.inquire (fun _ _ => .branch (fun _ => .update trivial) fun _ => .bind (.stop rfl)) fun _ _ => rfl)

theorem holds_of_build {name : String} {kind : IndexKind} {stack blob : Option Region}
    (hbuild : build name kind stack blob = .ok s) {r : Region} (hr : stack = some r ∨ blob = some r) :
    s.Holds r.start r.length false := by
  have hjoins : ∀ {s : AddressSpace} (r : Region), s.Arranged →
      (do
        let added ← addRegion r
        return some (FixedRegion.tracked added.start) : Stateful AddressSpace (Option FixedRegion)).Leads s
          (fun f s' => s'.Arranged ∧ s.regions.toList ⊆ s'.regions.toList ∧
            ∀ q, some r = some q → f = some (.tracked q.start) ∧ q ∈ s'.regions.toList) fun _ _ => True := by
    intro s r hs
    refine .bind ((addRegion_joins hs r).mono (fun added s' hs' => .answer ?_) fun _ _ _ => trivial)
    obtain ⟨harranged, -, hmem, -, rfl⟩ := hs'
    refine ⟨harranged, fun q hq => (hmem q).mpr (.inr hq), fun q hq => ?_⟩
    cases hq
    exact ⟨rfl, (hmem _).mpr (.inl rfl)⟩
  unfold build at hbuild
  dsimp only at hbuild
  split at hbuild
  · rename_i first found built hrun
    cases hbuild
    have hempty : (empty name kind).Arranged :=
      arranged_of_nil (RegionIndex.ordered_empty kind) (RegionIndex.toList_empty kind)
    have hboth := Leads.ok (Q := fun fs s' => s'.Arranged ∧
      (∀ r, stack = some r → fs.1 = some (.tracked r.start) ∧ r ∈ s'.regions.toList) ∧
        ∀ r, blob = some r → fs.2 = some (.tracked r.start) ∧ r ∈ s'.regions.toList) (E := fun _ _ => True) ?_ hrun
    · obtain ⟨harranged, hstack, hblob⟩ := hboth
      have hmem : r ∈ built.regions.toList ∧ (first = some (.tracked r.start) ∨ found = some (.tracked r.start)) :=
        hr.elim (fun hr => ⟨(hstack r hr).2, .inl (hstack r hr).1⟩) fun hr => ⟨(hblob r hr).2, .inr (hblob r hr).1⟩
      refine ⟨harranged.ordered, r, hmem.1, rfl, rfl, List.any_eq_true.mpr ⟨.tracked r.start, ?_, beq_self_eq_true _⟩⟩
      exact List.mem_append.mpr (hmem.2.imp Option.mem_toList.mpr Option.mem_toList.mpr)
    · refine .bind (Leads.mono (Q := fun f s' => s'.Arranged ∧
        ∀ r, stack = some r → f = some (.tracked r.start) ∧ r ∈ s'.regions.toList) ?_
          (fun f s' hs' => .bind ?_) fun _ _ he => he)
      · cases stack with
        | none => exact .answer ⟨hempty, nofun⟩
        | some r => exact (hjoins r hempty).mono (fun _ _ hs' => ⟨hs'.1, hs'.2.2⟩) fun _ _ he => he
      · cases blob with
        | none => exact .answer (.answer ⟨hs'.1, hs'.2, nofun⟩)
        | some r =>
          refine (hjoins r hs'.1).mono (fun _ _ hs'' => .answer ⟨hs''.1, fun q hq => ?_, hs''.2.2⟩) fun _ _ he => he
          exact ⟨(hs'.2 q hq).1, hs''.2.1 (hs'.2 q hq).2⟩
  · cases hbuild

end AddressSpace

theorem Monitor.guardCalleeStack_holds {w n : Word} {byPin : Bool} (frameSize : Word) :
    Maintains (fun m : Monitor => m.space.Holds w n byPin) (guardCalleeStack frameSize) := by
  unfold guardCalleeStack
  refine .bind (.update fun _ hm => hm) fun _ => .inspect fun m _ => .bind (.present _ _) fun stack => ?_
  dsimp only
  refine .branch (fun _ => ?_) fun _ => .bind (.update fun _ hm => hm) fun _ => .raise _
  unfold onSpace onTracker Tracker.onSpace
  refine .zoom (J := fun t => t.space.Holds w n byPin) (.zoom (J := AddressSpace.Holds w n byPin) ?_ (fun _ h => h)
    fun _ _ _ h => h) (fun _ h => h) fun _ _ _ h => h
  exact .update fun _ h => h.latchStack .write

namespace Tracker

variable {ρ : Type} {t : Tracker ρ} {w n : Word} {byPin : Bool}

def Holds (w n : Word) (byPin : Bool) (t : Tracker ρ) : Prop := t.space.Holds w n byPin

theorem onSpace_holds {α : Type} {x : Stateful AddressSpace α} (hx : Maintains (AddressSpace.Holds w n byPin) x) :
    Maintains (Holds (ρ := ρ) w n byPin) (onSpace x) :=
  .zoom hx (fun _ h => h) fun _ _ _ h => h

theorem onRelocation_holds {α : Type} (x : Stateful ρ α) : Maintains (Holds w n byPin) (onRelocation x) :=
  fun _ h => h

theorem allocate_holds (f : Heap → Option (Word × Heap)) (shortage : MemoryShortage) :
    Maintains (Holds (ρ := ρ) w n byPin) (allocate f shortage) :=
  .of_leads fun _ h => allocate_leads (fun _ _ _ => h) fun _ => h

theorem Holds.restore (h : t.Holds w n byPin) (r : Region) : (restore r t).Holds w n byPin := by
  change AddressSpace.Holds w n byPin { t.space with regions := (t.space.regions.insert r).toOption.getD t.space.regions }
  cases hinsert : t.space.regions.insert r with
  | ok x => exact AddressSpace.Holds.insert h hinsert
  | error f => exact h

theorem Holds.setLength (h : t.Holds w n byPin) {start : Word} (hne : start ≠ w) (length : Word) :
    (setLength start length t).Holds w n byPin :=
  AddressSpace.Holds.modify h (fun _ _ hv => hv) fun _ _ _ hv => absurd hv hne

variable [Relocator ρ]

theorem moveRegion_holds (old new : Region) : Maintains (Holds (ρ := ρ) w n byPin) (moveRegion old new) := by
  refine .of_leads fun t h => ?_
  unfold moveRegion
  refine .bind (.mono (.each fun r _ => .require (fun _ => h) fun _ => .answer ⟨rfl, rfl⟩) (fun _ t' ht' => ?_)
    fun _ _ he => he)
  rw [ht']
  refine .bind (.read (.bind (.lift (fun r hr => ?_) fun _ _ => h)))
  refine .refuse (fun _ => h) fun hfree => .refuse (fun _ => h) fun _ => .bind (.update ?_)
  have hmem := (AddressSpace.Holds.ordered h).mem_of_findRegion hr
  obtain ⟨x, -, hremove, -⟩ := (AddressSpace.Holds.ordered h).remove?_self hmem.1
  have hout : Holds w n byPin (mapRegions (fun x => ((x.remove? r .byStart).map (·.2)).getD x) t) := by
    change AddressSpace.Holds w n byPin { t.space with
      regions := ((t.space.regions.remove? r .byStart).map (·.2)).getD t.space.regions }
    rw [hremove]
    exact AddressSpace.Holds.remove h hmem.1 (Bool.eq_false_iff.mpr hfree) hremove
  refine Maintains.leads (.bind (.onError (.bind (onSpace_holds (.ask _)) fun _ => onRelocation_holds _) fun _ ht' =>
    ht'.restore r) fun _ => ?_) hout
  exact .bind (onSpace_holds (AddressSpace.insert_holds _)) fun _ => .answer _

theorem moveToBlock_holds (old : Region) (destination : Word) :
    Maintains (Holds (ρ := ρ) w n byPin) (moveToBlock old destination) :=
  .bind (.onError (moveRegion_holds _ _) fun _ h => h) fun _ => .update fun _ h => h

theorem evictNeighbors_holds (start newStop : Word) (byForce : Bool) (rounds : Nat) :
    Maintains (Holds (ρ := ρ) w n byPin) (evictNeighbors start newStop byForce rounds) :=
  .of_leads fun _ h => (evictNeighbors_rounds (I := fun _ => Holds w n byPin) (E := fun _ => Holds w n byPin)
    (fun _ ht' => ht') (fun _ _ _ ht' => ht')
    (fun _ _ neighbor place _ ht' _ _ => (moveToBlock_holds neighbor place).leads ht') h).mono
      (fun _ _ ht' => ht'.1.elim fun _ hholds => hholds) fun _ _ ht' => ht'

theorem resizeRegion_holds (query : Region) (newSize : Word) (byForce : Bool) :
    Maintains (Holds (ρ := ρ) w n byPin) (resizeRegion query newSize byForce) := by
  refine .of_leads fun t h => ?_
  unfold resizeRegion
  refine .bind (.read (.bind (.lift (fun r hr => ?_) fun _ _ => h)))
  refine .branch (fun _ => .answer h) fun _ => .refuse (fun _ => h) fun _ => .refuse (fun _ => h) fun hfree => ?_
  have hmem := ((AddressSpace.Holds.ordered h).mem_of_findRegion hr).1
  have hne : r.start ≠ w := AddressSpace.Holds.start_ne h hmem (Bool.eq_false_iff.mpr hfree)
  refine Maintains.leads (.branch (fun _ => ?shrink) fun _ => ?grow) h
  case shrink =>
    exact .bind (.update fun _ ht' => ht') fun _ => .bind (.update fun _ ht' => ht'.setLength hne _) fun _ => .answer _
  case grow =>
    unfold growRegion
    refine .bind (.present _ _) fun newStop => .inspect fun t' _ => .bind (evictNeighbors_holds _ _ _ _) fun _ => ?_
    refine .bind (allocate_holds _ _) fun granted => .refuse fun _ => .inspect fun t' _ => ?_
    exact .bind (.update fun _ ht' => ht'.setLength hne _) fun _ => .answer _

theorem defragmentRegion_holds (query : Region) (newSize : Word) :
    Maintains (Holds (ρ := ρ) w n byPin) (defragmentRegion query newSize) :=
  .inspect fun _ _ => .bind (.lift _) fun _ => .refuse fun _ => .refuse fun _ =>
    .bind (allocate_holds _ _) fun _ => .bind (moveToBlock_holds _ _) fun _ => .answer _

/-- Only the end of an address space lets go of what it holds, or a protection without the pin that holds it. -/
theorem perform_holds {q : SpaceRequest} (hq : q ≠ .destroy)
    (hkeeps : ∀ query p, q = .protect query p → byPin = true → query.start = w → p.contains .pin = true) :
    Maintains (Holds (ρ := ρ) w n byPin) q.perform := by
  have finish : ∀ {α : Type} {x : Stateful (Tracker ρ) α}, Maintains (Holds w n byPin) x →
      Maintains (Holds w n byPin) (x >>= fun _ => pure ()) :=
    fun hx => .bind hx fun _ => .answer _
  cases q with
  | add r => exact finish (onSpace_holds (AddressSpace.addRegion_holds r))
  | remove query m => exact finish (onSpace_holds (AddressSpace.removeRegion_holds query m))
  | protect query p => exact onSpace_holds (AddressSpace.protectRegion_holds (hkeeps query p rfl))
  | pin address => exact finish (onSpace_holds (AddressSpace.pin_holds address))
  | access address a => exact onSpace_holds (AddressSpace.requestPermission_holds address a)
  | move old new => exact finish (moveRegion_holds old new)
  | resize query newSize byForce => exact finish (resizeRegion_holds query newSize byForce)
  | defragment query newSize => exact finish (defragmentRegion_holds query newSize)
  | destroy => exact absurd rfl hq

end Tracker

namespace SpaceEvent

variable {ρ : Type} [Relocator ρ]

/-- Whether an event takes the pin of the region at a start: it is a request for another protection, and it succeeds. -/
def Unpins (w : Word) (e : SpaceEvent ρ) (t : Tracker ρ) : Prop :=
  ∃ query p, e = request (.protect query p) ∧ query.start = w ∧ p.contains .pin = false ∧
    ((SpaceRequest.protect query p).perform.runFrom t).1 = .ok ()

end SpaceEvent

namespace Tracker

variable {ρ : Type} [Relocator ρ] {t : Tracker ρ} {w n : Word} {byPin : Bool}

theorem protect_refused (t : Tracker ρ) {query : Region} {p : Protection}
    (hrefused : ((SpaceRequest.protect query p).perform.runFrom t).1 ≠ .ok ()) :
    ((SpaceRequest.protect query p).perform.runFrom t).2 = t := by
  have hleads : (SpaceRequest.protect query p).perform.Leads t (fun _ _ => True) fun _ t' => t' = t := by
    unfold SpaceRequest.perform onSpace
    refine .zoom ((AddressSpace.protectRegion_refused t.space query p).mono (fun _ _ _ => trivial) fun _ s' hs' => ?_)
    rw [hs']
  cases hrun : (SpaceRequest.protect query p).perform.runFrom t with
  | mk o t' =>
    cases o with
    | ok u => exact absurd (congrArg Prod.fst hrun) hrefused
    | error f => exact hleads.error hrun

/-- Every event but the end of an address space keeps what is held, unless it takes the pin that holds it. -/
theorem Holds.next (h : t.Holds w n byPin) {e : SpaceEvent ρ} (hlasting : e ≠ .request .destroy)
    (hpin : byPin = true → ¬ e.Unpins w t) : (e.next t).Holds w n byPin := by
  cases e with
  | request q =>
    by_cases hkeeps : ∀ query p, q = .protect query p → byPin = true → query.start = w → p.contains .pin = true
    · exact perform_holds (fun hq => hlasting (congrArg _ hq)) hkeeps t h
    · simp only [not_forall] at hkeeps
      obtain ⟨query, p, rfl, hby, hstart, hclear⟩ := hkeeps
      have hrefused : ((SpaceRequest.protect query p).perform.runFrom t).1 ≠ .ok () := fun hok =>
        hpin hby ⟨query, p, rfl, hstart, Bool.eq_false_iff.mpr hclear, hok⟩
      change Holds w n byPin ((SpaceRequest.protect query p).perform.runFrom t).2
      rw [protect_refused t hrefused]
      exact h
  | thread q => exact AddressSpace.thread_holds q t.space h
  | calleeStack stackPointer frameSize =>
    exact Monitor.guardCalleeStack_holds frameSize { Monitor.make t.space t.heap with stackPointer := stackPointer } h
  | host heap => exact h
  | memory x => exact h

theorem Holds.history (h : t.Holds w n byPin) {events : List (SpaceEvent ρ)} (hlasting : .request .destroy ∉ events)
    (hpin : byPin = true → ∀ before e after, events = before ++ e :: after → ¬ e.Unpins w (t.history before)) :
    (t.history events).Holds w n byPin := by
  induction events generalizing t with
  | nil => exact h
  | cons e rest ih =>
    obtain ⟨hfirst, hrest⟩ := not_or.mp (mt List.mem_cons.mpr hlasting)
    have hnext := h.next (fun he => hfirst he.symm) fun hby => hpin hby [] e rest rfl
    refine ih hnext hrest fun hby before e' after hsplit => ?_
    exact hpin hby (e :: before) e' after (congrArg (e :: ·) hsplit)

/-- As long as an address space is not destroyed, its stack and its blob stay tracked where they start and as long as they
are, and so does every region that is pinned, until its pin is taken: whatever is asked for, of the region itself or of
another, and whether it succeeds or not. -/
theorem fixed_regions_stay {name : String} {kind : IndexKind} {stack blob : Option Region}
    (hbuild : AddressSpace.build name kind stack blob = .ok t.space) {events : List (SpaceEvent ρ)}
    (hlasting : .request .destroy ∉ events) :
    (∀ r, stack = some r ∨ blob = some r →
      ∃ r' ∈ (t.history events).regions, r'.start = r.start ∧ r'.length = r.length) ∧
      ∀ before after, events = before ++ after → ∀ r ∈ (t.history before).regions, r.isPinned = true →
        (∀ since e rest, after = since ++ e :: rest → ¬ e.Unpins r.start (t.history (before ++ since))) →
        ∃ r' ∈ (t.history events).regions, r'.start = r.start ∧ r'.length = r.length ∧ r'.isPinned = true := by
  refine ⟨fun r hr => ?_, ?_⟩
  · have hholds : t.Holds r.start r.length false := AddressSpace.holds_of_build hbuild hr
    obtain ⟨r', hr', hstart, hlength, -⟩ := (hholds.history hlasting nofun).tracked
    exact ⟨r', hr', hstart, hlength⟩
  · rintro before after rfl r hr hpinned hpin
    have hordered := (arranged_history (AddressSpace.sound_of_build hbuild).arranged before).ordered
    have hholds : (t.history before).Holds r.start r.length true := ⟨hordered, r, hr, rfl, rfl, hpinned⟩
    have happend : ∀ since : List (SpaceEvent ρ), t.history (before ++ since) = (t.history before).history since :=
      fun since => List.foldl_append
    have hafter := hholds.history (fun hmem => hlasting (List.mem_append_right _ hmem)) fun _ since e rest hsplit =>
      happend since ▸ hpin since e rest hsplit
    rw [happend]
    exact hafter.tracked

def pinning : List (SpaceEvent Ledger) := [.request (.add (.make 0x9000 0x10 .readWrite)), .request (.pin 0x9008)]

/-- The stack and the pinned region are asked to go, to move and to take other lengths. -/
def pushing : List (SpaceEvent Ledger) :=
  [.request (.resize (.startingAt 0x8000) 0x2000 true), .request (.remove (.startingAt 0x9000) .byStart),
    .request (.resize (.startingAt 0x9000) 8 false), .request (.defragment (.startingAt 0x9000) 0x20),
    .request (.move (.make 0x9000 0x10 .readWrite) (.make 0xA000 0x10 .readWrite)),
    .request (.remove (.startingAt 0x8000) .byStart)]

theorem fixed_regions_stay_pushed :
    AddressSpace.build "kernel" .keyed (some (.make 0x8000 0x1000 .readWrite)) none = .ok stacked.space ∧
      (∃ r ∈ (stacked.history (pinning ++ pushing)).regions, r.start = 0x8000 ∧ r.length = 0x1000) ∧
      ∃ r ∈ (stacked.history (pinning ++ pushing)).regions, r.start = 0x9000 ∧ r.length = 0x10 ∧ r.isPinned = true := by
  have hbuild : AddressSpace.build "kernel" .keyed (some (.make 0x8000 0x1000 .readWrite)) none = .ok stacked.space := rfl
  have hlasting : SpaceEvent.request .destroy ∉ pinning ++ pushing := by simp [pinning, pushing]
  obtain ⟨hfixed, hpinned⟩ := fixed_regions_stay hbuild hlasting
  refine ⟨hbuild, hfixed _ (.inl rfl), ?_⟩
  have hmem : (⟨0x9000, 0x9000, 0x10, .readWrite ∪ .pin, .none⟩ : Region) ∈ (stacked.history pinning).regions := by
    decide +kernel
  refine hpinned pinning pushing rfl _ hmem (by decide) fun since e rest hsplit => ?_
  rintro ⟨query, p, rfl, -⟩
  have hpushed : SpaceEvent.request (.protect query p) ∈ pushing := hsplit ▸ List.mem_append_right _ List.mem_cons_self
  simp [pushing] at hpushed

end Tracker

end RegionGuard

import Mathlib.Data.List.Induction
import RegionGuard.Proofs.LatchedPermissions
import RegionGuard.Proofs.RangeChecks
set_option autoImplicit false

namespace RegionGuard

open Stateful

namespace AddressSpace

variable {s : AddressSpace} {thread : Word}

def HasThreads (threads : List Word) (current : Word) (s : AddressSpace) : Prop :=
  s.threads = threads ∧ s.current = current

theorem isSteady_hasThreads (threads : List Word) (current : Word) : IsSteady (HasThreads threads current) where
  regions _ _ hs := hs
  latchStack s a hs := by
    unfold latchStack
    cases s.stack with
    | none => exact hs
    | some f =>
      cases f with
      | tracked start => exact hs
      | released r => exact hs
  latchBlob s a hs := by
    unfold latchBlob
    cases s.blob with
    | none => exact hs
    | some f =>
      cases f with
      | tracked start => exact hs
      | released r => exact hs

theorem hasThreads_of_build {name : String} {kind : IndexKind} {stack blob : Option Region}
    (h : build name kind stack blob = .ok s) : s.HasThreads [] noThread := by
  refine build_induction (I := HasThreads [] noThread) ⟨rfl, rfl⟩ (fun s r _ hs => ?_) (fun _ _ _ hs => hs) h
  exact ((addRegion_steady (isSteady_hasThreads _ _) r).leads hs).mono (fun _ _ hs' => hs') fun _ _ _ => trivial

theorem currentThread?_eq_some_iff : s.currentThread? = some thread ↔ s.current = thread ∧ thread ≠ noThread := by
  unfold currentThread?
  split
  · rename_i h
    constructor
    · intro hsome
      cases hsome
    · rintro ⟨rfl, hne⟩
      exact absurd h hne
  · rename_i h
    rw [Option.some.injEq]
    constructor
    · rintro rfl
      exact ⟨rfl, h⟩
    · exact And.left

theorem runFrom_addThread (thread : Word) (s : AddressSpace) : (addThread thread).runFrom s =
    if thread ∈ s.threads then (.error (.error (.request (.threadPresent thread s.name))), s)
    else (.ok (), { s with threads := s.threads ++ [thread] }) := by
  unfold addThread
  rw [runFrom_get_bind]
  by_cases h : thread ∈ s.threads
  · simp [h, runFrom_bind]
  · simp [h]

theorem runFrom_removeThread (thread : Word) (s : AddressSpace) : (removeThread thread).runFrom s =
    if thread ∈ s.threads then (.ok (), switchedOut thread { s with threads := s.threads.erase thread })
    else (.error (.error (.request (.threadAbsent thread s.name))), s) := by
  unfold removeThread
  rw [runFrom_get_bind]
  by_cases h : thread ∈ s.threads
  · simp [h]
  · simp [h, runFrom_bind]

theorem runFrom_switchIn (thread : Word) (s : AddressSpace) : (switchIn thread).runFrom s =
    if thread ∈ s.threads then (.ok (), { s with current := thread })
    else (.error (.error (.request (.threadAbsent thread s.name))), s) := by
  unfold switchIn
  rw [runFrom_get_bind]
  by_cases h : thread ∈ s.threads
  · simp [h]
  · simp [h, runFrom_bind]

theorem removeThread_succeeds_iff : ((removeThread thread).runFrom s).1 = .ok () ↔ thread ∈ s.threads := by
  rw [runFrom_removeThread]
  split
  · exact iff_of_true rfl ‹_›
  · exact iff_of_false nofun ‹_›

theorem switchIn_succeeds_iff : ((switchIn thread).runFrom s).1 = .ok () ↔ thread ∈ s.threads := by
  rw [runFrom_switchIn]
  split
  · exact iff_of_true rfl ‹_›
  · exact iff_of_false nofun ‹_›

theorem threads_switchedOut (thread : Word) (s : AddressSpace) : (switchedOut thread s).threads = s.threads := by
  unfold switchedOut
  split
  · rfl
  · rfl

theorem currentThread?_switchedOut {other : Word} (s : AddressSpace) :
    (switchedOut other s).currentThread? = some thread ↔ s.currentThread? = some thread ∧ other ≠ thread := by
  rw [currentThread?_eq_some_iff, currentThread?_eq_some_iff]
  unfold switchedOut
  split
  · rename_i h
    constructor
    · rintro ⟨rfl, hne⟩
      exact absurd rfl hne
    · rintro ⟨⟨rfl, -⟩, hne⟩
      exact absurd h.symm hne
  · rename_i h
    constructor
    · rintro ⟨rfl, hne⟩
      exact ⟨⟨rfl, hne⟩, fun heq => h heq.symm⟩
    · exact And.left

theorem currentThread?_addThread (thread : Word) (s : AddressSpace) :
    ((addThread thread).runFrom s).2.currentThread? = s.currentThread? := by
  rw [runFrom_addThread]
  split
  · rfl
  · rfl

theorem currentThread?_removeThread {other : Word} (s : AddressSpace) :
    ((removeThread other).runFrom s).2.currentThread? = some thread ↔
      s.currentThread? = some thread ∧ ¬ (other = thread ∧ thread ∈ s.threads) := by
  rw [runFrom_removeThread]
  split
  · rename_i hmem
    have hsame : (other = thread ∧ thread ∈ s.threads) ↔ other = thread := and_iff_left_of_imp fun h => h ▸ hmem
    rw [hsame]
    exact currentThread?_switchedOut _
  · rename_i hmem
    have hnever : ¬ (other = thread ∧ thread ∈ s.threads) := fun h => hmem (h.1 ▸ h.2)
    exact (and_iff_left hnever).symm

theorem currentThread?_switchIn {other : Word} (s : AddressSpace) :
    ((switchIn other).runFrom s).2.currentThread? = some thread ↔
      ((other = thread ∧ thread ∈ s.threads) ∧ thread ≠ noThread) ∨
        (s.currentThread? = some thread ∧ other ∉ s.threads) := by
  rw [runFrom_switchIn]
  split
  · rename_i hmem
    have hsame : (other = thread ∧ thread ∈ s.threads) ↔ other = thread := and_iff_left_of_imp fun h => h ▸ hmem
    rw [hsame, currentThread?_eq_some_iff]
    exact (or_iff_left fun h => h.2 hmem).symm
  · rename_i hmem
    have hnever : ¬ (other = thread ∧ thread ∈ s.threads) := fun h => hmem (h.1 ▸ h.2)
    simp [hnever, hmem]

structure ListsThreads (s : AddressSpace) : Prop where
  nodup : s.threads.Nodup
  current : ∀ thread, s.currentThread? = some thread → thread ∈ s.threads

theorem HasThreads.listsThreads {s' : AddressSpace} (h : s'.HasThreads s.threads s.current) (hs : s.ListsThreads) :
    s'.ListsThreads where
  nodup := h.1 ▸ hs.nodup
  current thread hthread := by
    rw [currentThread?_eq_some_iff, h.2] at hthread
    rw [h.1]
    exact hs.current thread (currentThread?_eq_some_iff.mpr hthread)

theorem ListsThreads.switchedOut (h : s.ListsThreads) (thread : Word) : (switchedOut thread s).ListsThreads where
  nodup := by
    rw [threads_switchedOut]
    exact h.nodup
  current other hother := by
    rw [threads_switchedOut]
    exact h.current other ((currentThread?_switchedOut s).mp hother).1

theorem ListsThreads.perform (h : s.ListsThreads) (q : ThreadRequest) : (q.perform.runFrom s).2.ListsThreads := by
  unfold ThreadRequest.perform
  cases q with
  | add thread =>
    dsimp only
    rw [runFrom_addThread]
    split
    · exact h
    · rename_i hnew
      refine ⟨List.nodup_append.mpr ⟨h.nodup, List.pairwise_singleton _ _, fun a ha b hb heq => ?_⟩, fun other hother => ?_⟩
      · rw [List.mem_singleton.mp hb] at heq
        exact hnew (heq ▸ ha)
      · exact List.mem_append_left _ (h.current other hother)
  | remove thread =>
    dsimp only
    rw [runFrom_removeThread]
    split
    · refine ⟨?_, fun other hother => ?_⟩
      · rw [threads_switchedOut]
        exact h.nodup.erase thread
      · -- The thread that goes is not the current one any more, and no other thread goes with it.
        obtain ⟨hcurrent, hne⟩ := (currentThread?_switchedOut _).mp hother
        rw [threads_switchedOut]
        exact (List.mem_erase_of_ne hne.symm).mpr (h.current other hcurrent)
    · exact h
  | switchIn thread =>
    dsimp only
    rw [runFrom_switchIn]
    split
    · rename_i hmem
      refine ⟨h.nodup, fun other hother => ?_⟩
      obtain ⟨hsame, -⟩ := currentThread?_eq_some_iff.mp hother
      exact hsame ▸ hmem
    · exact h
  | switchOut thread => exact h.switchedOut thread
  | fault f => exact h

end AddressSpace

theorem Monitor.guardCalleeStack_steady {I : AddressSpace → Prop} (hI : AddressSpace.IsSteady I) (frameSize : Word) :
    Maintains (fun m : Monitor => I m.space) (guardCalleeStack frameSize) := by
  unfold guardCalleeStack
  refine .bind (.update fun _ h => h) fun _ => .inspect fun m _ => .bind (.present _ _) fun stack => ?_
  refine .branch (fun _ => ?_) fun _ => .bind (.update fun _ h => h) fun _ => .raise _
  exact .zoom (Tracker.onSpace_steady (.update fun s h => hI.latchStack s _ h)) (fun _ h => h) fun _ _ _ h => h

namespace SpaceEvent

variable {ρ : Type} {w : Word} {e : SpaceEvent ρ} {t : Tracker ρ}

def SwitchesIn (w : Word) (e : SpaceEvent ρ) (t : Tracker ρ) : Prop :=
  e = .thread (.switchIn w) ∧ ((ThreadRequest.switchIn w).perform.runFrom t.space).1 = .ok ()

def Displaces (w : Word) (e : SpaceEvent ρ) (t : Tracker ρ) : Prop :=
  (∃ v, e.SwitchesIn v t) ∨ e = .thread (.switchOut w) ∨
    (e = .thread (.remove w) ∧ ((ThreadRequest.remove w).perform.runFrom t.space).1 = .ok ()) ∨
    e = .request .destroy

theorem switchesIn_iff {q : ThreadRequest} :
    (thread q : SpaceEvent ρ).SwitchesIn w t ↔ q = .switchIn w ∧ w ∈ t.space.threads := by
  unfold SwitchesIn
  rw [SpaceEvent.thread.injEq]
  exact and_congr_right fun _ => AddressSpace.switchIn_succeeds_iff

theorem displaces_iff {q : ThreadRequest} : (thread q : SpaceEvent ρ).Displaces w t ↔
    (∃ v, q = .switchIn v ∧ v ∈ t.space.threads) ∨ q = .switchOut w ∨ (q = .remove w ∧ w ∈ t.space.threads) := by
  unfold Displaces
  have hremove : ((ThreadRequest.remove w).perform.runFrom t.space).1 = .ok () ↔ w ∈ t.space.threads :=
    AddressSpace.removeThread_succeeds_iff
  simp [switchesIn_iff, hremove]

variable [Relocator ρ]

theorem hasThreads_next (hthread : ∀ q, e ≠ .thread q) (hdestroy : e ≠ .request .destroy) (t : Tracker ρ) :
    (e.next t).space.HasThreads t.space.threads t.space.current := by
  have hsteady := AddressSpace.isSteady_hasThreads t.space.threads t.space.current
  cases e with
  | request q =>
    have hq : q ≠ .destroy := fun h => hdestroy (congrArg _ h)
    exact Tracker.perform_steady hsteady hq t ⟨rfl, rfl⟩
  | thread q => exact absurd rfl (hthread q)
  | calleeStack stackPointer frameSize =>
    exact Monitor.guardCalleeStack_steady hsteady frameSize { Monitor.make t.space t.heap with stackPointer } ⟨rfl, rfl⟩
  | host heap => exact ⟨rfl, rfl⟩
  | memory x => exact ⟨rfl, rfl⟩

theorem listsThreads_next (h : t.space.ListsThreads) (e : SpaceEvent ρ) : (e.next t).space.ListsThreads := by
  by_cases hthread : ∃ q, e = .thread q
  · obtain ⟨q, rfl⟩ := hthread
    exact h.perform q
  · by_cases hdestroy : e = .request .destroy
    · subst hdestroy
      exact ⟨List.nodup_nil, fun _ hnone => nomatch hnone⟩
    · exact (hasThreads_next (fun q hq => hthread ⟨q, hq⟩) hdestroy t).listsThreads h

theorem currentThread?_next (e : SpaceEvent ρ) (t : Tracker ρ) : (e.next t).space.currentThread? = some w ↔
    (e.SwitchesIn w t ∧ w ≠ AddressSpace.noThread) ∨ (t.space.currentThread? = some w ∧ ¬ e.Displaces w t) := by
  by_cases hthread : ∃ q, e = .thread q
  · obtain ⟨q, rfl⟩ := hthread
    change (q.perform.runFrom t.space).2.currentThread? = some w ↔ _
    rw [switchesIn_iff, displaces_iff]
    unfold ThreadRequest.perform
    cases q with
    | add v =>
      dsimp only
      rw [AddressSpace.currentThread?_addThread]
      simp
    | remove v =>
      dsimp only
      rw [AddressSpace.currentThread?_removeThread]
      simp
    | switchIn v =>
      dsimp only
      rw [AddressSpace.currentThread?_switchIn]
      simp
    | switchOut v =>
      change (AddressSpace.switchedOut v t.space).currentThread? = some w ↔ _
      rw [AddressSpace.currentThread?_switchedOut]
      simp
    | fault f =>
      change t.space.currentThread? = some w ↔ _
      simp
  · have hin : ∀ v, ¬ e.SwitchesIn v t := fun v h => hthread ⟨_, h.1⟩
    by_cases hdestroy : e = .request .destroy
    · subst hdestroy
      exact iff_of_false nofun (by simp [hin, Displaces])
    · have hstays : ¬ e.Displaces w t := by
        rintro (⟨v, h⟩ | h | ⟨h, -⟩ | h)
        · exact hin v h
        · exact hthread ⟨_, h⟩
        · exact hthread ⟨_, h⟩
        · exact hdestroy h
      have hcurrent := (hasThreads_next (fun q hq => hthread ⟨q, hq⟩) hdestroy t).2
      rw [AddressSpace.currentThread?_eq_some_iff, hcurrent, ← AddressSpace.currentThread?_eq_some_iff]
      simp [hin, hstays]

end SpaceEvent

namespace Tracker

variable {ρ : Type} [Relocator ρ] {w : Word} {t : Tracker ρ}

def Leaves (w : Word) : Tracker ρ → List (SpaceEvent ρ) → Prop
  | _, [] => True
  | t, e :: rest => ¬ e.Displaces w t ∧ Leaves w (e.next t) rest

/-- Whether a thread was the last one to be switched in, and neither it nor the address space has gone since. -/
def IsSwitchedIn (w : Word) (t : Tracker ρ) (events : List (SpaceEvent ρ)) : Prop :=
  ∃ before e after, events = before ++ e :: after ∧ e.SwitchesIn w (t.history before) ∧
    Leaves w (e.next (t.history before)) after

theorem history_append (before after : List (SpaceEvent ρ)) :
    t.history (before ++ after) = (t.history before).history after := List.foldl_append

theorem leaves_concat {events : List (SpaceEvent ρ)} {e : SpaceEvent ρ} :
    Leaves w t (events ++ [e]) ↔ Leaves w t events ∧ ¬ e.Displaces w (t.history events) := by
  induction events generalizing t with
  | nil => exact and_comm
  | cons e' rest ih => exact (and_congr_right fun _ => ih).trans and_assoc.symm

theorem isSwitchedIn_concat {events : List (SpaceEvent ρ)} {e : SpaceEvent ρ} :
    t.IsSwitchedIn w (events ++ [e]) ↔
      e.SwitchesIn w (t.history events) ∨ (t.IsSwitchedIn w events ∧ ¬ e.Displaces w (t.history events)) := by
  constructor
  · rintro ⟨before, e', after, hevents, hin, hleaves⟩
    rcases List.eq_nil_or_concat after with rfl | ⟨rest, last, rfl⟩
    · obtain ⟨rfl, hlast⟩ := List.append_inj' hevents rfl
      cases hlast
      exact .inl hin
    · rw [List.concat_eq_append, ← List.cons_append, ← List.append_assoc] at hevents
      obtain ⟨rfl, hlast⟩ := List.append_inj' hevents rfl
      cases hlast
      rw [List.concat_eq_append, leaves_concat] at hleaves
      rw [history_append]
      exact .inr ⟨⟨before, e', rest, rfl, hin, hleaves.1⟩, hleaves.2⟩
  · rintro (hin | ⟨⟨before, e', after, rfl, hin, hleaves⟩, hstays⟩)
    · exact ⟨events, e, [], rfl, hin, trivial⟩
    · rw [history_append] at hstays
      exact ⟨before, e', after ++ [e], by rw [List.append_assoc]; rfl, hin, leaves_concat.mpr ⟨hleaves, hstays⟩⟩

/-- Whatever happens to an address space, its threads are listed once each, the current one is listed, and it is the one
that was switched in last and neither switched out nor removed since. The largest number is never the current thread. -/
theorem current_thread_is_last_switched_in {name : String} {kind : IndexKind} {stack blob : Option Region}
    (h : AddressSpace.build name kind stack blob = .ok t.space) (events : List (SpaceEvent ρ)) :
    (t.history events).space.threads.Nodup ∧
      (∀ w, (t.history events).space.currentThread? = some w → w ∈ (t.history events).space.threads) ∧
      ∀ w, (t.history events).space.currentThread? = some w ↔ t.IsSwitchedIn w events ∧ w ≠ AddressSpace.noThread := by
  have hbuilt := AddressSpace.hasThreads_of_build h
  have hlists : (t.history events).space.ListsThreads ∧ ∀ w, (t.history events).space.currentThread? = some w ↔
      t.IsSwitchedIn w events ∧ w ≠ AddressSpace.noThread := by
    induction events using List.reverseRecOn with
    | nil =>
      have hnone : t.space.currentThread? = none := if_pos hbuilt.2
      refine ⟨⟨hbuilt.1 ▸ List.nodup_nil, fun w hw => ?_⟩, fun w => iff_of_false ?_ ?_⟩
      · cases hnone.symm.trans hw
      · intro hw
        cases hnone.symm.trans hw
      · rintro ⟨⟨before, e, after, hevents, -⟩, -⟩
        exact List.append_ne_nil_of_right_ne_nil before (List.cons_ne_nil e after) hevents.symm
    | append_singleton events e ih =>
      have hnext : t.history (events ++ [e]) = e.next (t.history events) := history_append events [e]
      rw [hnext]
      refine ⟨SpaceEvent.listsThreads_next ih.1 e, fun w => ?_⟩
      rw [SpaceEvent.currentThread?_next, ih.2, isSwitchedIn_concat]
      tauto
  exact ⟨hlists.1.nodup, hlists.1.current, hlists.2⟩

/-- Two threads are added, one is switched in, and the other one comes and goes. -/
def shifts : List (SpaceEvent Ledger) :=
  [.thread (.add 7), .thread (.add 9), .thread (.switchIn 9), .thread (.switchIn 7), .thread (.add 7),
    .thread (.switchOut 9), .thread (.remove 9), .thread (.switchIn 9), .request (.access 0x8010 .write)]

theorem current_thread_is_seven :
    AddressSpace.build "kernel" .keyed (some (.make 0x8000 0x1000 .readWrite)) none = .ok stacked.space ∧
      (stacked.history shifts).space.threads = [7] ∧ stacked.IsSwitchedIn 7 shifts := by
  have hbuild : AddressSpace.build "kernel" .keyed (some (.make 0x8000 0x1000 .readWrite)) none = .ok stacked.space := rfl
  have hcurrent : (stacked.history shifts).space.currentThread? = some 7 := by decide +kernel
  exact ⟨hbuild, by decide +kernel, (((current_thread_is_last_switched_in hbuild shifts).2.2 7).mp hcurrent).1⟩

theorem largest_thread_unseen :
    (stacked.history [.thread (.add Word.maximum), .thread (.switchIn Word.maximum)]).space.threads = [Word.maximum] ∧
      stacked.IsSwitchedIn Word.maximum [.thread (.add Word.maximum), .thread (.switchIn Word.maximum)] ∧
      (stacked.history [.thread (.add Word.maximum), .thread (.switchIn Word.maximum)]).space.currentThread? = none :=
  ⟨by decide +kernel, ⟨[.thread (.add Word.maximum)], _, [], rfl, ⟨rfl, by decide +kernel⟩, trivial⟩, by decide +kernel⟩

end Tracker

end RegionGuard

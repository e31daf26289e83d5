import RegionGuard.Proofs.Approaches
import RegionGuard.Proofs.ImageLayouts
import RegionGuard.Proofs.Lodgings
import RegionGuard.Proofs.Registrations
set_option autoImplicit false

/-!
# Globals in runs

A run that starts where the globals are registered registers each of them once and in order, before it executes any
instruction of the program. No registration fails, as long as the globals keep clear of the text and the stack. That is all
there is to it, as long as the run does not come back to where it started. It does not when neither an edge nor a call leads
there, but nothing keeps a program from having one.
-/

namespace RegionGuard

open Stateful

/-- One stretch of memory, given by its start and its length, ends before another one begins. -/
def EndsBefore (e g : Word × Word) : Prop := e.1.toNat + e.2.toNat ≤ g.1.toNat

namespace Monitor

variable {m m' : Monitor} {g : Word × Word} {l : List (Word × Word)}

/-- Some stretches of memory, one behind the other, are clear of all that is tracked. -/
structure HasRoom (l : List (Word × Word)) (m : Monitor) : Prop where
  arranged : m.space.Arranged
  sized : ∀ g ∈ l, g.1 ≠ 0 ∧ g.2 ≠ 0 ∧ g.1.toNat + g.2.toNat < Word.modulus
  rising : l.Pairwise EndsBefore
  clear : ∀ e ∈ m.space.extents, ∀ g ∈ l, EndsBefore e g ∨ EndsBefore g e

theorem HasRoom.stays (h : m.HasRoom l) (hs : AddressSpace.Stays m.space m'.space) : m'.HasRoom l :=
  ⟨hs.arranged, h.sized, h.rising, hs.extents ▸ h.clear⟩

theorem HasRoom.guardAddress (h : m.HasRoom l) (address : Word) (isWrite : Bool) :
    (guardAddress address isWrite).Leads m (fun _ m' => m'.HasRoom l) fun _ _ => True := by
  unfold Monitor.guardAddress
  refine .bind (.update (.onError (onSpace_leads ?_)))
  refine (AddressSpace.requestPermission_stays h.arranged address _).mono (fun _ _ hs => h.stays hs) fun f _ _ => ?_
  cases f <;> trivial

theorem HasRoom.guardCalleeStack (h : m.HasRoom l) (frameSize : Word) :
    (guardCalleeStack frameSize).Leads m (fun _ m' => m'.HasRoom l) fun _ _ => True :=
  (guardCalleeStack_stays m h.arranged frameSize).mono (fun _ _ hs => h.stays hs.1) fun _ _ _ => trivial

theorem HasRoom.guarding (room : m.HasRoom l) {h : Hooks} {name : String}
    (hname : name = h.guardAddress ∨ name = h.guardCalleeStack) (arguments : List Word) :
    ∃ x, (name, x) ∈ Machine.entryPoints h (Machine.argument name arguments) ∧
      x.Leads m (fun _ m' => m'.HasRoom l) fun _ _ => True := by
  rcases hname with rfl | rfl
  · refine ⟨_, List.mem_iff_getElem?.mpr ⟨6, rfl⟩, ?_⟩
    refine .bind (.present (fun address _ => .bind (.present (fun isWrite _ => ?_) fun _ => trivial)) fun _ => trivial)
    exact room.guardAddress address _
  · refine ⟨_, List.mem_iff_getElem?.mpr ⟨7, rfl⟩, ?_⟩
    exact .bind (.present (fun frameSize _ => room.guardCalleeStack frameSize) fun _ => trivial)

theorem HasRoom.notifyGlobal (h : m.HasRoom (g :: l)) (id : Word) :
    (notifyGlobal g.1 g.2 id).Leads m
      (fun _ m' => m'.HasRoom l ∧ m'.ledger = m.ledger.track g.1 g.2 (.global id) ∧ g ∈ m'.space.extents)
      fun _ _ => False := by
  obtain ⟨hnull, hsize, hfits⟩ := h.sized g List.mem_cons_self
  have hlawful : (Region.make g.1 g.2 dataProtection).Lawful := ⟨by simp [Region.make, Region.isIdentityMapped], hsize, hfits⟩
  have hclear : ∀ q ∈ m.space.regions.toList, q.start < (Region.make g.1 g.2 dataProtection).stop → q.stop ≤ g.1 := by
    intro q hq hbelow
    have hbelow := UInt64.lt_iff_toNat_lt.mp hbelow
    rw [Region.stop_toNat hlawful.fits] at hbelow
    change q.start.toNat < g.1.toNat + g.2.toNat at hbelow
    rcases h.clear _ (AddressSpace.mem_extents.mpr ⟨q, hq, rfl, rfl⟩) g List.mem_cons_self with hle | hle
    · change q.start.toNat + q.length.toNat ≤ g.1.toNat at hle
      rw [UInt64.le_iff_toNat_le, Region.stop_toNat (by omega)]
      exact hle
    · exact absurd hbelow (Nat.not_lt.mpr hle)
  unfold Monitor.notifyGlobal track
  refine .bind (.update (.branch (fun hempty => absurd hempty (not_or.mpr ⟨hnull, hsize⟩)) fun _ => .bind (onSpace_leads ?_)))
  refine ((AddressSpace.addRegion_joins h.arranged _).and (AddressSpace.addRegion_succeeds h.arranged hlawful hclear)).mono
    (fun _ s' hs' => .update ?_) fun _ _ hs' => hs'.2
  obtain ⟨⟨harranged, -, hmem, -, -⟩, -⟩ := hs'
  obtain ⟨hbefore, hrising⟩ := List.pairwise_cons.mp h.rising
  refine ⟨⟨harranged, fun e he => h.sized e (List.mem_cons_of_mem g he), hrising, fun e he e' he' => ?_⟩, rfl,
    AddressSpace.mem_extents.mpr ⟨_, (hmem _).mpr (.inl rfl), rfl, rfl⟩⟩
  obtain ⟨w, n⟩ := e
  obtain ⟨q, hq, rfl, rfl⟩ := AddressSpace.mem_extents.mp he
  rcases (hmem q).mp hq with rfl | hq
  · exact .inl (hbefore e' he')
  · exact h.clear _ (AddressSpace.mem_extents.mpr ⟨q, hq, rfl, rfl⟩) e' (List.mem_cons_of_mem g he')

end Monitor

theorem GlobalVariable.trackedSize?_ok {g : GlobalVariable} {n : Word} (h : g.trackedSize? = .ok (some n)) :
    g.size? = some n ∧ n ≠ 0 := by
  unfold trackedSize? at h
  split at h
  · cases h
  · obtain ⟨size, hsize, h⟩ := bind_eq_ok.mp h
    split at h
    · cases h
    · cases h
      exact ⟨orStop_eq_ok.mp hsize, ‹_›⟩

namespace Image

def extent (x : Image) (e : String × Word) : Word × Word := ((x.globalAddress? e.1).getD 0, e.2)

def IsClear (x : Image) : Prop := x.textEnd.toNat ≤ globalBase.toNat ∧ x.globalsEnd.toNat ≤ Machine.stackBase.toNat

instance (x : Image) : Decidable x.IsClear := inferInstanceAs (Decidable (_ ∧ _))

variable {x : Image} {p : Program} {slots rooms : List (Word × Nat)} {globals : List (String × Word)}

theorem Lays.extents (hx : x.Lays p slots rooms) (distinct : (p.globals.values.map (·.name)).Nodup)
    (hglobals : p.trackedGlobals = .ok globals) :
    (∀ e ∈ globals, x.globalAddress? e.1 = some (x.extent e).1 ∧ e.2 ≠ 0) ∧
      ((globals.map x.extent).map fun g => (g.1, g.2.toNat)).Sublist rooms := by
  obtain ⟨sizes, hsizes, hanswer⟩ := bind_eq_ok.mp hglobals
  cases hanswer
  have hsized := mapM_eq_ok.mp hsizes
  have housed := hx.housed
  have haddress := hx.global distinct
  clear hglobals hsizes distinct hx
  generalize p.globals.values = values at hsized housed haddress
  induction hsized generalizing rooms with
  | nil =>
    cases housed
    exact ⟨fun _ he => absurd he List.not_mem_nil, .slnil⟩
  | @cons g size l sizes hsize hrest ih =>
    cases housed with
    | @cons _ r _ rooms hg hrooms =>
      obtain ⟨hall, hsub⟩ := ih hrooms fun e he => haddress e (List.mem_cons_of_mem _ he)
      obtain ⟨n, hn, hsize⟩ := bind_eq_ok.mp hsize
      obtain rfl := Except.ok.inj hsize
      cases n with
      | none => exact ⟨hall, hsub.cons r⟩
      | some n =>
        have hplace : x.globalAddress? g.name = some r.1 := haddress (g, r) List.mem_cons_self
        have hextent : (x.extent (g.name, n)).1 = r.1 := by
          unfold extent
          rw [hplace]
          rfl
        obtain ⟨hn, hpos⟩ := GlobalVariable.trackedSize?_ok hn
        obtain ⟨n', hn', hlength⟩ := hg.sized
        cases hn.symm.trans hn'
        refine ⟨List.forall_mem_cons.mpr ⟨⟨hextent ▸ hplace, hpos⟩, hall⟩, ?_⟩
        have hroom : ((x.extent (g.name, n)).1, n.toNat) = r := by
          refine Prod.ext hextent ?_
          rw [hlength, Nat.max_eq_left]
          exact Nat.one_le_iff_ne_zero.mpr fun h => hpos (UInt64.toNat_inj.mp h)
        exact hroom ▸ hsub.cons_cons _

theorem IsClear.text (clear : x.IsClear) (hx : x.Lays p slots rooms) :
    x.text.start.toNat + x.text.length.toNat ≤ globalBase.toNat := by
  have hle : textBase ≤ x.textEnd := UInt64.le_iff_toNat_le.mpr hx.text.within.1
  change textBase.toNat + (max (x.textEnd - textBase) stride).toNat ≤ _
  rw [Word.toNat_max, UInt64.toNat_sub_of_le _ _ hle]
  have hstride : textBase.toNat + stride.toNat ≤ globalBase.toNat := by decide
  have := clear.1
  have := hx.text.within.1
  omega

end Image

theorem Machine.hasRoom_of_ofProgram {p : Program} {kind : IndexKind} {m : Machine} {globals : List (String × Word)}
    (hm : ofProgram p kind = .ok m) (distinct : (p.globals.values.map (·.name)).Nodup)
    (hglobals : p.trackedGlobals = .ok globals) (clear : m.image.IsClear) :
    (∀ e ∈ globals, m.image.globalAddress? e.1 = some (m.image.extent e).1) ∧
      m.monitor.HasRoom (globals.map m.image.extent) := by
  obtain ⟨x, himage, hm⟩ := bind_eq_ok.mp hm
  obtain ⟨space, hspace, hm⟩ := bind_eq_ok.mp hm
  cases hm
  obtain ⟨slots, rooms, hx⟩ := Image.lays_of_ofProgram himage
  obtain ⟨hplaced, hrooms⟩ := hx.extents distinct hglobals
  have hwithin : ∀ g ∈ globals.map x.extent,
      Image.globalBase.toNat ≤ g.1.toNat ∧ g.1.toNat + g.2.toNat ≤ x.globalsEnd.toNat := fun g hg =>
    hx.data.within.2 _ (hrooms.subset (List.mem_map_of_mem hg))
  refine ⟨fun e he => (hplaced e he).1, (AddressSpace.fixes_of_build hspace).1, fun g hg => ?_, ?_,
    fun e he g hg => ?_⟩
  · obtain ⟨hlow, hhigh⟩ := hwithin g hg
    have hlt : x.globalsEnd.toNat < Word.modulus := UInt64.toNat_lt _
    have hbase : 0 < Image.globalBase.toNat := by decide
    refine ⟨fun hnull => ?_, ?_, by omega⟩
    · rw [hnull] at hlow
      exact absurd hlow (Nat.not_le.mpr hbase)
    · obtain ⟨e, he, rfl⟩ := List.mem_map.mp hg
      exact (hplaced e he).2
  · have hrising := hx.data.pairwise.sublist hrooms
    rw [List.pairwise_map] at hrising
    exact hrising
  · obtain ⟨w, n⟩ := e
    obtain ⟨r, hr, rfl, rfl⟩ := AddressSpace.mem_extents.mp he
    obtain ⟨hlow, hhigh⟩ := hwithin g hg
    rcases AddressSpace.mem_of_build hspace r hr with hr | hr
    · cases hr
      exact .inr (Nat.le_trans hhigh clear.2)
    · cases hr
      exact .inl (Nat.le_trans (clear.text hx) hlow)

namespace Processor

variable {t : Task} {s s' : Processor} {a : Activation} {callers : List Activation} {l : List (Word × Word)}

theorem execute_entryPoint (distinct : t.configuration.hooks.names.Nodup) {name : String} {arguments : List Value}
    {constants : List Constant} (hvalues : a.values s.machine arguments = .ok constants) {x : Stateful Monitor Unit}
    (hx : (name, x) ∈ Machine.entryPoints t.configuration.hooks (Machine.argument name (constants.map Constant.value))) :
    (execute t a callers (.notify name arguments)).runFrom s =
      match x.runFrom s.machine.monitor with
      | (.ok _, n) => (.ok .running, { s with machine := { s.machine with monitor := n }, calls := a :: callers })
      | (.error e, n) => (.error e, { s with machine := { s.machine with monitor := n } }) := by
  change (call t a callers none (.direct name) arguments).runFrom s = _
  rw [call_runFrom]
  unfold called
  rw [hvalues]
  change (dispatch t a callers none name constants).runFrom s = _
  unfold dispatch
  rw [Machine.builtin?_of_mem distinct hx]
  simp only
  rw [runFrom_bind, onMachine_runFrom, runFrom_bind]
  unfold Machine.onMonitor
  rw [runFrom_zoom]
  generalize x.runFrom s.machine.monitor = y
  obtain ⟨_ | _, n⟩ := y <;> rfl

theorem hasRoom_of_guarding (distinct : t.configuration.hooks.names.Nodup) {o : Operation} {n : Nat}
    (ho : o.IsGuarding t.configuration.hooks n) (room : s.machine.monitor.HasRoom l)
    (hrun : (execute t a callers o).runFrom s = (.ok .running, s')) :
    (∃ scalars, s'.calls = a.withScalars scalars :: callers) ∧ s'.machine.image = s.machine.image ∧
      s'.machine.monitor.HasRoom l := by
  rcases ho with ⟨dst, hdst, -⟩ | ⟨name, hname, arguments, rfl⟩
  · obtain ⟨x, -, hexecute⟩ := execute_computes t s a callers hdst
    rw [hexecute] at hrun
    cases x with
    | error e => cases hrun
    | ok c =>
      cases hrun
      exact ⟨⟨_, rfl⟩, rfl, room⟩
  · cases hvalues : a.values s.machine arguments with
    | error e =>
      change (call t a callers none (.direct name) arguments).runFrom s = _ at hrun
      rw [call_runFrom] at hrun
      unfold called at hrun
      rw [hvalues] at hrun
      cases hrun
    | ok constants =>
      obtain ⟨x, hx, hleads⟩ := room.guarding hname (constants.map Constant.value)
      rw [execute_entryPoint distinct hvalues hx] at hrun
      split at hrun
      · rename_i n hmonitor
        cases hrun
        exact ⟨⟨a.scalars, rfl⟩, rfl, hleads.ok hmonitor⟩
      · cases hrun

theorem execute_registration (distinct : t.configuration.hooks.names.Nodup) {name : String} {place size : Word}
    (hplace : s.machine.image.globalAddress? name = some place) (room : s.machine.monitor.HasRoom ((place, size) :: l))
    (id : Nat) :
    ∃ n, (execute t a callers (GlobalVariable.registration t.configuration.hooks id name size)).runFrom s =
        (.ok .running, { s with machine := { s.machine with monitor := n }, calls := a :: callers }) ∧ n.HasRoom l ∧
      n.ledger = s.machine.monitor.ledger.track place size (.global (UInt64.ofNat id)) ∧ (place, size) ∈ n.space.extents := by
  have hvalues : a.values s.machine [.global name, .ofWord size 64, .ofWord (UInt64.ofNat id) 64] =
      .ok [Activation.address place, .make size 64, .make (UInt64.ofNat id) 64] := by
    unfold Activation.values
    rw [List.mapM_cons]
    unfold Activation.value
    simp only [hplace]
    rfl
  have hx : (t.configuration.hooks.notifyGlobal, Monitor.notifyGlobal place size (UInt64.ofNat id)) ∈
      Machine.entryPoints t.configuration.hooks (Machine.argument t.configuration.hooks.notifyGlobal
        ([Activation.address place, .make size 64, .make (UInt64.ofNat id) 64].map Constant.value)) :=
    List.mem_iff_getElem?.mpr ⟨4, rfl⟩
  have hleads := room.notifyGlobal (UInt64.ofNat id)
  unfold GlobalVariable.registration
  rw [execute_entryPoint distinct hvalues hx]
  generalize hmonitor : (Monitor.notifyGlobal place size (UInt64.ofNat id)).runFrom s.machine.monitor = y
  obtain ⟨y, n⟩ := y
  cases y with
  | error e => exact (hleads.error hmonitor).elim
  | ok _ => exact ⟨n, rfl, hleads.ok hmonitor⟩

end Processor

theorem Instruction.not_registers_of_opening {h : Hooks} {i : Instruction} (distinct : h.names.Nodup)
    (hi : i.operation.isPhi = true ∨ i.isInjected = true ∧ i.operation.IsGuarding h 0) : ¬ i.Registers h := by
  rcases hi with hphi | ⟨-, hguarding⟩
  · rintro ⟨-, hcallee⟩
    obtain ⟨_, _, _, hcall⟩ := Operation.exists_call_of_callee? hcallee
    rw [hcall] at hphi
    cases hphi
  · exact not_registers_of_isGuarding distinct hguarding

namespace Opens

variable {h : Hooks} {operations : List Operation} {i : Instruction} {rest l : List Instruction}

theorem silent (distinct : h.names.Nodup) (hl : Opens h [] l) : ∀ i ∈ l, ¬ i.Registers h := by
  obtain ⟨front, new, back, rfl, hfront, -, hnew, hback⟩ := hl
  obtain rfl := List.map_eq_nil_iff.mp hnew
  intro i hi
  exact (List.mem_append.mp hi).elim (fun hi => Instruction.not_registers_of_opening distinct (hfront i hi)) (hback i)

theorem behind_phis (calls : ∀ o ∈ operations, o.callee? = some h.notifyGlobal) (hne : operations ≠ [])
    (hl : Opens h operations l) : Opens h operations (l.dropWhile (·.operation.isPhi)) := by
  obtain ⟨front, new, back, rfl, hfront, hnew, rfl, hback⟩ := hl
  rw [List.dropWhile_append]
  split
  · refine ⟨[], new, back, ?_, fun _ hi => absurd hi List.not_mem_nil, hnew, rfl, hback⟩
    obtain ⟨i, new, rfl⟩ := List.exists_cons_of_ne_nil (List.map_eq_nil_iff.not.mp hne)
    obtain ⟨_, _, _, hcall⟩ := Operation.exists_call_of_callee? (calls _ (List.mem_map_of_mem List.mem_cons_self))
    rw [List.cons_append, List.dropWhile_cons_of_neg (by rw [hcall]; exact Bool.false_ne_true)]
    rfl
  · exact ⟨_, new, back, rfl, fun i hi => hfront i (List.dropWhile_subset _ hi), hnew, rfl, hback⟩

theorem ne_nil (hl : Opens h operations l) (hne : operations ≠ []) : l ≠ [] := by
  rintro rfl
  obtain ⟨front, new, back, hall, -, -, rfl, -⟩ := hl
  obtain ⟨-, hall⟩ := List.append_eq_nil_iff.mp hall.symm
  exact hne (List.map_eq_nil_iff.mpr (List.append_eq_nil_iff.mp hall).1)

theorem next (hl : Opens h operations (i :: rest)) (hne : operations ≠ []) :
    ((i.operation.isPhi = true ∨ i.isInjected = true ∧ i.operation.IsGuarding h 0) ∧ Opens h operations rest) ∨
      i.isInjected = true ∧ ∃ others, operations = i.operation :: others ∧ Opens h others rest := by
  obtain ⟨front, new, back, hall, hfront, hnew, rfl, hback⟩ := hl
  cases front with
  | cons j front =>
    obtain ⟨rfl, rfl⟩ := List.cons.inj hall
    exact .inl ⟨hfront i List.mem_cons_self, front, new, back, rfl, fun j hj => hfront j (List.mem_cons_of_mem i hj), hnew, rfl,
      hback⟩
  | nil =>
    obtain ⟨j, new, rfl⟩ := List.exists_cons_of_ne_nil (List.map_eq_nil_iff.not.mp hne)
    obtain ⟨rfl, rfl⟩ := List.cons.inj hall
    exact .inr ⟨hnew i List.mem_cons_self, _, rfl, [], new, back, rfl, fun _ hj => absurd hj List.not_mem_nil,
      fun j hj => hnew j (List.mem_cons_of_mem i hj), rfl, hback⟩

end Opens

namespace GlobalVariable

variable {h : Hooks} {globals : List (String × Word)} {j : Nat}

@[simp] theorem length_registrations : (registrations h globals).length = globals.length := List.length_mapIdx

theorem drop_registrations (hj : j < globals.length) :
    (registrations h globals).drop j =
      registration h j globals[j].1 globals[j].2 :: (registrations h globals).drop (j + 1) := by
  rw [List.drop_eq_getElem_cons (length_registrations.symm ▸ hj)]
  simp only [registrations, List.getElem_mapIdx]

end GlobalVariable

namespace Processor

def registration? (h : Hooks) (s : Processor) : Option Operation := do
  let i ← s.next?
  if i.Registers h then return i.operation else none

/-- The registrations that a run executes in some steps, in order. -/
def registered (h : Hooks) (t : Task) : Nat → Processor → List Operation
  | 0, _ => []
  | steps + 1, s =>
    match (step t).runFrom s with
    | (.ok .running, s') => (s.registration? h).toList ++ registered h t steps s'
    | _ => []

/-- From one state to the next the innermost call enters a block of a function: it begins there, or goes on there. -/
def Enters (body : FlowGraph) (block : Nat) (s s' : Processor) : Prop :=
  (∃ a ∈ s'.calls.head?, a.body = body ∧ a.block = block) ∧ (s.calls.length < s'.calls.length ∨ s.next? = none)

instance (body : FlowGraph) (block : Nat) (s s' : Processor) : Decidable (Enters body block s s') :=
  inferInstanceAs (Decidable (_ ∧ _))

/-- A run enters a block of a function in some steps. -/
def Revisits (t : Task) (body : FlowGraph) (block steps : Nat) (s : Processor) : Prop :=
  ∃ k < steps, ∃ u u', after t k s = some u ∧ (step t).runFrom u = (.ok .running, u') ∧ Enters body block u u'

variable {h : Hooks} {t : Task} {s s' : Processor} {a : Activation} {callers : List Activation} {i : Instruction}
  {rest : List Instruction} {body : FlowGraph} {entry : Nat} {globals : List (String × Word)} {x : Image} {j : Nat}

theorem registration?_of_next? (hnext : s.next? = some i) :
    s.registration? h = if i.Registers h then some i.operation else none := by
  unfold registration?
  rw [hnext]
  rfl

theorem registration?_of_none (hnext : s.next? = none) : s.registration? h = none := by
  unfold registration?
  rw [hnext]
  rfl

structure Opening (h : Hooks) (globals : List (String × Word)) (x : Image) (body : FlowGraph) (j : Nat) (s : Processor) :
    Prop where
  calls : ∃ a, s.calls = [a] ∧ a.body = body ∧ Opens h ((GlobalVariable.registrations h globals).drop j) a.remaining
  image : s.machine.image = x
  room : s.machine.monitor.HasRoom ((globals.drop j).map x.extent)

namespace Opening

theorem next (distinct : h.names.Nodup) (hs : Opening h globals x body j s) (hj : j < globals.length) :
    ∃ a i rest, s.calls = [a] ∧ a.body = body ∧ a.remaining = i :: rest ∧
      (¬ i.Registers h ∧ (i.operation.isPhi = true ∨ i.isInjected = true ∧ i.operation.IsGuarding h 0) ∧
        Opens h ((GlobalVariable.registrations h globals).drop j) rest ∨
      i.Registers h ∧ i.operation = GlobalVariable.registration h j globals[j].1 globals[j].2 ∧
        Opens h ((GlobalVariable.registrations h globals).drop (j + 1)) rest) := by
  obtain ⟨a, hcalls, hbody, hcode⟩ := hs.calls
  have hdrop := GlobalVariable.drop_registrations (h := h) hj
  have hne : (GlobalVariable.registrations h globals).drop j ≠ [] := hdrop ▸ List.cons_ne_nil _ _
  obtain ⟨i, rest, hrem⟩ := List.exists_cons_of_ne_nil (hcode.ne_nil hne)
  refine ⟨a, i, rest, hcalls, hbody, hrem, ?_⟩
  rcases (hrem ▸ hcode).next hne with ⟨hfront, hrest⟩ | ⟨injected, others, heq, hrest⟩
  · exact .inl ⟨Instruction.not_registers_of_opening distinct hfront, hfront, hrest⟩
  · obtain ⟨ho, rfl⟩ := List.cons.inj (hdrop.symm.trans heq)
    exact .inr ⟨⟨injected, ho ▸ rfl⟩, ho.symm, hrest⟩

theorem execute (distinct : t.configuration.hooks.names.Nodup)
    (placed : ∀ e ∈ globals, x.globalAddress? e.1 = some (x.extent e).1)
    (hs : Opening t.configuration.hooks globals x body j s) (hj : j < globals.length) (a : Activation)
    (callers : List Activation) :
    ∃ n, (execute t a callers (GlobalVariable.registration t.configuration.hooks j globals[j].1 globals[j].2)).runFrom
          s.countOne = (.ok .running, { s.countOne with machine := { s.machine with monitor := n }, calls := a :: callers }) ∧
      n.HasRoom ((globals.drop (j + 1)).map x.extent) ∧
      n.ledger = s.machine.monitor.ledger.track (x.extent globals[j]).1 globals[j].2 (.global (UInt64.ofNat j)) ∧
      ((x.extent globals[j]).1, globals[j].2) ∈ n.space.extents := by
  refine execute_registration (s := s.countOne) distinct ?_ ?_ j
  · change s.machine.image.globalAddress? _ = _
    rw [hs.image]
    exact placed _ (List.getElem_mem hj)
  · have room := hs.room
    rw [List.drop_eq_getElem_cons hj] at room
    exact room

theorem step (distinct : t.configuration.hooks.names.Nodup)
    (placed : ∀ e ∈ globals, x.globalAddress? e.1 = some (x.extent e).1)
    (hs : Opening t.configuration.hooks globals x body j s) (hj : j < globals.length)
    (hstep : (Processor.step t).runFrom s = (.ok .running, s')) :
    s.registration? t.configuration.hooks = none ∧ Opening t.configuration.hooks globals x body j s' ∨
      s.registration? t.configuration.hooks =
        some (GlobalVariable.registration t.configuration.hooks j globals[j].1 globals[j].2) ∧
      Opening t.configuration.hooks globals x body (j + 1) s' := by
  obtain ⟨a, i, rest, hcalls, hbody, hrem, hnext⟩ := hs.next distinct hj
  rw [registration?_of_next? (next?_of_calls hcalls hrem)]
  rw [step_instruction hcalls hrem] at hstep
  split at hstep
  · cases hstep
  rcases hnext with ⟨hquiet, hphi | ⟨-, hguarding⟩, hrest⟩ | ⟨hregisters, ho, hrest⟩
  · generalize i.operation = o at hphi hstep
    cases o with
    | phi dst incoming => cases hstep
    | _ => cases hphi
  · obtain ⟨⟨scalars, hcalls'⟩, himage, room⟩ := hasRoom_of_guarding (s := s.countOne) distinct hguarding hs.room hstep
    exact .inl ⟨if_neg hquiet, ⟨_, hcalls', hbody, hrest⟩, himage.trans hs.image, room⟩
  · obtain ⟨n, hexecute, room, -, -⟩ := hs.execute distinct placed hj { a with remaining := rest } []
    rw [ho, hexecute] at hstep
    cases hstep
    exact .inr ⟨by rw [if_pos hregisters, ho], ⟨_, rfl, hbody, hrest⟩, hs.image, room⟩

end Opening

end Processor

def FlowGraph.SilentBut (c : FlowGraph) (h : Hooks) (body : FlowGraph) (entry : Nat) : Prop :=
  ∀ k b, c.block k = .ok b → (c = body → k ≠ entry) → ∀ i ∈ b.instructions, ¬ i.Registers h

namespace Activation

/-- A call has no registration in front of it, and comes to none unless it enters a certain block. -/
structure Past (h : Hooks) (body : FlowGraph) (entry : Nat) (a : Activation) : Prop where
  rest : ∀ i ∈ a.remaining, ¬ i.Registers h
  elsewhere : a.body.SilentBut h body entry

theorem past_of_enterBlock {h : Hooks} {body : FlowGraph} {entry block : Nat} {m : Machine} {a b : Activation}
    {previous : Option Nat} (silent : a.body.SilentBut h body entry) (hb : a.enterBlock m previous block = .ok b)
    (hne : b.body = body → b.block ≠ entry) : b.Past h body entry := by
  obtain ⟨x, scalars, hx, rfl⟩ := enterBlock_ok hb
  exact ⟨fun i hi => silent block x hx hne i (List.dropWhile_subset _ hi), silent⟩

end Activation

namespace Processor

variable {h : Hooks} {t : Task} {s s' : Processor} {body : FlowGraph} {entry : Nat} {globals : List (String × Word)}
  {x : Image} {j : Nat}

def Past (h : Hooks) (body : FlowGraph) (entry : Nat) (s : Processor) : Prop := ∀ a ∈ s.calls, a.Past h body entry

theorem Past.registration? (hs : Past h body entry s) : s.registration? h = none := by
  cases hnext : s.next? with
  | none => exact registration?_of_none hnext
  | some i =>
    rw [registration?_of_next? hnext, if_neg]
    obtain ⟨a, ha, hi⟩ := Option.bind_eq_some_iff.mp hnext
    exact (hs a (List.mem_of_mem_head? ha)).rest i (List.mem_of_mem_head? hi)

theorem Past.step (silent : t.program.AllBodies (·.SilentBut h body entry)) (hs : Past h body entry s)
    (hstep : (Processor.step t).runFrom s = (.ok .running, s')) (hnot : ¬ Enters body entry s s') : Past h body entry s' := by
  obtain ⟨a, callers, hcalls, ⟨hrem, b, hb, rfl⟩ | ⟨i, rest, hrem, hrun⟩⟩ := step_running hstep
  · have hall : ∀ c ∈ a :: callers, c.Past h body entry := hcalls ▸ hs
    obtain ⟨ha, hcallers⟩ := List.forall_mem_cons.mp hall
    refine List.forall_mem_cons.mpr ⟨?_, hcallers⟩
    rw [Activation.nextBlock_eq] at hb
    obtain ⟨target, -, hb⟩ := bind_eq_ok.mp hb
    refine Activation.past_of_enterBlock ha.elsewhere hb fun hbody hblock => hnot ⟨⟨b, rfl, hbody, hblock⟩, .inr ?_⟩
    unfold next?
    rw [hcalls]
    change a.remaining.head? = none
    rw [hrem]
    rfl
  · have hall : ∀ c ∈ a :: callers, c.Past h body entry := hcalls ▸ hs
    obtain ⟨ha, hcallers⟩ := List.forall_mem_cons.mp hall
    have hbehind : ∀ scalars, (({ a with remaining := rest } : Activation).withScalars scalars).Past h body entry :=
      fun _ => ⟨fun j hj => ha.rest j (hrem ▸ List.mem_cons_of_mem i hj), ha.elsewhere⟩
    obtain ⟨shape, -⟩ := execute_shape hrun
    unfold Past
    generalize hcalls' : s'.calls = calls' at shape
    cases shape with
    | stays scalars _ => exact List.forall_mem_cons.mpr ⟨hbehind scalars, hcallers⟩
    | @enters _ _ _ _ _ f c _ b _ _ _ _ function defined _ entered =>
      refine List.forall_mem_cons.mpr ⟨?_, List.forall_mem_cons.mpr ⟨hbehind a.scalars, hcallers⟩⟩
      refine Activation.past_of_enterBlock (silent _ f (orRaise_eq_ok.mp function) c defined) entered
        fun hbody hblock => hnot ⟨⟨b, by rw [hcalls']; rfl, hbody, hblock⟩, .inl ?_⟩
      rw [hcalls, hcalls']
      exact Nat.lt_succ_self _
    | @leaves c others scalars _ suspended =>
      subst suspended
      obtain ⟨hc, hothers⟩ := List.forall_mem_cons.mp hcallers
      exact List.forall_mem_cons.mpr ⟨⟨hc.rest, hc.elsewhere⟩, hothers⟩
    | ends _ _ => exact fun _ hc => absurd hc List.not_mem_nil

/-- Behind the last registration there is none left. -/
theorem Opening.past (distinct : h.names.Nodup) (silent : body.SilentBut h body entry)
    (hs : Opening h globals x body globals.length s) : Past h body entry s := by
  obtain ⟨a, hcalls, rfl, hcode⟩ := hs.calls
  rw [List.drop_eq_nil_of_le GlobalVariable.length_registrations.le] at hcode
  intro b hb
  rw [hcalls, List.mem_singleton] at hb
  subst hb
  exact ⟨hcode.silent distinct, silent⟩

/-- A run that has registered a number of the globals, and the others next, if there are any. -/
def Standing (h : Hooks) (globals : List (String × Word)) (x : Image) (body : FlowGraph) (entry j : Nat) (s : Processor) : Prop :=
  j < globals.length ∧ Opening h globals x body j s ∨ j = globals.length ∧ Past h body entry s

theorem Standing.le (hs : Standing h globals x body entry j s) : j ≤ globals.length := hs.elim (·.1.le) (·.1.le)

section Runs

variable (distinct : t.configuration.hooks.names.Nodup) (placed : ∀ e ∈ globals, x.globalAddress? e.1 = some (x.extent e).1)
  (silent : t.program.AllBodies (·.SilentBut t.configuration.hooks body entry))
  (hbody : body.SilentBut t.configuration.hooks body entry)

include distinct placed silent hbody

theorem Standing.step (hs : Standing t.configuration.hooks globals x body entry j s)
    (hstep : (Processor.step t).runFrom s = (.ok .running, s')) (hnot : ¬ Enters body entry s s') :
    ∃ k, (GlobalVariable.registrations t.configuration.hooks globals).take j ++
        (s.registration? t.configuration.hooks).toList =
          (GlobalVariable.registrations t.configuration.hooks globals).take k ∧
      Standing t.configuration.hooks globals x body entry k s' := by
  rcases hs with ⟨hj, hs⟩ | ⟨hj, hs⟩
  · rcases hs.step distinct placed hj hstep with ⟨hnone, hs'⟩ | ⟨hsome, hs'⟩
    · exact ⟨j, by rw [hnone]; exact List.append_nil _, .inl ⟨hj, hs'⟩⟩
    · refine ⟨j + 1, ?_, ?_⟩
      · rw [hsome, List.take_succ_eq_append_getElem (GlobalVariable.length_registrations.symm ▸ hj)]
        simp only [GlobalVariable.registrations, List.getElem_mapIdx, Option.toList_some]
      · rcases Nat.lt_or_ge (j + 1) globals.length with hlt | hge
        · exact .inl ⟨hlt, hs'⟩
        · obtain heq : j + 1 = globals.length := Nat.le_antisymm hj hge
          exact .inr ⟨heq, Opening.past distinct hbody (heq ▸ hs')⟩
  · exact ⟨j, by rw [hs.registration?]; exact List.append_nil _, .inr ⟨hj, hs.step silent hstep hnot⟩⟩

/-- A run that stays out of the block with the registrations has executed each of them at most once, in order. -/
theorem Standing.after {steps : Nat} (hs : Standing t.configuration.hooks globals x body entry j s)
    (hafter : after t steps s = some s') (hnot : ¬ Revisits t body entry steps s) :
    ∃ k, (GlobalVariable.registrations t.configuration.hooks globals).take j ++
        registered t.configuration.hooks t steps s =
          (GlobalVariable.registrations t.configuration.hooks globals).take k ∧
      Standing t.configuration.hooks globals x body entry k s' := by
  induction steps generalizing s j with
  | zero =>
    cases hafter
    exact ⟨j, List.append_nil _, hs⟩
  | succ steps ih =>
    obtain ⟨s₁, hstep, hafter⟩ := after_succ hafter
    obtain ⟨k, hk, hs₁⟩ := hs.step distinct placed silent hbody hstep fun henters =>
      hnot ⟨0, Nat.succ_pos steps, s, s₁, rfl, hstep, henters⟩
    obtain ⟨n, hn, hs'⟩ := ih hs₁ hafter fun ⟨i, hi, u, u', hu, hrest⟩ =>
      hnot ⟨i + 1, Nat.succ_lt_succ hi, u, u', by rw [Processor.after, hstep]; exact hu, hrest⟩
    refine ⟨n, ?_, hs'⟩
    rw [registered, hstep, ← hn, ← hk, List.append_assoc]

omit silent hbody in
/-- Code of the program runs when all globals are registered, and a registration that comes next succeeds, unless the limit is
reached. -/
theorem Standing.next (hs : Standing t.configuration.hooks globals x body entry j s) {i : Instruction}
    (hnext : s.next? = some i) :
    (i.isInjected = false → i.operation.isPhi = false → j = globals.length) ∧
      (i.Registers t.configuration.hooks → ∃ name size place, globals[j]? = some (name, size) ∧
        x.globalAddress? name = some place ∧
        i.operation = GlobalVariable.registration t.configuration.hooks j name size ∧
        (((Processor.step t).runFrom s).1 = .error (.error (.stepLimit t.stepLimit)) ∨
          ∃ s', (Processor.step t).runFrom s = (.ok .running, s') ∧
            s'.machine.monitor.ledger = s.machine.monitor.ledger.track place size (.global (UInt64.ofNat j)) ∧
            (place, size) ∈ s'.machine.monitor.space.extents)) := by
  rcases hs with ⟨hj, hs⟩ | ⟨hj, hs⟩
  · obtain ⟨a, i', rest, hcalls, -, hrem, hi⟩ := hs.next distinct hj
    cases hnext.symm.trans (next?_of_calls hcalls hrem)
    rcases hi with ⟨hquiet, hfront, -⟩ | ⟨⟨injected, -⟩, ho, -⟩
    · refine ⟨fun own notPhi => ?_, fun hregisters => absurd hregisters hquiet⟩
      rcases hfront with hphi | ⟨injected, -⟩
      · exact absurd hphi (notPhi ▸ Bool.false_ne_true)
      · exact absurd injected (own ▸ Bool.false_ne_true)
    · refine ⟨fun own => absurd injected (own ▸ Bool.false_ne_true), fun _ =>
        ⟨_, _, _, List.getElem?_eq_getElem hj, placed _ (List.getElem_mem hj), ho, ?_⟩⟩
      obtain ⟨n, hexecute, -, hledger, hextent⟩ := hs.execute distinct placed hj { a with remaining := rest } []
      rw [step_instruction hcalls hrem, ho]
      split
      · exact .inl rfl
      · exact .inr ⟨_, hexecute, hledger, hextent⟩
  · refine ⟨fun _ _ => hj, fun hregisters => ?_⟩
    have hnone := hs.registration?
    rw [registration?_of_next? hnext, if_pos hregisters] at hnone
    cases hnone

end Runs

end Processor

namespace Program

open Processor

variable {h : Hooks} {p q : Program} {c : Configuration} {globals : List (String × Word)} {registrations : List Operation}

theorem Made.nodup_globals (made : p.Made) : (p.globals.values.map (·.name)).Nodup := by
  have hkeys : p.globals.values.map (·.name) = p.globals.keys := by
    unfold Table.values Table.keys
    rw [List.map_map]
    exact List.map_congr_left made.built.global_name
  exact hkeys ▸ p.globals.nodup_keys

theorem nodup_trackedGlobals (made : p.Made) (hglobals : p.trackedGlobals = .ok globals) : (globals.map (·.1)).Nodup := by
  refine List.pairwise_map.mpr ((pairwise_trackedGlobals made hglobals).imp fun hlt heq => ?_)
  rw [heq, Std.ReflOrd.compare_self] at hlt
  cases hlt

theorem RegistersIn.silentBut {name : String} (hq : q.RegistersIn h registrations name) {f : Function} {body : FlowGraph}
    {entry : Nat} (hf : q.function? name = some f) (hbody : f.body = some body) (hentry : body.entry = some entry) :
    q.AllBodies (·.SilentBut h body entry) := by
  obtain ⟨f', body', entry', hf', hbody', hentry', hregisters⟩ := hq.starts
  cases hf.symm.trans hf'
  cases hbody.symm.trans hbody'
  cases hentry.symm.trans hentry'
  intro other g hg c hc k b hb hne
  by_cases hother : other = name
  · subst hother
    cases hf.symm.trans hg
    cases hbody.symm.trans hc
    exact hregisters.silent k b hb fun heq => hne rfl (Option.some.inj heq).symm
  · exact (hq.silent other g hg hother c hc).silent k b hb nofun

theorem RegistersIn.opening {name : String} (hq : q.RegistersIn h (GlobalVariable.registrations h globals) name)
    (hne : globals ≠ []) {t : Task} (ht : t.program = q) {arguments : List Word} {m : Machine} {s₀ : Processor}
    (hstart : (start t name arguments).runFrom (.ofMachine m) = (.ok (), s₀))
    (room : m.monitor.HasRoom (globals.map m.image.extent)) {f : Function} {body : FlowGraph} {entry : Nat}
    (hf : q.function? name = some f) (hbody : f.body = some body) (hentry : body.entry = some entry) :
    Opening h globals m.image body 0 s₀ := by
  subst ht
  obtain ⟨f', body', entry', hf', hbody', hentry', hregisters⟩ := hq.starts
  cases hf.symm.trans hf'
  cases hbody.symm.trans hbody'
  cases hentry.symm.trans hentry'
  obtain ⟨g, hg, henter⟩ := lift_bind_ok.mp hstart
  cases hf.symm.trans (orRaise_eq_ok.mp hg)
  obtain ⟨body₁, entry₁, b, hbody₁, hentry₁, hb, rfl⟩ := enter_ok henter
  cases hbody.symm.trans hbody₁
  cases hentry.symm.trans hentry₁
  obtain ⟨y, scalars, hy, rfl⟩ := Activation.enterBlock_ok hb
  refine ⟨⟨_, rfl, rfl, ?_⟩, rfl, room⟩
  refine (hregisters.opens entry y hy rfl).behind_phis (fun o ho => callee?_of_mem_registrations ho) fun hempty => hne ?_
  rw [List.drop_zero, ← List.length_eq_zero_iff, GlobalVariable.length_registrations] at hempty
  exact List.length_eq_zero_iff.mp hempty

/-- A run that starts where the globals are registered executes the registration of each global once and in order, before any
instruction of the program, and none fails, as long as the run does not come back to where it started. -/
theorem globals_registered_once (made : p.Made) (distinct : c.hooks.names.Nodup) (plain : p.IsPlain c.hooks)
    (on : c.globals = true) (hglobals : p.trackedGlobals = .ok globals) (hne : globals ≠ []) {report : InstrumentationReport}
    (hq : p.Instruments c report q) {x : Image} (hx : Image.ofProgram q = .ok x) (clear : x.IsClear) :
    (globals.map (·.1)).Nodup ∧
      ∃ f body entry, q.function? c.globalInitFunction = some f ∧ f.body = some body ∧ body.entry = some entry ∧
        ∀ limit arguments s₀ steps s, Comes ⟨q, c, limit⟩ c.globalInitFunction arguments s₀ steps s →
          ¬ Revisits ⟨q, c, limit⟩ body entry steps s₀ →
          ∃ j ≤ globals.length,
            registered c.hooks ⟨q, c, limit⟩ steps s₀ = (GlobalVariable.registrations c.hooks globals).take j ∧
            ∀ i, s.next? = some i → (i.isInjected = false → i.operation.isPhi = false → j = globals.length) ∧
              (i.Registers c.hooks → ∃ name size place, globals[j]? = some (name, size) ∧
                x.globalAddress? name = some place ∧ i.operation = GlobalVariable.registration c.hooks j name size ∧
                (((step ⟨q, c, limit⟩).runFrom s).1 = .error (.error (.stepLimit limit)) ∨
                  ∃ s', (step ⟨q, c, limit⟩).runFrom s = (.ok .running, s') ∧
                    s'.machine.monitor.ledger =
                      s.machine.monitor.ledger.track place size (.global (UInt64.ofNat j)) ∧
                    (place, size) ∈ s'.machine.monitor.space.extents)) := by
  obtain ⟨hregisters, hsame⟩ := registersIn_of_instruments distinct made.numbered plain on hglobals hne hq
  obtain ⟨f, body, entry, hf, hbody, hentry, -⟩ := hregisters.starts
  have silent := hregisters.silentBut hf hbody hentry
  have hglobals' : q.trackedGlobals = .ok globals := by
    rw [← hglobals]
    unfold trackedGlobals
    rw [hsame]
  refine ⟨nodup_trackedGlobals made hglobals, f, body, entry, hf, hbody, hentry, fun limit arguments s₀ steps s hs hnot => ?_⟩
  obtain ⟨⟨kind, m, hm, hstart⟩, hafter⟩ := hs
  obtain rfl : m.image = x := by
    obtain ⟨image, himage, hm⟩ := bind_eq_ok.mp hm
    obtain ⟨space, -, hm⟩ := bind_eq_ok.mp hm
    cases hm
    exact Except.ok.inj (himage.symm.trans hx)
  obtain ⟨placed, room⟩ := Machine.hasRoom_of_ofProgram hm (hsame ▸ made.nodup_globals) hglobals' clear
  have hfirst : Standing c.hooks globals m.image body entry 0 s₀ :=
    .inl ⟨List.length_pos_iff.mpr hne, hregisters.opening hne rfl hstart room hf hbody hentry⟩
  obtain ⟨j, hj, hs⟩ := hfirst.after (t := ⟨q, c, limit⟩) distinct placed silent (silent _ f hf body hbody) hafter hnot
  rw [List.take_zero, List.nil_append] at hj
  exact ⟨j, hs.le, hj, fun i hnext => hs.next distinct placed hnext⟩

end Program

def Operation.mayEnter (p : Program) (body : FlowGraph) : Operation → Bool
  | .call _ (.direct name) _ => decide ((p.function? name).bind (·.body) = some body)
  | .call _ (.indirect _) _ => true
  | _ => false

/-- Neither an edge nor a call of a program leads to a block of a function. -/
structure Program.EntersOnce (p : Program) (body : FlowGraph) (block : Nat) : Prop where
  edges : ∀ e ∈ body.graph.edges.values, e.tail ≠ block
  calls : p.AllBodies (FlowGraph.Every fun i => i.operation.mayEnter p body = false)

instance (p : Program) (body : FlowGraph) (block : Nat) : Decidable (p.EntersOnce body block) :=
  decidable_of_iff (_ ∧ _) ⟨fun h => ⟨h.1, h.2⟩, fun h => ⟨h.edges, h.calls⟩⟩

namespace Processor

section Code

variable {t : Task} {s s' : Processor} {Q : Instruction → Prop}

def Runs (Q : Instruction → Prop) (s : Processor) : Prop := ∀ a ∈ s.calls, (∀ i ∈ a.remaining, Q i) ∧ a.body.Every Q

theorem every_of_enterBlock {m : Machine} {a b : Activation} {previous : Option Nat} {block : Nat} (ha : a.body.Every Q)
    (hb : a.enterBlock m previous block = .ok b) : (∀ i ∈ b.remaining, Q i) ∧ b.body.Every Q := by
  obtain ⟨x, scalars, hx, rfl⟩ := Activation.enterBlock_ok hb
  exact ⟨fun i hi => ha block x hx i (List.dropWhile_subset _ hi), ha⟩

theorem runs_of_start {name : String} {arguments : List Word} {m : Machine} (all : t.program.AllBodies (FlowGraph.Every Q))
    (hstart : (start t name arguments).runFrom (.ofMachine m) = (.ok (), s)) : Runs Q s := by
  obtain ⟨f, hf, henter⟩ := lift_bind_ok.mp hstart
  obtain ⟨body, entry, b, hbody, -, hb, rfl⟩ := enter_ok henter
  exact List.forall_mem_singleton.mpr (every_of_enterBlock (all name f (orRaise_eq_ok.mp hf) body hbody) hb)

theorem Runs.step (all : t.program.AllBodies (FlowGraph.Every Q)) (hs : Runs Q s)
    (hstep : (Processor.step t).runFrom s = (.ok .running, s')) : Runs Q s' := by
  obtain ⟨a, callers, hcalls, hmove⟩ := step_running hstep
  have hcode : ∀ c ∈ a :: callers, (∀ i ∈ c.remaining, Q i) ∧ c.body.Every Q := hcalls ▸ hs
  obtain ⟨ha, hcallers⟩ := List.forall_mem_cons.mp hcode
  rcases hmove with ⟨-, b, hb, rfl⟩ | ⟨i, rest, hrem, hrun⟩
  · rw [Activation.nextBlock_eq] at hb
    obtain ⟨target, -, hb⟩ := bind_eq_ok.mp hb
    exact List.forall_mem_cons.mpr ⟨every_of_enterBlock ha.2 hb, hcallers⟩
  · have hbehind : ∀ j ∈ rest, Q j := fun j hj => ha.1 j (hrem ▸ List.mem_cons_of_mem i hj)
    obtain ⟨shape, -⟩ := execute_shape hrun
    unfold Runs
    generalize s'.calls = calls' at shape
    cases shape with
    | stays scalars _ => exact List.forall_mem_cons.mpr ⟨⟨hbehind, ha.2⟩, hcallers⟩
    | enters _ _ _ _ function defined _ entered =>
      exact List.forall_mem_cons.mpr ⟨every_of_enterBlock (all _ _ (orRaise_eq_ok.mp function) _ defined) entered,
        List.forall_mem_cons.mpr ⟨⟨hbehind, ha.2⟩, hcallers⟩⟩
    | leaves scalars _ suspended =>
      subst suspended
      obtain ⟨hc, hothers⟩ := List.forall_mem_cons.mp hcallers
      exact List.forall_mem_cons.mpr ⟨hc, hothers⟩
    | ends _ _ => exact fun _ hc => absurd hc List.not_mem_nil

end Code

section EntersOnce

variable {t : Task} {s s' : Processor} {body : FlowGraph} {block : Nat}

theorem mayEnter_of_callee {m : Machine} {a : Activation} {p : Program} {dst : Option Variable} {target : CallTarget}
    {arguments : List Value} {name : String} {f : Function} (hcallee : callee m a target = .ok name)
    (hf : p.function name = .ok f) (hbody : f.body = some body) :
    (Operation.call dst target arguments).mayEnter p body = true := by
  cases target with
  | direct other =>
    cases hcallee
    refine decide_eq_true ?_
    rw [orRaise_eq_ok.mp hf, Option.bind_some, hbody]
  | indirect _ => rfl

theorem Runs.not_enters (once : t.program.EntersOnce body block)
    (hs : Runs (fun i => i.operation.mayEnter t.program body = false) s)
    (hstep : (Processor.step t).runFrom s = (.ok .running, s')) : ¬ Enters body block s s' := by
  rintro ⟨⟨b, hb, hbody, hblock⟩, hnew⟩
  obtain ⟨a, callers, hcalls, hmove⟩ := step_running hstep
  rcases hmove with ⟨-, c, hc, rfl⟩ | ⟨i, rest, hrem, hrun⟩
  · -- The innermost call goes on in another block, to which an edge leads.
    cases hb
    rw [Activation.nextBlock_eq] at hc
    obtain ⟨target, htarget, hc⟩ := bind_eq_ok.mp hc
    obtain ⟨es, hes, hfollow⟩ := bind_eq_ok.mp htarget
    obtain ⟨x, scalars, -, rfl⟩ := Activation.enterBlock_ok hc
    obtain ⟨e, he, rfl, -⟩ := Activation.exists_of_follow hfollow
    obtain ⟨successors, -, hall⟩ := Graph.edgesOut_eq_ok.mp hes
    obtain ⟨w, -, hget⟩ := exists_of_mem_forall₂ hall he
    exact once.edges e (Table.mem_values_of_get? (hbody ▸ hget)) hblock
  · -- Only a call makes the calls in progress more.
    obtain ⟨shape, -⟩ := execute_shape hrun
    have hlonger : callers.length + 1 < s'.calls.length := by
      refine (hnew.resolve_right ?_).trans_eq' ?_
      · rw [next?, hcalls, List.head?_cons, Option.bind_eq_bind, Option.bind_some, hrem]
        exact nofun
      · rw [hcalls, List.length_cons]
    generalize s'.calls = calls' at shape hb hlonger
    cases shape with
    | stays scalars _ => exact absurd hlonger (Nat.lt_irrefl _)
    | @enters _ _ _ _ _ _ _ _ _ isCall callee _ _ function defined _ entered =>
      cases hb
      obtain ⟨x, scalars, -, rfl⟩ := Activation.enterBlock_ok entered
      have hnever : i.operation.mayEnter t.program body = false :=
        (hs a (hcalls ▸ List.mem_cons_self)).1 i (hrem ▸ List.mem_cons_self)
      rw [isCall, mayEnter_of_callee callee function (defined.trans (congrArg some hbody))] at hnever
      cases hnever
    | leaves scalars _ suspended =>
      rw [suspended, List.length_cons, List.length_cons] at hlonger
      omega
    | ends _ _ => exact absurd hlonger (Nat.not_lt_zero _)

/-- A run does not come back to a block that nothing in the code leads to. -/
theorem not_revisits_of_entersOnce (once : t.program.EntersOnce body block) {name : String} {arguments : List Word}
    {s₀ : Processor} {steps : Nat} (hs : Comes t name arguments s₀ steps s) : ¬ Revisits t body block steps s₀ := by
  obtain ⟨⟨kind, m, -, hstart⟩, -⟩ := hs
  rintro ⟨k, -, u, u', hu, hstep, hentered⟩
  have hruns := after_induction (fun _ _ hv hstep => hv.step once.calls hstep) (runs_of_start once.calls hstart) hu
  exact hruns.not_enters once hstep hentered

end EntersOnce

end Processor

def readsTable : Program :=
  ((Program.ofFunctions [.ofCode "main" [] [[.load ⟨"v", .integer 64⟩ (.global "table"), .ret none]] []]).addGlobal
    ⟨"counter", .integer 64, .external, true⟩).addGlobal ⟨"table", .array (.integer 64) 4, .external, true⟩

def comesToLoad (t : Task) : Bool :=
  (t.comes? [] 2).any fun (_, s, _) => s.next?.any fun i => !i.isInjected && !i.operation.isPhi

def entersMainOnce (q : Program) : Bool :=
  (q.function? "main").any fun f => f.body.any fun body => body.entry.any fun entry => decide (q.EntersOnce body entry)

theorem entersOnce_of_entersMainOnce {q : Program} (h : entersMainOnce q) {f : Function} {body : FlowGraph} {entry : Nat}
    (hf : q.function? "main" = some f) (hbody : f.body = some body) (hentry : body.entry = some entry) :
    q.EntersOnce body entry := by
  unfold entersMainOnce at h
  rw [hf, Option.any_some, hbody, Option.any_some, hentry, Option.any_some] at h
  exact of_decide_eq_true h

theorem readsTable_runs :
    readsTable.AllBodies FlowGraph.Untouched ∧
    readsTable.trackedGlobals.toOption = some [("counter", 8), ("table", 32)] ∧
    (Trial.mk readsTable .default "main" []).instrumented?.any fun x =>
      (Image.ofProgram x.2).toOption.any (fun image => decide image.IsClear) && entersMainOnce x.2 &&
        comesToLoad ⟨x.2, .default, Processor.defaultStepLimit⟩ := by
  decide +kernel

open Processor

theorem globals_registered_once_readsTable :
    readsTable.Made ∧ Configuration.default.hooks.names.Nodup ∧ readsTable.IsPlain Configuration.default.hooks ∧
      Configuration.default.globals = true ∧ readsTable.trackedGlobals = .ok [("counter", 8), ("table", 32)] ∧
      ∃ report q x body entry s₀ s i, readsTable.Instruments .default report q ∧ Image.ofProgram q = .ok x ∧ x.IsClear ∧
        Comes ⟨q, .default, defaultStepLimit⟩ "main" [] s₀ 2 s ∧ ¬ Revisits ⟨q, .default, defaultStepLimit⟩ body entry 2 s₀ ∧
        s.next? = some i ∧ i.isInjected = false ∧ i.operation.isPhi = false ∧
        registered Configuration.default.hooks ⟨q, .default, defaultStepLimit⟩ 2 s₀ =
          GlobalVariable.registrations Configuration.default.hooks [("counter", 8), ("table", 32)] := by
  have made : readsTable.Made := .addGlobal (.addGlobal (Program.made_of_ofFunctions fun f hf => by
    cases List.mem_singleton.mp hf
    exact Function.made_of_ofCode))
  have distinct : Configuration.default.hooks.names.Nodup := by decide
  obtain ⟨untouched, hglobals, hall⟩ := readsTable_runs
  have plain : readsTable.IsPlain Configuration.default.hooks := Program.isPlain_of_untouched untouched _
  have hglobals := toOption_eq_some.mp hglobals
  obtain ⟨⟨report, q⟩, hq, hall⟩ := (Option.any_eq_true ..).mp hall
  obtain ⟨hall, hcomes⟩ := Bool.and_eq_true_iff.mp hall
  obtain ⟨hclear, honce⟩ := Bool.and_eq_true_iff.mp hall
  obtain ⟨x, hx, hclear⟩ := (Option.any_eq_true ..).mp hclear
  obtain ⟨⟨s₀, s, a⟩, hcomes, hload⟩ := (Option.any_eq_true ..).mp hcomes
  obtain ⟨i, hi, hown⟩ := (Option.any_eq_true ..).mp hload
  obtain ⟨own, notPhi⟩ := Bool.and_eq_true_iff.mp hown
  rw [Bool.not_eq_true'] at own notPhi
  obtain ⟨hcomes, -⟩ := Task.comes_of_comes? hcomes
  have hx := toOption_eq_some.mp hx
  have hclear := of_decide_eq_true hclear
  have hq := Trial.instruments_of_instrumented? hq
  obtain ⟨-, f, body, entry, hf, hbody, hentry, hruns⟩ :=
    Program.globals_registered_once made distinct plain rfl hglobals (List.cons_ne_nil _ _) hq hx hclear
  have hnot := not_revisits_of_entersOnce (entersOnce_of_entersMainOnce honce hf hbody hentry) hcomes
  obtain ⟨j, -, hregistered, hcode⟩ := hruns _ _ _ _ _ hcomes hnot
  obtain rfl := (hcode i hi).1 own notPhi
  exact ⟨made, distinct, plain, rfl, hglobals, report, q, x, body, entry, s₀, s, i, hq, hx, hclear, hcomes, hnot, hi, own,
    notPhi, hregistered⟩

def countsDown : Program :=
  let n : Argument := ⟨0, "n", .integer 64⟩
  let less : Variable := ⟨"less", .integer 64⟩
  (Program.ofFunctions [
    .ofCode "main" [n]
      [[.compare ⟨"again", .integer 1⟩ .ne (.argument n) (.ofWord 0 64)],
        [.binary less .sub (.argument n) (.ofWord 1 64), .call none (.direct "main") [.variable less]],
        [.ret none]]
      (LoopBound.branch 0 "again" 1 2 ++ [(1, 2, none)])]).addGlobal ⟨"counter", .integer 64, .external, true⟩

def countdown (n : Word) : Trial := ⟨countsDown, .default, "main", [n]⟩

theorem countsDown_runs :
    countsDown.verify = .ok () ∧ countsDown.trackedGlobals.toOption = some [("counter", 8)] ∧
    ((countdown 0).answers fun _ _ r => r = .ok none) ∧
    ((countdown 1).answers fun _ _ r => r = .error (.error (.regionOverlap 0x20000000))) ∧
    ((countdown 1).after? 5).any fun (_, q, s) => (s.next?.any fun i => decide (i.Registers Hooks.default)) &&
      decide (((Processor.step ((countdown 1).task q)).runFrom s).1 = .error (.error (.regionOverlap 0x20000000))) := by
  decide +kernel

/-- When the function with the registrations calls itself, it registers its global a second time, which fails. The program
counts down from zero, where it does not call itself, but not from one. -/
theorem recursion_registers_twice :
    countsDown.Made ∧ countsDown.verify = .ok () ∧ countsDown.trackedGlobals = .ok [("counter", 8)] ∧
      Configuration.default.globals = true ∧ Configuration.default.globalInitFunction = "main" ∧
      (∃ report q m, countsDown.Instruments .default report q ∧ Machine.ofProgram q .keyed = .ok m ∧
        ((Processor.run ((countdown 0).task q) "main" [0]).runFrom (.ofMachine m)).1 = .ok none) ∧
      (∃ report q m, countsDown.Instruments .default report q ∧ Machine.ofProgram q .keyed = .ok m ∧
        ((Processor.run ((countdown 1).task q) "main" [1]).runFrom (.ofMachine m)).1 =
          .error (.error (.regionOverlap 0x20000000))) ∧
      ∃ report q s i, countsDown.Instruments .default report q ∧ Reached ((countdown 1).task q) "main" [1] s ∧
        s.next? = some i ∧ i.Registers Hooks.default ∧
        ((Processor.step ((countdown 1).task q)).runFrom s).1 = .error (.error (.regionOverlap 0x20000000)) := by
  have made : countsDown.Made := .addGlobal (Program.made_of_ofFunctions fun f hf => by
    cases List.mem_singleton.mp hf
    exact Function.made_of_ofCode)
  obtain ⟨verified, hglobals, hzero, hone, hagain⟩ := countsDown_runs
  obtain ⟨report₀, q₀, m₀, hq₀, hm₀, hresult⟩ := Trial.exists_of_answers hzero
  obtain ⟨report₁, q₁, m₁, hq₁, hm₁, hfails⟩ := Trial.exists_of_answers hone
  obtain ⟨⟨report, q, s⟩, hafter, hagain⟩ := (Option.any_eq_true ..).mp hagain
  obtain ⟨hnext, hstep⟩ := Bool.and_eq_true_iff.mp hagain
  obtain ⟨i, hi, hregisters⟩ := (Option.any_eq_true ..).mp hnext
  obtain ⟨hq, hreached⟩ := Trial.reached_of_after? hafter
  exact ⟨made, verified, toOption_eq_some.mp hglobals, rfl, rfl, ⟨report₀, q₀, m₀, hq₀, hm₀, of_decide_eq_true hresult⟩,
    ⟨report₁, q₁, m₁, hq₁, hm₁, of_decide_eq_true hfails⟩, report, q, s, i, hq, hreached, hi, of_decide_eq_true hregisters,
    of_decide_eq_true hstep⟩

end RegionGuard

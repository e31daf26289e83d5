import RegionGuard.Proofs.OverlaidCalls
set_option autoImplicit false

namespace RegionGuard

open Stateful

structure Writing where
  place : Location
  written : Variable
  value : Constant

abbrev History := List Writing

namespace History

def latest? (h : History) (place : Location) : Option Writing := h.find? (·.place = place)

theorem latest?_append_of_ne {ws h : History} {place : Location} (hne : ∀ w ∈ ws, w.place ≠ place) :
    latest? (ws ++ h) place = h.latest? place := by
  unfold latest?
  rw [List.find?_append, List.find?_eq_none.mpr fun w hw => by simpa using hne w hw]
  rfl

theorem latest?_append_of_mem {ws h : History} {w : Writing} (hw : w ∈ ws)
    (unique : ∀ w' ∈ ws, w'.place = w.place → w' = w) : latest? (ws ++ h) w.place = some w := by
  unfold latest?
  rw [List.find?_append]
  cases hfind : ws.find? (·.place = w.place) with
  | none => exact absurd (decide_eq_true rfl) (List.find?_eq_none.mp hfind w hw)
  | some w' =>
    rw [unique w' (List.mem_of_find?_eq_some hfind) (by simpa using List.find?_some hfind)]
    rfl

end History

namespace Activation

def done (a : Activation) : List Instruction :=
  match a.body.block a.block with
  | .ok b => b.instructions.take (b.instructions.length - a.remaining.length)
  | .error _ => []

/-- What instructions of the current block have written, going by what the variables hold. -/
def writings (a : Activation) (l : List Instruction) : History :=
  l.reverse.filterMap fun i => do
    let v ← i.operation.written?
    let c ← a.scalars.get? v.name
    return ⟨⟨a.block, i.index⟩, v, c⟩

def Assigns (a : Activation) (dst : Option Variable) (a' : Activation) : Prop :=
  match dst with
  | none => a' = a
  | some v => ∃ c, a' = a.assign v c

variable {a a' : Activation} {dst : Option Variable}

theorem done_of_placed {l : List Instruction} (h : a.Placed l) : a.done = l := by
  obtain ⟨b, hb, hinstructions⟩ := h
  unfold done
  rw [hb]
  simp only
  rw [hinstructions, List.length_append, Nat.add_sub_cancel, List.take_left']
  rfl

theorem mem_writings {l : List Instruction} {w : Writing} :
    w ∈ a.writings l ↔ ∃ i ∈ l, w.place = ⟨a.block, i.index⟩ ∧ i.operation.written? = some w.written ∧
      a.scalars.get? w.written.name = some w.value := by
  unfold writings
  rw [List.mem_filterMap]
  constructor
  · rintro ⟨i, hi, hw⟩
    obtain ⟨v, hv, hw⟩ := Option.bind_eq_some_iff.mp hw
    obtain ⟨c, hc, hw⟩ := Option.bind_eq_some_iff.mp hw
    cases hw
    exact ⟨i, List.mem_reverse.mp hi, rfl, hv, hc⟩
  · rintro ⟨i, hi, hplace, hv, hc⟩
    refine ⟨i, List.mem_reverse.mpr hi, ?_⟩
    rw [hv]
    change (do
      let c ← a.scalars.get? w.written.name
      return ⟨⟨a.block, i.index⟩, w.written, c⟩) = some w
    rw [hc, ← hplace]
    rfl

theorem Assigns.fixed (h : a.Assigns dst a') : ∃ scalars, a' = a.withScalars scalars := by
  cases dst with
  | none => exact ⟨a.scalars, h⟩
  | some v =>
    obtain ⟨c, rfl⟩ := h
    exact ⟨_, rfl⟩

theorem Assigns.isSome {v : Variable} (h : a.Assigns (some v) a') : ∃ c, a'.scalars.get? v.name = some c := by
  obtain ⟨c, rfl⟩ := h
  refine ⟨c, ?_⟩
  change (a.scalars.insert v.name c).get? v.name = some c
  rw [Table.get?_insert, if_pos rfl]

theorem Assigns.get?_of_ne (h : a.Assigns dst a') {name : String} (hname : ∀ v ∈ dst, v.name ≠ name) :
    a'.scalars.get? name = a.scalars.get? name := by
  cases dst with
  | none => rw [show a' = a from h]
  | some v =>
    obtain ⟨c, rfl⟩ := h
    change (a.scalars.insert v.name c).get? name = _
    rw [Table.get?_insert, if_neg fun heq => hname v rfl heq.symm]

theorem assigns_of_receive {result : Option Word} (h : a.receive dst result = .ok a') : a.Assigns dst a' := by
  rw [receive_eq] at h
  cases dst with
  | none => exact (Except.ok.inj h).symm
  | some v =>
    obtain ⟨bits, -, h⟩ := map_eq_ok.mp h
    exact ⟨_, h.symm⟩

end Activation

namespace Processor

variable {t : Task} {s s' : Processor} {a : Activation} {callers : List Activation}

inductive Passage (t : Task) (m : Machine) (a : Activation) (callers : List Activation) (o : Operation) :
    List Activation → Prop where
  | stays {a' : Activation} (assigns : a.Assigns o.written? a') : Passage t m a callers o (a' :: callers)
  | enters {name : String} {f : Function} {body : FlowGraph} {entry : Nat} {constants : List Constant} {w : Word}
    {b : Activation} (function : t.program.function name = .ok f) (defined : f.body = some body)
    (starts : body.entry = some entry)
    (entered : Activation.enterBlock m ⟨body, entry, [], ∅, constants, w, .caller o.written?⟩ none entry = .ok b) :
    Passage t m a callers o (b :: a :: callers)
  | leaves {c c' : Activation} {rest : List Activation} {dst : Option Variable} (suspended : callers = c :: rest)
    (receiver : a.receiver = .caller dst) (assigns : c.Assigns dst c') : Passage t m a callers o (c' :: rest)
  | ends (outermost : callers = []) : Passage t m a callers o []

theorem deliver_assigns {dst : Option Variable} {result : Option Word} {progress : Progress}
    (h : (deliver dst result (a :: callers)).runFrom s = (.ok progress, s')) :
    ∃ a', a.Assigns dst a' ∧ s'.calls = a' :: callers := by
  unfold deliver at h
  obtain ⟨a', ha', h⟩ := lift_bind_ok.mp h
  exact ⟨a', Activation.assigns_of_receive ha', by rw [resume_running h]⟩

theorem call_passes {dst : Option Variable} {target : CallTarget} {arguments : List Value}
    (h : (call t a callers dst target arguments).runFrom s = (.ok .running, s')) :
    Passage t s.machine a callers (.call dst target arguments) s'.calls := by
  unfold call at h
  rw [runFrom_get_bind] at h
  obtain ⟨constants, -, h⟩ := lift_bind_ok.mp h
  obtain ⟨name, -, h⟩ := lift_bind_ok.mp h
  split at h
  · obtain ⟨result, s₁, -, h⟩ := runFrom_bind_ok.mp h
    obtain ⟨a', ha', hcalls⟩ := deliver_assigns h
    exact hcalls ▸ .stays ha'
  · obtain ⟨f, hf, h⟩ := lift_bind_ok.mp h
    split at h
    · obtain ⟨a', ha', hcalls⟩ := deliver_assigns h
      exact hcalls ▸ .stays ha'
    · obtain ⟨progress, s₁, hresume, h⟩ := runFrom_bind_ok.mp h
      have hs₁ := resume_running hresume
      obtain ⟨_, s₂, henter, h⟩ := runFrom_bind_ok.mp h
      cases h
      obtain ⟨body, entry, b, hbody, hentry, hb, rfl⟩ := enter_ok henter
      subst hs₁
      exact .enters hf hbody hentry hb

theorem leave_passes {result : Option Constant} (value : Option Value)
    (h : (leave a callers result).runFrom s = (.ok .running, s')) :
    Passage t s.machine a callers (.ret value) s'.calls := by
  unfold leave at h
  rw [runFrom_modify_bind] at h
  split at h
  · cases h
  · rename_i dst hreceiver
    cases callers with
    | nil =>
      cases h
      exact .ends rfl
    | cons c rest =>
      obtain ⟨c', hc', hcalls⟩ := deliver_assigns h
      exact hcalls ▸ .leaves rfl hreceiver hc'

theorem execute_passes {o : Operation} (h : (execute t a callers o).runFrom s = (.ok .running, s')) :
    Passage t s.machine a callers o s'.calls := by
  unfold execute at h
  rw [runFrom_get_bind] at h
  cases o with
  | alloca dst ty count =>
    unfold allocate at h
    rw [runFrom_get_bind] at h
    obtain ⟨count, -, h⟩ := lift_bind_ok.mp h
    obtain ⟨size, -, h⟩ := lift_bind_ok.mp h
    obtain ⟨alignment, -, h⟩ := lift_bind_ok.mp h
    obtain ⟨place, -, h⟩ := present_bind_ok.mp h
    rw [runFrom_modify_bind] at h
    rw [resume_running h]
    exact .stays ⟨_, rfl⟩
  | load dst pointer =>
    obtain ⟨c, -, h⟩ := lift_bind_ok.mp h
    rw [resume_running h]
    exact .stays ⟨c, rfl⟩
  | store pointer value =>
    obtain ⟨place, -, h⟩ := lift_bind_ok.mp h
    obtain ⟨c, -, h⟩ := lift_bind_ok.mp h
    obtain ⟨bytes, -, h⟩ := lift_bind_ok.mp h
    obtain ⟨_, s₁, -, h⟩ := runFrom_bind_ok.mp h
    rw [resume_running h]
    exact .stays rfl
  | phi dst incoming => cases h
  | call dst target arguments => exact call_passes h
  | ret value =>
    obtain ⟨result, -, h⟩ := lift_bind_ok.mp h
    exact leave_passes value h
  | cast | elementPtr | binary | compare | select =>
    obtain ⟨c, -, h⟩ := lift_bind_ok.mp h
    rw [resume_running h]
    exact .stays ⟨c, rfl⟩
  | nop =>
    rw [resume_running h]
    exact .stays rfl

/-- The histories of the calls in progress behind a step, innermost first. -/
def recorded (s s' : Processor) (hs : List History) : List History :=
  match s.calls, hs, s'.calls with
  | a :: callers, h :: rest, a' :: callers' =>
    if callers'.length < callers.length then
      -- a call has returned: the call instruction of its caller has run
      match rest with
      | g :: rest => (a'.writings a'.done.getLast?.toList ++ g) :: rest
      | [] => []
    else if callers.length < callers'.length then [] :: h :: rest
    else if a.remaining = [] then (a'.writings a'.done ++ h) :: rest
    else (a'.writings a'.done.getLast?.toList ++ h) :: rest
  | _, _, _ => []

/-- The histories after some steps of a run, while the run goes on. -/
def histories (t : Task) : Nat → Processor → List History → List History
  | 0, _, hs => hs
  | steps + 1, s, hs =>
    match (step t).runFrom s with
    | (.ok .running, s') => histories t steps s' (recorded s s' hs)
    | _ => hs

theorem histories_induction {P : Processor → List History → Prop}
    (preserved : ∀ s s' hs, P s hs → (step t).runFrom s = (.ok .running, s') → P s' (recorded s s' hs))
    {steps : Nat} {hs : List History} (hstart : P s hs) (h : after t steps s = some s') :
    P s' (histories t steps s hs) := by
  induction steps generalizing s hs with
  | zero =>
    cases h
    exact hstart
  | succ steps ih =>
    obtain ⟨s₁, hs₁, h⟩ := after_succ h
    unfold histories
    rw [hs₁]
    exact ih (preserved s s₁ hs hstart hs₁) h

end Processor

end RegionGuard

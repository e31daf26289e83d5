import RegionGuard.Proofs.Alike
set_option autoImplicit false

namespace RegionGuard

open Stateful

namespace Machine

def IsSound (x : Image) (m : Machine) : Prop := Alike x m m

theorem isSound_iff {x : Image} {m : Machine} :
    m.IsSound x ↔ m.image = x ∧ m.monitor.space.IsAnchored := by
  constructor
  · intro h
    exact ⟨h.left, h.monitor.space.anchored⟩
  · rintro ⟨himage, hanchored⟩
    exact ⟨himage, himage, ⟨rfl, hanchored⟩, rfl, rfl, rfl⟩

theorem isSound_of_respects {α : Type} {x : Image} {e : Stateful Machine α} {m m' : Machine} {a : α}
    (he : Respects (Alike x) e) (hm : m.IsSound x) (h : e.runFrom m = (.ok a, m')) : m'.IsSound x := by
  have hr := he m m hm
  rw [h] at hr
  exact hr.2

theorem onMonitor_ok {α : Type} {e : Stateful Monitor α} {m m' : Machine} {a : α}
    (h : (onMonitor e).runFrom m = (.ok a, m')) :
    ∃ n, e.runFrom m.monitor = (.ok a, n) ∧ m' = { m with monitor := n } := by
  change ((e.runFrom m.monitor).1, { m with monitor := (e.runFrom m.monitor).2 }) = _ at h
  rw [Prod.mk.injEq] at h
  exact ⟨_, Prod.ext h.1 rfl, h.2.symm⟩

end Machine

namespace Activation

def withScalars (a : Activation) (scalars : Table String Constant) : Activation :=
  { a with scalars := scalars }

theorem receive_ok {a a' : Activation} {dst : Option Variable} {result : Option Word}
    (h : a.receive dst result = .ok a') : ∃ scalars, a' = a.withScalars scalars := by
  unfold receive at h
  cases dst with
  | none =>
    cases h
    exact ⟨a.scalars, rfl⟩
  | some v =>
    cases hb : Evaluation.scalarBits v.ty with
    | error e =>
      simp only [hb] at h
      cases h
    | ok bits =>
      simp only [hb] at h
      cases h
      exact ⟨_, rfl⟩

end Activation

namespace Processor

variable {t : Task} {s s' : Processor} {a : Activation} {callers : List Activation}

theorem resume_running {calls : List Activation} {progress : Progress}
    (h : (resume calls).runFrom s = (.ok progress, s')) : s' = { s with calls := calls } := by
  unfold resume at h
  cases h
  rfl

theorem deliver_running {dst : Option Variable} {result : Option Word} {progress : Progress}
    (h : (deliver dst result (a :: callers)).runFrom s = (.ok progress, s')) :
    ∃ scalars, s' = { s with calls := a.withScalars scalars :: callers } := by
  unfold deliver at h
  obtain ⟨a', t, ha, h⟩ := runFrom_bind_ok.mp h
  cases ha' : a.receive dst result with
  | error e =>
    rw [ha'] at ha
    cases ha
  | ok b =>
    rw [ha'] at ha
    cases ha
    obtain ⟨scalars, rfl⟩ := Activation.receive_ok ha'
    exact ⟨scalars, resume_running h⟩

inductive Shape (t : Task) (s : Processor) (a : Activation) (callers : List Activation) (o : Operation) :
    List Activation → Prop where
  | stays (scalars : Table String Constant) (notReturn : o.isReturn = false) :
    Shape t s a callers o (a.withScalars scalars :: callers)
  | enters {dst : Option Variable} {target : CallTarget} {arguments : List Value} {name : String}
    {constants : List Constant} {f : Function} {body : FlowGraph} {entry : Nat} {b : Activation}
    (isCall : o = .call dst target arguments) (callee : callee s.machine a target = .ok name)
    (values : a.values s.machine arguments = .ok constants)
    (unknown : Machine.builtin? t.configuration name (constants.map Constant.value) = none)
    (function : t.program.function name = .ok f) (defined : f.body = some body)
    (starts : body.entry = some entry)
    (entered : Activation.enterBlock s.machine
      ⟨body, entry, [], ∅, constants, s.stackPointer, .caller dst⟩ none entry = .ok b) :
    Shape t s a callers o (b :: a :: callers)
  | leaves {c : Activation} {rest : List Activation} (scalars : Table String Constant)
    (isReturn : o.isReturn) (suspended : callers = c :: rest) :
    Shape t s a callers o (c.withScalars scalars :: rest)
  | ends (isReturn : o.isReturn) (outermost : callers = []) : Shape t s a callers o []

theorem enter_ok {f : Function} {constants : List Constant} {receiver : Receiver}
    (h : (enter f constants receiver).runFrom s = (.ok (), s')) :
    ∃ body entry b, f.body = some body ∧ body.entry = some entry ∧
      Activation.enterBlock s.machine ⟨body, entry, [], ∅, constants, s.stackPointer, receiver⟩ none entry =
        .ok b ∧ s' = { s with calls := b :: s.calls } := by
  unfold enter at h
  rw [runFrom_get_bind] at h
  split at h
  · cases h
  · obtain ⟨body, hbody, h⟩ := lift_bind_ok.mp h
    obtain ⟨entry, hentry, h⟩ := lift_bind_ok.mp h
    obtain ⟨b, hb, h⟩ := lift_bind_ok.mp h
    cases h
    exact ⟨body, entry, b, orRaise_eq_ok.mp hbody, orRaise_eq_ok.mp hentry, hb, rfl⟩

theorem onMachine_runFrom {α : Type} (x : Stateful Machine α) (s : Processor) :
    (onMachine x).runFrom s =
      ((x.runFrom s.machine).1, { s with machine := (x.runFrom s.machine).2 }) := rfl

theorem onMachine_ok {α : Type} {x : Stateful Machine α} {r : α}
    (h : (onMachine x).runFrom s = (.ok r, s')) :
    ∃ m, x.runFrom s.machine = (.ok r, m) ∧ s' = { s with machine := m } := by
  rw [onMachine_runFrom, Prod.mk.injEq] at h
  exact ⟨_, Prod.ext h.1 rfl, h.2.symm⟩

theorem call_shape {dst : Option Variable} {target : CallTarget} {arguments : List Value}
    (h : (call t a callers dst target arguments).runFrom s = (.ok .running, s')) :
    Shape t s a callers (.call dst target arguments) s'.calls ∧
      ∀ x, s.machine.IsSound x → s'.machine.IsSound x := by
  unfold call at h
  rw [runFrom_get_bind] at h
  obtain ⟨constants, hvalues, h⟩ := lift_bind_ok.mp h
  obtain ⟨name, hcallee, h⟩ := lift_bind_ok.mp h
  split at h
  · rename_i e he
    obtain ⟨result, s₁, he', h⟩ := runFrom_bind_ok.mp h
    obtain ⟨scalars, rfl⟩ := deliver_running h
    obtain ⟨m, hm, rfl⟩ := onMachine_ok he'
    exact ⟨.stays scalars rfl, fun x hx => Machine.isSound_of_respects (Machine.builtin?_respects he) hx hm⟩
  · rename_i unknown
    obtain ⟨f, hf, h⟩ := lift_bind_ok.mp h
    split at h
    · obtain ⟨scalars, rfl⟩ := deliver_running h
      exact ⟨.stays scalars rfl, fun _ hx => hx⟩
    · obtain ⟨progress, s₁, hresume, h⟩ := runFrom_bind_ok.mp h
      have hs₁ := resume_running hresume
      obtain ⟨_, s₂, henter, h⟩ := runFrom_bind_ok.mp h
      cases h
      obtain ⟨body, entry, b, hbody, hentry, hb, rfl⟩ := enter_ok henter
      subst hs₁
      exact ⟨.enters rfl hcallee hvalues unknown hf hbody hentry hb, fun _ hx => hx⟩

theorem isSound_withStackPointer {x : Image} {w : Word} (h : s.machine.IsSound x) :
    (withStackPointer w s).machine.IsSound x :=
  ⟨h.left, h.right, h.monitor.space, rfl, rfl, rfl⟩

theorem allocate_shape {dst : Variable} {ty : Ty} {count : Value}
    (h : (allocate a callers dst ty count).runFrom s = (.ok .running, s')) :
    (∃ scalars, s'.calls = a.withScalars scalars :: callers) ∧
      ∀ x, s.machine.IsSound x → s'.machine.IsSound x := by
  unfold allocate at h
  rw [runFrom_get_bind] at h
  obtain ⟨count, -, h⟩ := lift_bind_ok.mp h
  obtain ⟨size, -, h⟩ := lift_bind_ok.mp h
  obtain ⟨alignment, -, h⟩ := lift_bind_ok.mp h
  obtain ⟨place, -, h⟩ := present_bind_ok.mp h
  rw [runFrom_modify_bind] at h
  rw [resume_running h]
  exact ⟨⟨_, rfl⟩, fun _ hx => isSound_withStackPointer hx⟩

theorem leave_shape {result : Option Constant}
    (h : (leave a callers result).runFrom s = (.ok .running, s')) :
    (callers = [] ∧ s'.calls = [] ∨
      ∃ c rest scalars, callers = c :: rest ∧ s'.calls = c.withScalars scalars :: rest) ∧
      ∀ x, s.machine.IsSound x → s'.machine.IsSound x := by
  unfold leave at h
  rw [runFrom_modify_bind] at h
  split at h
  · cases h
  · cases callers with
    | nil =>
      cases h
      exact ⟨.inl ⟨rfl, rfl⟩, fun x hx => isSound_withStackPointer (s := { s with calls := [] }) hx⟩
    | cons c rest =>
      obtain ⟨scalars, rfl⟩ := deliver_running h
      exact ⟨.inr ⟨c, rest, scalars, rfl, rfl⟩,
        fun x hx => isSound_withStackPointer (s := { s with calls := c :: rest }) hx⟩

theorem execute_shape {o : Operation} (h : (execute t a callers o).runFrom s = (.ok .running, s')) :
    Shape t s a callers o s'.calls ∧ ∀ x, s.machine.IsSound x → s'.machine.IsSound x := by
  unfold execute at h
  rw [runFrom_get_bind] at h
  cases o with
  | alloca dst ty count =>
    obtain ⟨⟨scalars, hs⟩, hsound⟩ := allocate_shape h
    exact ⟨hs ▸ .stays scalars rfl, hsound⟩
  | load dst pointer =>
    obtain ⟨c, -, h⟩ := lift_bind_ok.mp h
    rw [resume_running h]
    exact ⟨.stays _ rfl, fun _ hx => hx⟩
  | store pointer value =>
    obtain ⟨place, -, h⟩ := lift_bind_ok.mp h
    obtain ⟨c, -, h⟩ := lift_bind_ok.mp h
    obtain ⟨bytes, -, h⟩ := lift_bind_ok.mp h
    obtain ⟨_, s₁, hs₁, h⟩ := runFrom_bind_ok.mp h
    obtain ⟨m, hm, rfl⟩ := onMachine_ok hs₁
    rw [resume_running h]
    exact ⟨.stays a.scalars rfl, fun _ hx =>
      Machine.isSound_of_respects ((Machine.stores_alike _).onMemory_respects _) hx hm⟩
  | phi dst incoming => cases h
  | call dst target arguments => exact call_shape h
  | ret value =>
    obtain ⟨result, -, h⟩ := lift_bind_ok.mp h
    obtain ⟨hshape, hsound⟩ := leave_shape h
    refine ⟨?_, hsound⟩
    rcases hshape with ⟨hc, hs⟩ | ⟨c, rest, scalars, hc, hs⟩
    · exact hs ▸ .ends rfl hc
    · exact hs ▸ .leaves scalars rfl hc
  | cast dst kind src =>
    obtain ⟨c, -, h⟩ := lift_bind_ok.mp h
    rw [resume_running h]
    exact ⟨.stays _ rfl, fun _ hx => hx⟩
  | elementPtr dst base source indices inbounds =>
    obtain ⟨c, -, h⟩ := lift_bind_ok.mp h
    rw [resume_running h]
    exact ⟨.stays _ rfl, fun _ hx => hx⟩
  | binary dst op lhs rhs =>
    obtain ⟨c, -, h⟩ := lift_bind_ok.mp h
    rw [resume_running h]
    exact ⟨.stays _ rfl, fun _ hx => hx⟩
  | compare dst predicate lhs rhs =>
    obtain ⟨c, -, h⟩ := lift_bind_ok.mp h
    rw [resume_running h]
    exact ⟨.stays _ rfl, fun _ hx => hx⟩
  | select dst condition onTrue onFalse =>
    obtain ⟨c, -, h⟩ := lift_bind_ok.mp h
    rw [resume_running h]
    exact ⟨.stays _ rfl, fun _ hx => hx⟩
  | nop =>
    rw [resume_running h]
    exact ⟨.stays a.scalars rfl, fun _ hx => hx⟩

def countOne (s : Processor) : Processor := { s with steps := s.steps + 1 }

theorem step_running (h : (step t).runFrom s = (.ok .running, s')) :
    ∃ a callers, s.calls = a :: callers ∧
      ((a.remaining = [] ∧ ∃ b, a.nextBlock s.machine = .ok b ∧ s' = { s with calls := b :: callers }) ∨
        ∃ i rest, a.remaining = i :: rest ∧
          (execute t { a with remaining := rest } callers i.operation).runFrom s.countOne =
            (.ok .running, s')) := by
  unfold step at h
  rw [runFrom_get_bind] at h
  split at h
  · cases h
  · rename_i a callers hcalls
    refine ⟨a, callers, hcalls, ?_⟩
    split at h
    · rename_i hrem
      obtain ⟨b, hb, h⟩ := lift_bind_ok.mp h
      exact .inl ⟨hrem, b, hb, resume_running h⟩
    · rename_i i rest hrem
      refine .inr ⟨i, rest, hrem, ?_⟩
      unfold countStep at h
      obtain ⟨_, s₁, hcount, h⟩ := runFrom_bind_ok.mp h
      rw [runFrom_modify_bind, runFrom_get_bind] at hcount
      split at hcount
      · cases hcount
      · cases hcount
        exact h

def after (t : Task) : Nat → Processor → Option Processor
  | 0, s => some s
  | steps + 1, s =>
    match (step t).runFrom s with
    | (.ok .running, s') => after t steps s'
    | _ => none

theorem after_succ {steps : Nat} (h : after t (steps + 1) s = some s') :
    ∃ s₁, (step t).runFrom s = (.ok .running, s₁) ∧ after t steps s₁ = some s' := by
  unfold after at h
  split at h
  · rename_i s₁ hs₁
    exact ⟨s₁, hs₁, h⟩
  · cases h

theorem after_induction {P : Processor → Prop}
    (preserved : ∀ s s', P s → (step t).runFrom s = (.ok .running, s') → P s') {steps : Nat}
    (hs : P s) (h : after t steps s = some s') : P s' := by
  induction steps generalizing s with
  | zero =>
    cases h
    exact hs
  | succ steps ih =>
    obtain ⟨s₁, hs₁, h⟩ := after_succ h
    exact ih (preserved s s₁ hs hs₁) h

/-- Enters a function with words as arguments, each reduced to the width of its type. -/
def start (t : Task) (function : String) (arguments : List Word) : Stateful Processor Unit := do
  let f ← t.program.function function
  enter f (List.zipWith (fun (x : Argument) w => Constant.make w (x.ty.bits.getD pointerBits))
    f.arguments arguments) .runner

/-- A processor that a run of a function on a fresh machine gets to. -/
def Reached (t : Task) (function : String) (arguments : List Word) (s : Processor) : Prop :=
  ∃ kind m s₀ steps, Machine.ofProgram t.program kind = .ok m ∧
    (start t function arguments).runFrom (.ofMachine m) = (.ok (), s₀) ∧ after t steps s₀ = some s

/-- The innermost call and the instruction that it runs next, if that is the one at a location of a
function. -/
def at? (s : Processor) (p : Program) (function : String) (l : Location) :
    Option (Activation × Instruction) :=
  match s.calls, p.function? function with
  | a :: _, some f =>
    match a.remaining with
    | i :: _ =>
      if f.body = some a.body ∧ a.block = l.block ∧ i.index = l.instruction then some (a, i) else none
    | [] => none
  | _, _ => none

theorem at?_eq_some {s : Processor} {p : Program} {function : String} {l : Location} {a : Activation}
    {i : Instruction} (h : s.at? p function l = some (a, i)) :
    ∃ callers f rest, s.calls = a :: callers ∧ p.function? function = some f ∧ f.body = some a.body ∧
      a.block = l.block ∧ a.remaining = i :: rest ∧ i.index = l.instruction := by
  unfold at? at h
  split at h
  · rename_i b callers f hcalls hf
    split at h
    · rename_i j rest hrem
      split at h
      · rename_i hat
        cases h
        exact ⟨callers, f, rest, hcalls, hf, hat.1, hat.2.1, hrem, hat.2.2⟩
      · cases h
    · cases h
  · cases h

end Processor

theorem Machine.isSound_of_ofProgram {p : Program} {kind : IndexKind} {m : Machine}
    (h : ofProgram p kind = .ok m) : m.IsSound m.image := by
  unfold ofProgram at h
  obtain ⟨image, -, h⟩ := bind_eq_ok.mp h
  obtain ⟨space, hspace, h⟩ := bind_eq_ok.mp h
  cases h
  exact isSound_iff.mpr ⟨rfl, AddressSpace.isAnchored_of_build hspace⟩

end RegionGuard

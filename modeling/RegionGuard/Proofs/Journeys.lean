import RegionGuard.Proofs.Histories
set_option autoImplicit false

/-!
# Where calls have stood

Beside every call in progress runs its journey: the states in which it has made its steps so far. A property of
calls and their journeys that holds when a call starts, and that nothing a call does breaks, holds in the innermost
call wherever a run gets to. A call that waits has it whatever is handed to it.
-/

namespace RegionGuard

open Stateful

/-- The states in which a call has made its steps, the latest first. -/
abbrev Journey := List Activation

theorem Operation.written?_of_computes? {o : Operation} {dst : Variable} (h : o.computes? = some dst) :
    o.written? = some dst := by
  cases o with
  | cast | elementPtr | binary | compare | select =>
    cases h
    rfl
  | _ => cases h

namespace Activation

/-- What an operation may do to the call that executes it: it sets the variable that it writes, to what it computes
if operands alone decide that. -/
structure Performs (m : Machine) (a : Activation) (o : Operation) (a' : Activation) : Prop where
  assigns : a.Assigns o.written? a'
  computes : ∀ dst, o.computes? = some dst → ∃ c, a.computed? m o = some (dst, .ok c) ∧ a' = a.assign dst c

/-- A property of calls and their journeys, on machines with a given image, that every call has from its start and
never loses. -/
structure Course (x : Image) (P : Activation → Journey → Prop) : Prop where
  starts : ∀ {m body entry constants w r b}, m.image = x → body.entry = some entry →
    enterBlock m ⟨body, entry, [], ∅, constants, w, r⟩ none entry = .ok b → P b []
  goesOn : ∀ {m a b j}, m.image = x → P a j → a.remaining = [] → a.nextBlock m = .ok b → P b (a :: j)
  performs : ∀ {m a i rest a' j}, m.image = x → P a j → a.remaining = i :: rest →
    Performs m { a with remaining := rest } i.operation a' → P a' (a :: j)

/-- Calls that wait for a result have a property whatever they receive. -/
def Awaits (P : Activation → Journey → Prop) : Receiver → List Activation → List Journey → Prop
  | _, [], _ => True
  | _, _ :: _, [] => False
  | r, c :: callers, j :: js =>
    (∀ dst c', r = .caller dst → c.Assigns dst c' → P c' j) ∧ Awaits P c.receiver callers js

theorem Assigns.receiver_eq {a a' : Activation} {dst : Option Variable} (h : a.Assigns dst a') :
    a'.receiver = a.receiver := by
  obtain ⟨scalars, rfl⟩ := h.fixed
  rfl

theorem enterBlock_receiver {m : Machine} {a b : Activation} {previous : Option Nat} {block : Nat}
    (h : a.enterBlock m previous block = .ok b) : b.receiver = a.receiver := by
  obtain ⟨x, scalars, -, rfl⟩ := enterBlock_ok h
  rfl

end Activation

namespace Processor

open Activation

variable {t : Task} {s s' : Processor} {a : Activation} {callers : List Activation} {x : Image}
  {P : Activation → Journey → Prop} {j : Journey} {js : List Journey}

def Upholds (P : Activation → Journey → Prop) (calls : List Activation) (js : List Journey) : Prop :=
  ∀ a callers, calls = a :: callers → ∃ j rest, js = j :: rest ∧ P a j ∧ Awaits P a.receiver callers rest

/-- The journeys of the calls in progress behind a step, innermost first. -/
def journeyed (s s' : Processor) (js : List Journey) : List Journey :=
  match s.calls, js, s'.calls with
  | a :: callers, j :: rest, _ :: callers' =>
    if callers'.length < callers.length then rest
    else if callers.length < callers'.length then [] :: (a :: j) :: rest
    else (a :: j) :: rest
  | _, _, _ => []

/-- The journeys after some steps of a run, while the run goes on. -/
def journeys (t : Task) : Nat → Processor → List Journey → List Journey
  | 0, _, js => js
  | steps + 1, s, js =>
    match (step t).runFrom s with
    | (.ok .running, s') => journeys t steps s' (journeyed s s' js)
    | _ => js

theorem journeys_induction {Q : Processor → List Journey → Prop}
    (preserved : ∀ s s' js, Q s js → (step t).runFrom s = (.ok .running, s') → Q s' (journeyed s s' js))
    {steps : Nat} (hstart : Q s js) (h : after t steps s = some s') : Q s' (journeys t steps s js) := by
  induction steps generalizing s js with
  | zero =>
    cases h
    exact hstart
  | succ steps ih =>
    obtain ⟨s₁, hs₁, h⟩ := after_succ h
    unfold journeys
    rw [hs₁]
    exact ih (preserved s s₁ js hstart hs₁) h

theorem journeyed_same {a' : Activation} {callers' : List Activation} (hcalls : s.calls = a :: callers)
    (hcalls' : s'.calls = a' :: callers') (hlength : callers'.length = callers.length) :
    journeyed s s' (j :: js) = (a :: j) :: js := by
  unfold journeyed
  rw [hcalls, hcalls']
  simp only
  rw [if_neg (by omega), if_neg (by omega)]

theorem execute_upholds (course : Course x P) (image : s.machine.image = x) {i : Instruction} {rest : List Instruction}
    (hcalls : s.calls = a :: callers) (hnext : a.remaining = i :: rest) (ha : P a j)
    (hcallers : Awaits P a.receiver callers js)
    (h : (execute t { a with remaining := rest } callers i.operation).runFrom s.countOne = (.ok .running, s')) :
    Upholds P s'.calls (journeyed s s' (j :: js)) := by
  cases hcomputes : i.operation.computes? with
  | some dst =>
    obtain ⟨y, hy, hrun⟩ := execute_computes t s.countOne { a with remaining := rest } callers hcomputes
    rw [hrun] at h
    cases y with
    | error e => cases h
    | ok c =>
      cases h
      rintro _ _ ⟨⟩
      refine ⟨_, _, journeyed_same hcalls rfl rfl, course.performs image ha hnext ⟨?_, fun dst' hdst => ?_⟩, hcallers⟩
      · rw [Operation.written?_of_computes? hcomputes]
        exact ⟨c, rfl⟩
      · cases hcomputes.symm.trans hdst
        exact ⟨c, hy, rfl⟩
  | none =>
    have performs : ∀ a', ({ a with remaining := rest } : Activation).Assigns i.operation.written? a' → P a' (a :: j) :=
      fun a' hassigns => course.performs image ha hnext ⟨hassigns, fun dst hdst => by
        rw [hcomputes] at hdst
        cases hdst⟩
    have hpassage := execute_passes h
    generalize hcalls' : s'.calls = calls' at hpassage
    cases hpassage with
    | stays assigns =>
      rintro _ _ ⟨⟩
      exact ⟨_, _, journeyed_same hcalls hcalls' rfl, performs _ assigns, assigns.receiver_eq ▸ hcallers⟩
    | enters function defined starts entered =>
      rintro _ _ ⟨⟩
      refine ⟨[], (a :: j) :: js, ?_, course.starts image starts entered, ?_⟩
      · unfold journeyed
        rw [hcalls, hcalls']
        simp only [List.length_cons]
        rw [if_neg (by omega), if_pos (Nat.lt_succ_self _)]
      · rw [enterBlock_receiver entered]
        refine ⟨fun dst c' hdst hassigns => ?_, hcallers⟩
        cases hdst
        exact performs c' hassigns
    | leaves suspended receiver assigns =>
      subst suspended
      rintro _ _ ⟨⟩
      cases js with
      | nil => exact hcallers.elim
      | cons j' js =>
        obtain ⟨hreceives, hcallers⟩ := hcallers
        refine ⟨j', js, ?_, hreceives _ _ receiver assigns, assigns.receiver_eq ▸ hcallers⟩
        unfold journeyed
        rw [hcalls, hcalls']
        simp only [List.length_cons]
        rw [if_pos (Nat.lt_succ_self _)]
    | ends outermost => rintro _ _ ⟨⟩

theorem step_upholds (course : Course x P) (image : s.machine.image = x) (hs : Upholds P s.calls js)
    (h : (step t).runFrom s = (.ok .running, s')) : Upholds P s'.calls (journeyed s s' js) := by
  obtain ⟨a, callers, hcalls, hmove⟩ := step_running h
  obtain ⟨j, rest, rfl, ha, hcallers⟩ := hs a callers hcalls
  rcases hmove with ⟨hended, b, hb, rfl⟩ | ⟨i, rest, hnext, hrun⟩
  · rintro _ _ ⟨⟩
    refine ⟨_, _, journeyed_same hcalls rfl rfl, course.goesOn image ha hended hb, ?_⟩
    rw [nextBlock_eq] at hb
    obtain ⟨target, -, hb⟩ := bind_eq_ok.mp hb
    exact enterBlock_receiver hb ▸ hcallers
  · exact execute_upholds course image hcalls hnext ha hcallers hrun

theorem step_image {x : Image} (hs : s.machine.IsSound x) (h : (step t).runFrom s = (.ok .running, s')) :
    s'.machine.IsSound x := by
  obtain ⟨a, callers, -, ⟨-, b, -, rfl⟩ | ⟨i, rest, -, hrun⟩⟩ := step_running h
  · exact hs
  · exact (execute_shape hrun).2 x hs

/-- Some steps take a call of a function from its start, on a fresh machine, to a state of the processor. -/
structure Comes (t : Task) (function : String) (arguments : List Word) (s₀ : Processor) (steps : Nat) (s : Processor) :
    Prop where
  started : ∃ kind m, Machine.ofProgram t.program kind = .ok m ∧
    (start t function arguments).runFrom (.ofMachine m) = (.ok (), s₀)
  after : after t steps s₀ = some s

variable {function : String} {arguments : List Word} {s₀ : Processor} {steps : Nat}

/-- Wherever a run gets to, the innermost call has kept to its course. -/
theorem Comes.upholds (hs : Comes t function arguments s₀ steps s) (course : Course s.machine.image P) :
    Upholds P s.calls (journeys t steps s₀ [[]]) := by
  obtain ⟨⟨kind, m, hm, hstart⟩, hafter⟩ := hs
  obtain ⟨f, -, henter⟩ := lift_bind_ok.mp hstart
  obtain ⟨body, entry, b, -, hentry, hb, rfl⟩ := enter_ok henter
  have sound := Machine.isSound_of_ofProgram hm
  have hsound : s.machine.IsSound m.image :=
    after_induction (P := fun s => s.machine.IsSound m.image) (fun _ _ => step_image) sound hafter
  rw [(Machine.isSound_iff.mp hsound).1] at course
  refine (journeys_induction (Q := fun s js => s.machine.IsSound m.image ∧ Upholds P s.calls js)
    (fun u u' js hu hstep =>
      ⟨step_image hu.1 hstep, step_upholds course (Machine.isSound_iff.mp hu.1).1 hu.2 hstep⟩)
    ⟨sound, ?_⟩ hafter).2
  rintro _ _ ⟨⟩
  exact ⟨_, _, rfl, course.starts rfl hentry hb, enterBlock_receiver hb ▸ trivial⟩

end Processor

open Activation

/-- A property of calls, on machines with a given image, that every call has from its start and never loses. -/
structure Activation.Habit (x : Image) (P : Activation → Prop) : Prop where
  starts : ∀ {m body entry constants w r b}, m.image = x → body.entry = some entry →
    enterBlock m ⟨body, entry, [], ∅, constants, w, r⟩ none entry = .ok b → P b
  goesOn : ∀ {m a b}, m.image = x → P a → a.remaining = [] → a.nextBlock m = .ok b → P b
  performs : ∀ {m a i rest a'}, m.image = x → P a → a.remaining = i :: rest →
    Performs m { a with remaining := rest } i.operation a' → P a'

theorem Processor.Reached.upholds {t : Task} {s : Processor} {P : Activation → Prop} {function : String}
    {arguments : List Word} (hs : Reached t function arguments s) (habit : Habit s.machine.image P) {a : Activation}
    {callers : List Activation} (hcalls : s.calls = a :: callers) : P a := by
  obtain ⟨kind, m, s₀, steps, hm, hstart, hafter⟩ := hs
  have hcomes : Comes t function arguments s₀ steps s := ⟨⟨kind, m, hm, hstart⟩, hafter⟩
  have course : Course s.machine.image fun a _ => P a := ⟨habit.starts, habit.goesOn, habit.performs⟩
  obtain ⟨-, -, -, ha, -⟩ := hcomes.upholds course a callers hcalls
  exact ha

end RegionGuard

import RegionGuard.Proofs.Execution
set_option autoImplicit false

namespace RegionGuard

open Stateful

namespace Processor

variable {t : Task} {s s' u : Processor} {r : Outcome (Option Constant)}

/-- A run from a processor comes to an answer. -/
inductive Ends (t : Task) : Processor → Outcome (Option Constant) → Prop where
  | now {s s' : Processor} {result : Option Constant}
    (step : (step t).runFrom s = (.ok (.finished result), s')) : Ends t s (.ok result)
  | fails {s s' : Processor} {e : Failure} (step : (step t).runFrom s = (.error e, s')) : Ends t s (.error e)
  | later {s s' : Processor} {r : Outcome (Option Constant)}
    (step : (step t).runFrom s = (.ok .running, s')) (rest : Ends t s' r) : Ends t s r

theorem proceed_succ (n : Nat) (t : Task) (s : Processor) :
    (proceed t (n + 1)).runFrom s =
      match (step t).runFrom s with
      | (.ok .running, s') => (proceed t n).runFrom s'
      | (.ok (.finished result), s') => (.ok result, s')
      | (.error e, s') => (.error e, s') := by
  rw [proceed, runFrom_bind]
  match (step t).runFrom s with
  | (.ok .running, s') => rfl
  | (.ok (.finished result), s') => rfl
  | (.error e, s') => rfl

theorem ends_of_proceed {n : Nat} (h : (proceed t n).runFrom s = (r, s')) :
    Ends t s r ∨ r = .error (.fatal .unbounded) := by
  induction n generalizing s with
  | zero =>
    cases h
    exact .inr rfl
  | succ n ih =>
    rw [proceed_succ] at h
    match hstep : (step t).runFrom s with
    | (.ok .running, s₁) =>
      rw [hstep] at h
      exact (ih h).imp_left (.later hstep)
    | (.ok (.finished result), s₁) =>
      rw [hstep] at h
      cases h
      exact .inl (.now hstep)
    | (.error e, s₁) =>
      rw [hstep] at h
      cases h
      exact .inl (.fails hstep)

def Gets (t : Task) (s s' : Processor) : Prop := ∃ steps, after t steps s = some s'

theorem Gets.refl (t : Task) (s : Processor) : Gets t s s := ⟨0, rfl⟩

theorem Gets.step (hstep : (step t).runFrom s = (.ok .running, s')) (h : Gets t s' u) : Gets t s u := by
  obtain ⟨steps, h⟩ := h
  refine ⟨steps + 1, ?_⟩
  unfold after
  rw [hstep]
  exact h

theorem Gets.trans (h : Gets t s s') (h' : Gets t s' u) : Gets t s u := by
  obtain ⟨steps, h⟩ := h
  induction steps generalizing s with
  | zero =>
    cases h
    exact h'
  | succ steps ih =>
    obtain ⟨s₁, hstep, hafter⟩ := after_succ h
    exact .step hstep (ih hafter)

def next? (s : Processor) : Option Instruction := do
  let a ← s.calls.head?
  a.remaining.head?

theorem next?_of_calls {a : Activation} {callers : List Activation} {i : Instruction} {rest : List Instruction}
    (hcalls : s.calls = a :: callers) (hrem : a.remaining = i :: rest) : s.next? = some i := by
  unfold next?
  rw [hcalls]
  change a.remaining.head? = _
  rw [hrem]
  rfl

def StopsAt (t : Task) (P : Processor → Prop) (s : Processor) (e : Failure) : Prop :=
  ∃ u, Gets t s u ∧ P u ∧ ((step t).runFrom u).1 = .error e

theorem StopsAt.step {P : Processor → Prop} {e : Failure}
    (hstep : (step t).runFrom s = (.ok .running, s')) (h : StopsAt t P s' e) : StopsAt t P s e := by
  obtain ⟨u, hu, htail⟩ := h
  exact ⟨u, hu.step hstep, htail⟩

/-- What a run answers, unless it reaches its limit or fails at certain points. -/
inductive Trails (t : Task) (P : Processor → Prop) (r : Outcome (Option Constant)) (s : Processor) :
    Outcome (Option Constant) → Prop where
  | same : Trails t P r s r
  | stepLimit : Trails t P r s (.error (.error (.stepLimit t.stepLimit)))
  | stops {e : Failure} (h : StopsAt t P s e) : Trails t P r s (.error e)

/-- A run ends, and answers as another run has, or trails behind it. -/
def Follows (t : Task) (P : Processor → Prop) (r : Outcome (Option Constant)) (s : Processor) : Prop :=
  ∃ r', Ends t s r' ∧ Trails t P r s r'

namespace Follows

variable {P : Processor → Prop}

theorem step (hstep : (step t).runFrom s = (.ok .running, s')) (h : Follows t P r s') : Follows t P r s := by
  obtain ⟨r', hends, htrails⟩ := h
  refine ⟨r', .later hstep hends, ?_⟩
  cases htrails with
  | same => exact .same
  | stepLimit => exact .stepLimit
  | stops h => exact .stops (h.step hstep)

theorem of_error {e : Failure} (hstep : ((Processor.step t).runFrom s).1 = .error e)
    (h : Trails t P r s (.error e)) : Follows t P r s :=
  ⟨_, .fails (Prod.ext hstep rfl), h⟩

end Follows

section Calls

variable {function : String} {arguments : List Word}

theorem run_ok {result : Option Word} :
    (run t function arguments).runFrom s = (.ok result, u) ↔
      ∃ s₁ r, (start t function arguments).runFrom s = (.ok (), s₁) ∧
        (proceed t patience).runFrom s₁ = (.ok r, u) ∧ result = r.map Constant.value := by
  unfold run start
  constructor
  · intro hrun
    obtain ⟨f, hf, hrun⟩ := lift_bind_ok.mp hrun
    simp only [runFrom_get_bind] at hrun
    obtain ⟨r, u₁, hresult, hrun⟩ := runFrom_bind_ok.mp hrun
    cases hrun
    rw [runFrom_onError] at hresult
    split at hresult
    · rename_i r' u₁ hr
      cases hresult
      obtain ⟨⟨⟩, s₁, henter, hproceed⟩ := runFrom_bind_ok.mp hr
      exact ⟨s₁, _, lift_bind_ok.mpr ⟨f, hf, henter⟩, hproceed, rfl⟩
    · cases hresult
    · cases hresult
  · rintro ⟨s₁, r, hstart, hproceed, rfl⟩
    obtain ⟨f, hf, henter⟩ := lift_bind_ok.mp hstart
    refine lift_bind_ok.mpr ⟨f, hf, ?_⟩
    simp only [runFrom_get_bind]
    refine runFrom_bind_ok.mpr ⟨r, u, ?_, rfl⟩
    rw [runFrom_onError, runFrom_bind_ok.mpr ⟨⟨⟩, s₁, henter, hproceed⟩]

/-- A run answers what comes of its start, unless it cannot start. -/
theorem run_fst (t : Task) (function : String) (arguments : List Word) (s : Processor) :
    ((run t function arguments).runFrom s).1 =
      match (start t function arguments).runFrom s with
      | (.ok _, s₀) => ((proceed t patience).runFrom s₀).1.map (Option.map Constant.value)
      | (.error e, _) => .error e := by
  unfold run start
  rw [runFrom_bind, runFrom_bind, runFrom_lift]
  cases t.program.function function with
  | error e => rfl
  | ok f =>
    simp only [runFrom_get_bind]
    rw [runFrom_bind, runFrom_onError, runFrom_bind]
    match (enter f (List.zipWith (fun (x : Argument) w =>
        Constant.make w (x.ty.bits.getD pointerBits)) f.arguments arguments) .runner).runFrom s with
    | (.error e, s₁) => cases e <;> rfl
    | (.ok _, s₁) =>
      simp only
      match (proceed t patience).runFrom s₁ with
      | (.ok r, s₂) => rfl
      | (.error (.error e), s₂) => rfl
      | (.error (.fatal e), s₂) => rfl

theorem run_fails {s₁ : Processor} {e : Failure} (hstart : (start t function arguments).runFrom s = (.ok (), s₁))
    (hproceed : ((proceed t patience).runFrom s₁).1 = .error e) :
    ((run t function arguments).runFrom s).1 = .error e := by
  rw [run_fst, hstart]
  simp only [hproceed]
  rfl

end Calls

section Instructions

variable {a : Activation} {callers : List Activation} {i : Instruction} {rest : List Instruction}

theorem countStep_runFrom (limit : Word) (s : Processor) :
    (countStep limit).runFrom s =
      if limit.toNat < s.steps + 1 then (.error (.error (.stepLimit limit)), s.countOne)
      else (.ok (), s.countOne) := by
  unfold countStep
  rw [runFrom_modify_bind, runFrom_get_bind]
  change runFrom (if limit.toNat < s.steps + 1 then _ else _) s.countOne = _
  split <;> rfl

theorem step_instruction (hcalls : s.calls = a :: callers) (hrem : a.remaining = i :: rest) :
    (step t).runFrom s =
      if t.stepLimit.toNat < s.steps + 1 then (.error (.error (.stepLimit t.stepLimit)), s.countOne)
      else (execute t { a with remaining := rest } callers i.operation).runFrom s.countOne := by
  unfold step
  rw [runFrom_get_bind]
  simp only [hcalls, hrem]
  rw [runFrom_bind, countStep_runFrom]
  by_cases hlimit : t.stepLimit.toNat < s.steps + 1
  · rw [if_pos hlimit, if_pos hlimit]
  · rw [if_neg hlimit, if_neg hlimit]

theorem step_blockEnd (hcalls : s.calls = a :: callers) (hrem : a.remaining = []) :
    (step t).runFrom s =
      match a.nextBlock s.machine with
      | .ok b => (.ok .running, { s with calls := b :: callers })
      | .error e => (.error e, s) := by
  unfold step
  rw [runFrom_get_bind]
  simp only [hcalls, hrem]
  rw [runFrom_bind, runFrom_lift]
  cases a.nextBlock s.machine <;> rfl

end Instructions

end Processor

end RegionGuard

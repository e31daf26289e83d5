import RegionGuard.Proofs.RelayedCalls
set_option autoImplicit false

namespace RegionGuard

open Stateful

namespace Processor

/-- Processors that are the same but for the calls in progress. -/
structure Even (s u : Processor) : Prop where
  machine : s.machine = u.machine
  stackPointer : s.stackPointer = u.stackPointer
  steps : s.steps = u.steps

variable {s u v : Processor}

namespace Even

theorem refl (s : Processor) : s.Even s := ⟨rfl, rfl, rfl⟩

theorem trans (h : s.Even u) (h' : u.Even v) : s.Even v :=
  ⟨h.machine.trans h'.machine, h.stackPointer.trans h'.stackPointer, h.steps.trans h'.steps⟩

theorem withCalls (h : s.Even u) (calls calls' : List Activation) :
    Even { s with calls := calls } { u with calls := calls' } := ⟨h.machine, h.stackPointer, h.steps⟩

theorem withStackPointer (h : s.Even u) (w : Word) :
    (Processor.withStackPointer w s).Even (Processor.withStackPointer w u) := by
  refine ⟨?_, rfl, h.steps⟩
  unfold Processor.withStackPointer
  rw [h.machine]

theorem countOne (h : s.Even u) : s.countOne.Even u.countOne :=
  ⟨h.machine, h.stackPointer, congrArg (· + 1) h.steps⟩

end Even

/-- The same outcome, with processors that are even and, on success, have related calls in progress. -/
structure Likewise {α : Type} (L : Activation → Activation → Prop) (x y : Outcome α × Processor) : Prop where
  outcome : x.1 = y.1
  even : x.2.Even y.2
  calls : ∀ r, x.1 = .ok r → List.Forall₂ L x.2.calls y.2.calls

section Parts

variable {α β : Type} {L : Activation → Activation → Prop}

theorem likewise_error (even : s.Even u) (e : Failure) :
    Likewise L ((.error e, s) : Outcome β × Processor) (.error e, u) :=
  ⟨rfl, even, fun _ hr => by cases hr⟩

theorem likewise_bind {x y : Stateful Processor α} {f g : α → Stateful Processor β}
    (h : Likewise L (x.runFrom s) (y.runFrom u))
    (hf : ∀ a s' u', s'.Even u' → List.Forall₂ L s'.calls u'.calls →
      Likewise L ((f a).runFrom s') ((g a).runFrom u')) :
    Likewise L ((x >>= f).runFrom s) ((y >>= g).runFrom u) := by
  rw [runFrom_bind, runFrom_bind]
  match hx : x.runFrom s, hy : y.runFrom u with
  | (.ok a, s'), (o, u') =>
    rw [hx, hy] at h
    cases h.outcome
    exact hf a s' u' h.even (h.calls a rfl)
  | (.error e, s'), (o, u') =>
    rw [hx, hy] at h
    cases h.outcome
    exact likewise_error h.even e

theorem likewise_lift {o : Outcome α} {f g : α → Stateful Processor β} (even : s.Even u)
    (h : ∀ x, o = .ok x → Likewise L ((f x).runFrom s) ((g x).runFrom u)) :
    Likewise L ((liftM o >>= f).runFrom s) ((liftM o >>= g).runFrom u) := by
  rw [runFrom_bind, runFrom_bind, runFrom_lift, runFrom_lift]
  cases o with
  | error e => exact likewise_error even e
  | ok x => exact h x rfl

theorem likewise_present {o : Option α} {e : Error} {f g : α → Stateful Processor β} (even : s.Even u)
    (h : ∀ x, o = some x → Likewise L ((f x).runFrom s) ((g x).runFrom u)) :
    Likewise L ((Failure.orRaise o e >>= f).runFrom s) ((Failure.orRaise o e >>= g).runFrom u) := by
  rw [runFrom_bind, runFrom_bind]
  cases o with
  | none => exact likewise_error even _
  | some x => exact h x rfl

theorem likewise_onMachine {x : Stateful Machine α} {f g : α → Stateful Processor β} (even : s.Even u)
    (h : ∀ y s' u', s'.Even u' → s'.calls = s.calls → u'.calls = u.calls →
      Likewise L ((f y).runFrom s') ((g y).runFrom u')) :
    Likewise L ((onMachine x >>= f).runFrom s) ((onMachine x >>= g).runFrom u) := by
  rw [runFrom_bind, runFrom_bind, onMachine_runFrom, onMachine_runFrom, ← even.machine]
  have heven : ∀ m : Machine, Even { s with machine := m } { u with machine := m } := fun m =>
    ⟨rfl, even.stackPointer, even.steps⟩
  generalize x.runFrom s.machine = y
  obtain ⟨y, m⟩ := y
  cases y with
  | ok y => exact h y _ _ (heven m) rfl rfl
  | error e => exact likewise_error (heven m) e

end Parts

section Operations

variable {L : Activation → Activation → Prop} {a b : Activation} {callers others : List Activation} {n : Nat}

theorem likewise_resume (even : s.Even u) {calls calls' : List Activation} (h : List.Forall₂ L calls calls') :
    Likewise L ((resume calls).runFrom s) ((resume calls').runFrom u) :=
  ⟨rfl, even.withCalls calls calls', fun _ _ => h⟩

theorem likewise_deliver (hL : ∀ a b dst c, L a b → L (a.assign dst c) (b.assign dst c)) (even : s.Even u)
    (hab : L a b) (hcallers : List.Forall₂ L callers others) (dst : Option Variable) (result : Option Word) :
    Likewise L ((deliver dst result (a :: callers)).runFrom s) ((deliver dst result (b :: others)).runFrom u) := by
  unfold deliver
  simp only
  rw [Activation.receive_eq, Activation.receive_eq]
  cases dst with
  | none => exact likewise_resume even (.cons hab hcallers)
  | some v =>
    simp only [Option.elim]
    cases Evaluation.scalarBits v.ty with
    | error e => exact likewise_error even e
    | ok bits => exact likewise_resume even (.cons (hL a b v _ hab) hcallers)

theorem likewise_leave (hL : ∀ a b dst c, L a b → L (a.assign dst c) (b.assign dst c)) (even : s.Even u)
    (agrees : a.Agrees n b) (hcallers : List.Forall₂ L callers others) (result : Option Constant) :
    Likewise L ((leave a callers result).runFrom s) ((leave b others result).runFrom u) := by
  unfold leave
  rw [runFrom_modify_bind, runFrom_modify_bind, agrees.receiver, agrees.stackPointer]
  have heven := (even.withCalls callers others).withStackPointer b.stackPointer
  cases b.receiver with
  | runner => exact ⟨rfl, heven, fun _ _ => hcallers⟩
  | caller dst =>
    cases hcallers with
    | nil => exact ⟨rfl, heven, fun _ _ => .nil⟩
    | cons hab hcallers => exact likewise_deliver hL heven hab hcallers dst _

theorem likewise_allocate (hL : ∀ a b dst c, L a b → L (a.assign dst c) (b.assign dst c)) (even : s.Even u)
    (hab : L a b) (hcallers : List.Forall₂ L callers others) (agrees : a.Agrees n b) (dst : Variable) (ty : Ty)
    {count : Value} (hcount : count.Avoids n) :
    Likewise L ((allocate a callers dst ty count).runFrom s) ((allocate b others dst ty count).runFrom u) := by
  unfold allocate
  rw [runFrom_get_bind, runFrom_get_bind]
  simp only [agrees.word (congrArg Machine.image even.machine) hcount, even.stackPointer]
  refine likewise_lift even fun count _ => likewise_lift even fun size _ => likewise_lift even fun alignment _ =>
    likewise_present even fun place _ => ?_
  rw [runFrom_modify_bind, runFrom_modify_bind]
  exact likewise_resume (even.withStackPointer place) (.cons (hL a b dst _ hab) hcallers)

theorem likewise_execute (hL : ∀ a b dst c, L a b → L (a.assign dst c) (b.assign dst c)) (even : s.Even u)
    (hab : L a b) (hcallers : List.Forall₂ L callers others) (agrees : a.Agrees n b) (t₀ t₁ : Task) {o : Operation}
    (ho : o.Avoids n) (notCall : ∀ dst target arguments, o ≠ .call dst target arguments) :
    Likewise L ((execute t₀ a callers o).runFrom s) ((execute t₁ b others o).runFrom u) := by
  have image := congrArg Machine.image even.machine
  cases hcomputes : o.computes? with
  | some dst =>
    obtain ⟨x, hx, hrun⟩ := execute_computes t₀ s a callers hcomputes
    obtain ⟨x', hx', hrun'⟩ := execute_computes t₁ u b others hcomputes
    rw [agrees.computed? image ho.reads, hx'] at hx
    cases hx
    rw [hrun, hrun']
    cases x with
    | error e => exact likewise_error even e
    | ok c => exact ⟨rfl, even.withCalls _ _, fun _ _ => .cons (hL a b dst c hab) hcallers⟩
  | none =>
    unfold execute
    rw [runFrom_get_bind, runFrom_get_bind]
    cases o with
    | cast | elementPtr | binary | compare | select => cases hcomputes
    | alloca dst ty count =>
      exact likewise_allocate hL even hab hcallers agrees dst ty (ho.reads count List.mem_cons_self)
    | load dst pointer =>
      have hloaded : a.loaded s.machine dst.ty pointer = b.loaded u.machine dst.ty pointer := by
        have hword : a.word u.machine pointer = b.word u.machine pointer :=
          agrees.word rfl (ho.reads pointer List.mem_cons_self)
        simp only [Activation.loaded, even.machine, hword]
      simp only [hloaded]
      exact likewise_lift even fun c _ => likewise_resume even (.cons (hL a b dst c hab) hcallers)
    | store pointer value =>
      simp only [agrees.word image (ho.reads pointer List.mem_cons_self),
        agrees.value image (ho.reads value (List.mem_cons_of_mem _ List.mem_cons_self))]
      refine likewise_lift even fun place _ => likewise_lift even fun c _ => likewise_lift even fun bytes _ => ?_
      exact likewise_onMachine even fun _ s' u' heven _ _ => likewise_resume heven (.cons hab hcallers)
    | phi dst incoming => exact likewise_error even _
    | call dst target arguments => exact absurd rfl (notCall dst target arguments)
    | ret value =>
      have hvalue : ∀ v ∈ value, v.Avoids n := fun v hv => ho.reads v (Option.mem_toList.mpr hv)
      simp only [agrees.returned image hvalue]
      exact likewise_lift even fun result _ => likewise_leave hL even agrees hcallers result
    | nop => exact likewise_resume even (.cons hab hcallers)

end Operations

end Processor

end RegionGuard

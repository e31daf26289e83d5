import RegionGuard.Proofs.Tandem
set_option autoImplicit false

/-!
# Runs with hoisted guards

Two programs that are abreast run beside each other. When the first run comes to a result, or to an access
that is not permitted, the second one does too: unless it is stopped in hoisted code before, or the access
has no guard of its own there.
-/

namespace RegionGuard

open Stateful

namespace Activation

variable {σ : Scene} {m : Margin} {w : Ways} {a a' b : Activation} {M N : Machine}

end Activation

namespace Activation

variable {M : Machine} {a : Activation} {e : Edge} {target : Nat}

end Activation

namespace Processor

variable {σ : Scene} {t t₀ t₁ : Task} {r : Outcome (Option Constant)} {s s' u u' : Processor} {m : Margin} {w : Ways}
  {a b : Activation} {callers others : List Activation}

def MissesAt (σ : Scene) (r : Outcome (Option Constant)) (u : Processor) : Prop :=
  ∃ b others, u.calls = b :: others ∧ ∃ name g, σ.program.function? name = some g ∧ g.body = some b.body ∧
    ∃ pointer access place, σ.moved name b.block pointer access ∧ b.word u.machine pointer = .ok place ∧
      u.machine.permits place access = false ∧ r = .error (.error (.violation place access))

/-- A run answers as another one, is stopped in hoisted code, or comes to where that failed. -/
def Attends (σ : Scene) (t : Task) (r : Outcome (Option Constant)) (u : Processor) : Prop :=
  Follows t AtHoisted r u ∨ ∃ u', Gets t u u' ∧ MissesAt σ r u'

namespace Attends

theorem gets (h : Gets t u u') (hu' : Attends σ t r u') : Attends σ t r u := by
  rcases hu' with hfollows | ⟨v, hv, hmisses⟩
  · exact .inl (.of_gets h hfollows)
  · exact .inr ⟨v, h.trans hv, hmisses⟩

theorem step (hstep : (Processor.step t).runFrom u = (.ok .running, u')) (h : Attends σ t r u') : Attends σ t r u :=
  gets (.step hstep (.refl t u')) h

end Attends

structure Innermost (σ : Scene) (m : Margin) (w : Ways) (s u : Processor) (a b : Activation)
    (callers others : List Activation) : Prop where
  left : s.calls = a :: callers
  right : u.calls = b :: others
  beside : Beside (Machine.Alike σ.image) s u
  callers : List.Forall₂ (Activation.Level σ) callers others
  twin : Activation.Twin σ m w a b
  block : b.block = a.block
  known : a.block < m.blocks
  settled : b.Settled

theorem Level.innermost (h : Level σ s u) (hcalls : s.calls = a :: callers) :
    ∃ b others m w, Innermost σ m w s u a b callers others ∧
      Strand m a.block (m.numbers a.block) (w.arrival a.block) a.remaining b.remaining := by
  obtain ⟨beside, hall⟩ := h
  rw [hcalls] at hall
  cases hu : u.calls with
  | nil =>
    rw [hu] at hall
    cases hall
  | cons b others =>
    rw [hu] at hall
    obtain ⟨⟨⟨m, w, hpaced⟩, settled⟩, hcallers⟩ := List.forall₂_cons.mp hall
    exact ⟨b, others, m, w, ⟨hcalls, hu, beside, hcallers, hpaced.toTwin, hpaced.block, hpaced.known, settled⟩,
      hpaced.strand⟩

/-- A result, or an access that is not permitted. -/
def Reports (r : Outcome (Option Constant)) : Prop := ∀ e, r = .error e → e.IsViolation

theorem Beside.countOne (h : Beside (Machine.Alike σ.image) s u) :
    Beside (Machine.Alike σ.image) s.countOne u.countOne := ⟨h.machine, h.stackPointer⟩

section Guards

variable {x y : Instruction} {is : List Instruction} {pointer : Value} {access : Access} {place : Word} {k : Nat}

end Guards

namespace Innermost

variable {x y x' y' : Instruction} {is js : List Instruction} {pointer : Value} {access : Access} {k k' : Nat}

theorem anchored (h : Innermost σ m w s u a b callers others) :
    s.machine.monitor.space.IsAnchored ∧ u.machine.monitor.space.IsAnchored :=
  ⟨h.beside.machine.monitor.space.anchored, h.beside.machine.monitor.symm.space.anchored⟩

end Innermost

end Processor

end RegionGuard

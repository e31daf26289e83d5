import RegionGuard.Proofs.Companions
import RegionGuard.Proofs.PassedGuards
import RegionGuard.Proofs.SameResults
import RegionGuard.Proofs.WellFormedness
set_option autoImplicit false

/-!
# What hoisting changes about a run

A program is instrumented without hoists and with them, and both are run on a fresh machine. They come to the
same result and report the same violation, unless the second run is stopped in hoisted code, or comes to an
access that is denied and that it has guarded in front of a loop.
-/

namespace RegionGuard

open Stateful

namespace Program

variable {p q₀ q₁ : Program} {c : Configuration} {r s : GuardReport} {counts₀ counts₁ : List Nat}

section Logs

variable {log log' log₁ log₁' : List LogEntry}

end Logs

/-- No variable of the program is named like a temporary. -/
def SparesTemporaries (p : Program) : Prop := ∀ f ∈ p.functions.values, ∀ body ∈ f.body, body.SparesTemporaries

theorem Abreast.image {h : Hooks} {moved : String → Nat → Value → Access → Prop} (habreast : Abreast h moved q₀ q₁)
    (named : ∀ name f, q₀.function? name = some f → f.name = name) (globals : q₁.globals = q₀.globals) :
    Image.ofProgram q₁ = Image.ofProgram q₀ := by
  refine image_congr named (fun name g hg => ?_) (fun name => ?_) globals
  · have hrel := habreast name
    rw [hg] at hrel
    generalize hf : q₀.function? name = f at hrel
    cases hrel with
    | some hfg => exact hfg.name.symm.trans (named name _ hf)
  · have hrel := habreast name
    generalize q₀.function? name = f at hrel
    generalize q₁.function? name = g at hrel
    cases hrel with
    | none => rfl
    | some _ => rfl

end Program

namespace Processor

variable {σ : Scene} {t t₀ t₁ : Task} {s s' u u' : Processor} {r r' : Outcome (Option Constant)} {function : String}
  {arguments : List Word}

end Processor

namespace Program

open Processor

variable {p q₀ q₁ : Program} {c : Configuration} {report₀ report₁ : InstrumentationReport} {kind : IndexKind}
  {m : Machine} {limit : Word} {function : String} {arguments : List Word}

end Program

namespace Program

open Processor

variable {p q₀ q₁ : Program} {c : Configuration} {report₀ report₁ : InstrumentationReport} {kind : IndexKind}
  {m : Machine} {limit : Word} {function : String} {arguments : List Word}

end Program

end RegionGuard

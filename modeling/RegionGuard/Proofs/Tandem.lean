import RegionGuard.Proofs.Agreement
import RegionGuard.Proofs.Execution
import RegionGuard.Proofs.Lockstep
import RegionGuard.Proofs.RunEndings
set_option autoImplicit false

/-!
# Interludes

Between two steps that it has in common with the first run, the second run passes through hoisted code:
in the middle of a block, or in new blocks on the way into a loop. It is stopped there, or comes out with
the same machine, but for what guards leave behind, and new temporaries.
-/

namespace RegionGuard

open Stateful

/-- What two runs have in common: the entry points, the accesses that the second program guards in front of
loops only, that program, and the image of both. -/
structure Scene where
  hooks : Hooks
  moved : String → Nat → Value → Access → Prop
  program : Program
  image : Image

namespace Activation

variable {σ : Scene} {m : Margin} {w : Ways} {a b : Activation}

/-- Two calls of the versions of a function that know the same. -/
structure Twin (σ : Scene) (m : Margin) (w : Ways) (a b : Activation) : Prop where
  bodies : a.body.Abreast m w b.body
  hooks : m.hooks = σ.hooks
  origin : ∃ name g, σ.program.function? name = some g ∧ g.body = some b.body ∧ m.moved = σ.moved name
  agrees : Agrees m.temps a b

structure Paced (σ : Scene) (m : Margin) (w : Ways) (a b : Activation) : Prop extends Twin σ m w a b where
  block : b.block = a.block
  known : a.block < m.blocks
  strand : Strand m a.block (m.numbers a.block) (w.arrival a.block) a.remaining b.remaining

structure Level (σ : Scene) (a b : Activation) : Prop where
  paced : ∃ m w, Paced σ m w a b
  settled : b.Settled

theorem Twin.withScalars (h : Twin σ m w a b) {x y : Table String Constant}
    (agrees : Agrees m.temps (a.withScalars x) (b.withScalars y)) :
    Twin σ m w (a.withScalars x) (b.withScalars y) := ⟨h.bodies, h.hooks, h.origin, agrees⟩

theorem Paced.withScalars (h : Paced σ m w a b) {x y : Table String Constant}
    (agrees : Agrees m.temps (a.withScalars x) (b.withScalars y)) :
    Paced σ m w (a.withScalars x) (b.withScalars y) :=
  ⟨h.toTwin.withScalars agrees, h.block, h.known, h.strand⟩

theorem Level.assign (h : Level σ a b) (dst : Variable) (c : Constant) :
    Level σ (a.assign dst c) (b.assign dst c) := by
  obtain ⟨m, w, hpaced⟩ := h.paced
  exact ⟨⟨m, w, hpaced.withScalars (hpaced.agrees.assign dst c)⟩, h.settled.assign dst c⟩

end Activation

namespace Processor

variable {σ : Scene} {t₀ t₁ : Task} {s s' u u' : Processor} {a b : Activation} {callers others : List Activation}

abbrev Level (σ : Scene) : Processor → Processor → Prop := Paired (Machine.Alike σ.image) (Activation.Level σ)

end Processor

theorem Activation.phis_of_pastPhis {l : List Instruction} (h : Instruction.PastPhis l) : phis l = [] := by
  cases l with
  | nil => rfl
  | cons i rest =>
    have hi : i.operation.isPhi = false := h i rfl
    unfold phis
    split
    · rename_i ho
      rw [ho] at hi
      cases hi
    · rfl

/-- The phis of two versions of a block take the same, from where control arrives. -/
theorem Strand.phis {m : Margin} {block k : Nat} {arrival : Nat → Nat} {fs os : List Instruction}
    (h : Strand m block k arrival fs os) :
    Activation.phis os = (Activation.phis fs).map (fun e => (e.1, e.2.map fun x => (x.1, arrival x.2))) ∧
      ∀ e ∈ Activation.phis fs, ∀ x ∈ e.2, x.1.Avoids m.temps ∧ x.2 < m.blocks := by
  have done : ∀ {is js : List Instruction}, Instruction.PastPhis is → Instruction.PastPhis js →
      Activation.phis js = (Activation.phis is).map (fun e => (e.1, e.2.map fun x => (x.1, arrival x.2))) ∧
        ∀ e ∈ Activation.phis is, ∀ x ∈ e.2, x.1.Avoids m.temps ∧ x.2 < m.blocks := by
    intro is js his hjs
    rw [Activation.phis_of_pastPhis his, Activation.phis_of_pastPhis hjs]
    exact ⟨rfl, fun e he => (List.not_mem_nil he).elim⟩
  induction h with
  | nil => exact done Instruction.pastPhis_nil Instruction.pastPhis_nil
  | @both i j is js index original mirrors avoids rest ih =>
    cases hphi : i.operation.isPhi with
    | false =>
      refine done (Instruction.pastPhis_cons hphi) (Instruction.pastPhis_cons ?_)
      rw [← mirrors.isPhi]
      exact hphi
    | true =>
      generalize hi : i.operation = o at mirrors avoids hphi
      generalize hj : j.operation = o' at mirrors
      cases mirrors with
      | same notPhi =>
        rw [hphi] at notPhi
        cases notPhi
      | @phi dst incoming known =>
        have hfs : Activation.phis (i :: is) = (dst, incoming) :: Activation.phis is := by
          rw [Activation.phis, hi]
        have hos : Activation.phis (j :: js) =
            (dst, incoming.map fun x => (x.1, arrival x.2)) :: Activation.phis js := by
          rw [Activation.phis, hj]
        rw [hfs, hos, ih.1]
        refine ⟨rfl, fun e he x hx => ?_⟩
        rcases List.mem_cons.mp he with rfl | he
        · exact ⟨avoids.reads x.1 (List.mem_map_of_mem hx), known x hx⟩
        · exact ih.2 e he x hx
  | stack size first second left right rest =>
    exact done (Instruction.pastPhis_cons (by rw [left]; rfl)) (Instruction.pastPhis_cons (by rw [right]; rfl))
  | guard left right avoids rest => exact done left.pastPhis right.pastPhis
  | moved left hoisted avoids notPhi rest => exact done left.pastPhis notPhi
  | hoisted right notPhi rest => exact done notPhi (Instruction.pastPhis_cons right.notPhi)

namespace Activation

variable {σ : Scene} {m : Margin} {w : Ways} {a a' b b' : Activation} {M N : Machine} {target : Nat}

/-- Control arrives in both versions from blocks that their phis call the same. -/
def Arrives (m : Margin) (w : Ways) (target : Nat) (previous previous' : Option Nat) : Prop :=
  previous = none ∧ previous' = none ∨
    ∃ k k', previous = some k ∧ previous' = some k' ∧ ∀ j < m.blocks, w.arrival target j = k' ↔ j = k

end Activation

namespace Processor

variable {σ : Scene} {t₀ t₁ : Task} {s s' u u' : Processor} {a b : Activation} {callers others : List Activation}

section Calls

variable {f g : Function} {constants : List Constant} {receiver : Receiver}

end Calls

end Processor

abbrev Activation.elsewhere (b : Activation) (k : Nat) (remaining : List Instruction)
    (scalars : Table String Constant) : Activation :=
  { b with block := k, remaining := remaining, scalars := scalars }

namespace Activation

variable {M : Machine} {a : Activation} {w : Word}

end Activation

namespace Processor

variable {t : Task} {P : Processor → Prop} {s s' u : Processor} {r : Outcome (Option Constant)}

/-- The instruction that runs next was put in front of a loop. -/
def AtHoisted (u : Processor) : Prop :=
  ∃ z, u.next? = some z ∧ ∃ r : GuardRule, r.Hoists ∧ z.tag? Tag.rule = some r.text

theorem Follows.of_gets (h : Gets t s s') (hs' : Follows t P r s') : Follows t P r s := by
  obtain ⟨steps, h⟩ := h
  induction steps generalizing s with
  | zero =>
    cases h
    exact hs'
  | succ steps ih =>
    obtain ⟨s₁, hstep, hafter⟩ := after_succ h
    exact .step hstep (ih hafter)

/-- A run is stopped in hoisted code, or gets on to a processor of a kind. -/
def Passes (t : Task) (Q : Processor → Prop) (u : Processor) : Prop :=
  ∃ u', Gets t u u' ∧ (Q u' ∨ AtHoisted u' ∧ ∃ e, ((step t).runFrom u').1 = .error e)

namespace Passes

variable {Q Q' : Processor → Prop}

theorem here (h : Q u) : Passes t Q u := ⟨u, .refl t u, .inl h⟩

theorem gets (h : Gets t s u) (hu : Passes t Q u) : Passes t Q s := by
  obtain ⟨u', hu', hend⟩ := hu
  exact ⟨u', h.trans hu', hend⟩

theorem bind (h : Passes t Q u) (hQ : ∀ u', Q u' → Passes t Q' u') : Passes t Q' u := by
  obtain ⟨u', hu', hend | hstop⟩ := h
  · exact gets hu' (hQ u' hend)
  · exact ⟨u', hu', .inr hstop⟩

end Passes

namespace Aside

variable {σ : Scene} {m : Margin} {a b : Activation} {others : List Activation} {k : Nat} {z : Instruction}
  {rest : List Instruction}

end Aside

end Processor

end RegionGuard

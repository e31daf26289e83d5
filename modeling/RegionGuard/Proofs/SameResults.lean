import RegionGuard.Flow.WrittenNames
import RegionGuard.Proofs.Constructions
import RegionGuard.Proofs.CustodyPaths
import RegionGuard.Proofs.GuardedAccesses
import RegionGuard.Proofs.OverlaidRuns
set_option autoImplicit false

namespace RegionGuard

open Stateful

namespace Processor

variable {h : Hooks} {t t₀ t₁ : Task} {s s' u u' : Processor} {function : String} {arguments : List Word}

theorem start_under (under : t₀.Underlies h t₁) (beside : Beside Machine.SameStorage s u) (hs : s.calls = [])
    (hu : u.calls = []) (steps : s.steps ≤ u.steps)
    (hstart : (start t₁ function arguments).runFrom u = (.ok (), u')) :
    ∃ s', (start t₀ function arguments).runFrom s = (.ok (), s') ∧ Covers h s' u' := by
  obtain ⟨g, hg, henter⟩ := lift_bind_ok.mp hstart
  have hfunctions := under.functions.functions function
  rw [orRaise_eq_ok.mp hg] at hfunctions
  generalize hf : t₀.program.function? function = f at hfunctions
  cases hfunctions with
  | @some f _ hfg =>
    rw [hfg.arguments] at henter
    have hcalls : List.Forall₂ (At h) s.calls u.calls := by
      rw [hs, hu]
      exact .nil
    obtain ⟨s', hs', hpaired⟩ := enter_under hfg beside hcalls henter
    refine ⟨s', lift_bind_ok.mpr ⟨f, orRaise_eq_ok.mpr hf, hs'⟩, hpaired.toBeside, ?_, .inl hpaired.calls⟩
    have hkeeps := enter_keeps f (List.zipWith (fun (x : Argument) w =>
      Constant.make w (x.ty.bits.getD pointerBits)) f.arguments arguments) .runner s
    have hkeeps' := enter_keeps g (List.zipWith (fun (x : Argument) w =>
      Constant.make w (x.ty.bits.getD pointerBits)) f.arguments arguments) .runner u
    rw [hs'] at hkeeps
    rw [henter] at hkeeps'
    change s'.steps = s.steps at hkeeps
    change u'.steps = u.steps at hkeeps'
    omega

end Processor

namespace Program

open Processor

variable {p q : Program} {c : Configuration} {report : InstrumentationReport} {kind : IndexKind} {m : Machine}
  {limit : Word} {function : String} {arguments : List Word} {result : Option Word} {u : Processor}

/-- When the second of two overlaid programs comes to a result, so does the first one, unless it fails where it
calls an entry point. -/
theorem Overlays.results (overlays : p.Overlays c.hooks q) (hm : Machine.ofProgram p kind = .ok m)
    (hrun : (run ⟨q, c, limit⟩ function arguments).runFrom (.ofMachine m) = (.ok result, u)) :
    (∃ s, (run ⟨p, c, limit⟩ function arguments).runFrom (.ofMachine m) = (.ok result, s) ∧
      s.machine.memory = u.machine.memory ∧ s.machine.monitor.heap = u.machine.monitor.heap) ∨
    ∃ e s, ((run ⟨p, c, limit⟩ function arguments).runFrom (.ofMachine m)).1 = .error e ∧
      Reached ⟨p, c, limit⟩ function arguments s ∧ CallsEntryPoint c.hooks s ∧
        ((step ⟨p, c, limit⟩).runFrom s).1 = .error e := by
  have under : Task.Underlies c.hooks ⟨p, c, limit⟩ ⟨q, c, limit⟩ := ⟨rfl, rfl, rfl, overlays⟩
  obtain ⟨u₁, r, hstart, hproceed, rfl⟩ := run_ok.mp hrun
  obtain ⟨s₁, hstart₀, hcovers⟩ :=
    start_under (s := .ofMachine m) (u := .ofMachine m) under ⟨.refl m, rfl⟩ rfl rfl (Nat.le_refl 0) hstart
  rcases proceed_under under hcovers hproceed (Nat.le_refl patience) with
    ⟨s, hs, hsame⟩ | ⟨e, he, s, ⟨steps, hgets⟩, hcalls, hstep⟩
  · exact .inl ⟨s, run_ok.mpr ⟨s₁, r, hstart₀, hs, rfl⟩, hsame.memory, hsame.heap⟩
  · exact .inr ⟨e, s, run_fails hstart₀ he, ⟨kind, m, s₁, steps, hm, hstart₀, hgets⟩, hcalls, hstep⟩

/-- When an instrumented program comes to a result on a fresh machine, the original one comes to the same result
within the same limit and leaves the same memory and heap, or it fails where it calls an entry point. -/
theorem result_of_instruments (made : p.Made)
    (instrumentable : ∀ f ∈ p.functions.values, ∀ body ∈ f.body, body.Instrumentable)
    (hq : p.Instruments c report q) (hm : Machine.ofProgram q kind = .ok m)
    (hrun : (run ⟨q, c, limit⟩ function arguments).runFrom (.ofMachine m) = (.ok result, u)) :
    Machine.ofProgram (p.declareHooks c.hooks) kind = .ok m ∧
      ((∃ s, (run ⟨p.declareHooks c.hooks, c, limit⟩ function arguments).runFrom (.ofMachine m) = (.ok result, s) ∧
          s.machine.memory = u.machine.memory ∧ s.machine.monitor.heap = u.machine.monitor.heap) ∨
        ∃ e s, ((run ⟨p.declareHooks c.hooks, c, limit⟩ function arguments).runFrom (.ofMachine m)).1 = .error e ∧
          Reached ⟨p.declareHooks c.hooks, c, limit⟩ function arguments s ∧ CallsEntryPoint c.hooks s ∧
            ((step ⟨p.declareHooks c.hooks, c, limit⟩).runFrom s).1 = .error e) := by
  have named := made.numbered
  have overlays := overlays_of_instruments named
    (fun name f hf body hbody => (instrumentable f (Table.mem_values_of_get? hf) body hbody).plain) hq
  have image : Machine.ofProgram (p.declareHooks c.hooks) kind = .ok m := by
    rw [← hm]
    unfold Machine.ofProgram
    rw [overlays.image fun name f hf =>
      (numbered_iff.mp (numbered_of_declareHooks named c.hooks) name f hf).1]
  exact ⟨image, overlays.results image hrun⟩

end Program

/-- Whether every body is fit to be instrumented, for programs that are put together step by step. -/
def Program.isInstrumentable (p : Program) : Bool :=
  p.functions.values.all fun f => f.body.all FlowGraph.isInstrumentable

theorem Program.instrumentable_of_isInstrumentable {p : Program} (made : p.Made) (h : p.isInstrumentable) :
    ∀ f ∈ p.functions.values, ∀ body ∈ f.body, body.Instrumentable := by
  intro f hf body hbody
  obtain ⟨name, hname⟩ := Table.mem_values_iff.mp hf
  have hfit := List.all_eq_true.mp h f hf
  rw [Option.mem_def.mp hbody] at hfit
  exact FlowGraph.instrumentable_of_isInstrumentable (made.body hname body hbody) hfit

theorem made_storeTwice (value : Value) : (storeTwice value).Made := by
  refine Program.made_of_ofFunctions fun f hf => ?_
  rcases List.mem_cons.mp hf with rfl | hf
  · exact Function.made_of_ofCode
  · cases List.mem_singleton.mp hf
    rintro _ ⟨⟩

/-- Two guarded stores of a loop leave the same memory as without the guards. -/
theorem result_of_instruments_stores :
    ∃ report q m u, (storeTwice (.ofWord 7 8)).Made ∧
      (∀ f ∈ (storeTwice (.ofWord 7 8)).functions.values, ∀ body ∈ f.body, body.Instrumentable) ∧
      (storeTwice (.ofWord 7 8)).Instruments .fixed report q ∧ Machine.ofProgram q .keyed = .ok m ∧
      (Processor.run ⟨q, .fixed, Processor.defaultStepLimit⟩ "main" []).runFrom (.ofMachine m) = (.ok none, u) ∧
      Machine.ofProgram ((storeTwice (.ofWord 7 8)).declareHooks .default) .keyed = .ok m ∧
      ∃ s, (Processor.run ⟨(storeTwice (.ofWord 7 8)).declareHooks .default, .fixed, Processor.defaultStepLimit⟩
          "main" []).runFrom (.ofMachine m) = (.ok none, s) ∧
        s.machine.memory = u.machine.memory ∧ s.machine.monitor.heap = u.machine.monitor.heap := by
  have made := made_storeTwice (.ofWord 7 8)
  have instrumentable := Program.instrumentable_of_isInstrumentable made (by decide +kernel)
  have hanswers : (Trial.mk (storeTwice (.ofWord 7 8)) .fixed "main" []).answers fun _ m r =>
      r = .ok none ∧ ((Processor.run
        ⟨(storeTwice (.ofWord 7 8)).declareHooks .default, .fixed, Processor.defaultStepLimit⟩ "main" []).runFrom
          (.ofMachine m)).1 = .ok none := by
    decide +kernel
  obtain ⟨report, q, m, hq, hm, hresults⟩ := Trial.exists_of_answers hanswers
  obtain ⟨hresult, hbare⟩ := of_decide_eq_true hresults
  obtain ⟨u, hrun⟩ : ∃ u, (Processor.run ⟨q, .fixed, Processor.defaultStepLimit⟩ "main" []).runFrom
      (.ofMachine m) = (.ok none, u) := ⟨_, Prod.ext hresult rfl⟩
  obtain ⟨image, hsame | ⟨e, s, hfails, -⟩⟩ :=
    Program.result_of_instruments made instrumentable hq hm hrun
  · exact ⟨report, q, m, u, made, instrumentable, hq, hm, hrun, image, hsame⟩
  · cases hbare.symm.trans hfails

def guardsItself : Program :=
  let p : Variable := ⟨"p", .pointer⟩
  let address : Variable := ⟨"address", .integer 64⟩
  .ofFunctions [
    .ofCode "main" []
      [[.call (some p) (.direct "malloc") [.ofWord 8 64],
        .cast address .ptrToInt (.variable p),
        .call none (.direct Hooks.default.guardAddress) [.variable address, .ofWord 1 32],
        .ret none]]
      [],
    .declaration "malloc" [⟨0, "size", .integer 64⟩] .pointer,
    .declaration Hooks.default.guardAddress [⟨0, "address", .integer 64⟩, ⟨1, "is_write", .integer 32⟩] .void]

theorem own_guard_fails_alone :
    guardsItself.Made ∧ (∀ f ∈ guardsItself.functions.values, ∀ body ∈ f.body, body.Instrumentable) ∧
      (∀ f ∈ guardsItself.functions.values, (WrittenNames.written f).Nodup) ∧ guardsItself.verify = .ok () ∧
      ∃ report q m m₀, guardsItself.Instruments .fixed report q ∧ Machine.ofProgram q .keyed = .ok m ∧
        ((Processor.run ⟨q, .fixed, Processor.defaultStepLimit⟩ "main" []).runFrom (.ofMachine m)).1 = .ok none ∧
        Machine.ofProgram (guardsItself.declareHooks .default) .keyed = .ok m₀ ∧
        ((Processor.run ⟨guardsItself.declareHooks .default, .fixed, Processor.defaultStepLimit⟩ "main" []).runFrom
          (.ofMachine m₀)).1 = .error (.error (.violation 0x40000000 .write)) := by
  have made : guardsItself.Made := by
    refine Program.made_of_ofFunctions fun f hf => ?_
    rcases List.mem_cons.mp hf with rfl | hf
    · exact Function.made_of_ofCode
    · rcases List.mem_cons.mp hf with rfl | hf
      · rintro _ ⟨⟩
      · cases List.mem_singleton.mp hf
        rintro _ ⟨⟩
  have hanswers : (Trial.mk guardsItself .fixed "main" []).answers fun _ _ r => r = .ok none := by decide +kernel
  have hbare : (Machine.ofProgram (guardsItself.declareHooks .default) .keyed).toOption.any fun m =>
      ((Processor.run ⟨guardsItself.declareHooks .default, .fixed, Processor.defaultStepLimit⟩ "main" []).runFrom
        (.ofMachine m)).1 = .error (.error (.violation 0x40000000 .write)) := by
    decide +kernel
  obtain ⟨report, q, m, hq, hm, hresult⟩ := Trial.exists_of_answers hanswers
  obtain ⟨m₀, hm₀, hfails⟩ := (Option.any_eq_true ..).mp hbare
  exact ⟨made, Program.instrumentable_of_isInstrumentable made (by decide +kernel), by decide +kernel,
    by decide +kernel, report, q, m, m₀, hq, hm, of_decide_eq_true hresult, toOption_eq_some.mp hm₀,
    of_decide_eq_true hfails⟩

end RegionGuard

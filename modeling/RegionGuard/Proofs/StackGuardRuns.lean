import RegionGuard.Proofs.Approaches
import RegionGuard.Proofs.PlacedGuards
import RegionGuard.Proofs.StackGuards
set_option autoImplicit false

namespace RegionGuard

open FlowGraph Stateful

def Journey.Ran (j : Journey) (i : Instruction) : Prop := ∃ b ∈ j, ∃ rest, b.remaining = i :: rest

theorem Journey.Ran.cons {j : Journey} {i : Instruction} (h : j.Ran i) (a : Activation) : Journey.Ran (a :: j) i := by
  obtain ⟨b, hb, hran⟩ := h
  exact ⟨b, List.mem_cons_of_mem _ hb, hran⟩

namespace Activation

/-- What stands in front of the place of a call has run, and so has the entry block when it is left. -/
structure HasPassed (a : Activation) (j : Journey) : Prop where
  body : ∀ b ∈ j, b.body = a.body
  passed : ∃ done, a.Placed done ∧ ∀ i ∈ done, i.operation.isPhi = false → j.Ran i
  entry : ∀ entry, a.body.entry = some entry → a.block ≠ entry →
    ∃ b, a.body.block entry = .ok b ∧ ∀ i ∈ b.instructions, i.operation.isPhi = false → j.Ran i

theorem passed_of_enterBlock {m : Machine} {a b : Activation} {previous : Option Nat} {block : Nat} (j : Journey)
    (h : a.enterBlock m previous block = .ok b) :
    ∃ done, b.Placed done ∧ ∀ i ∈ done, i.operation.isPhi = false → j.Ran i := by
  obtain ⟨done, hplaced, hphis⟩ := placed_of_enterBlock h
  refine ⟨done, hplaced, fun i hi notPhi => ?_⟩
  rw [hphis i hi] at notPhi
  cases notPhi

theorem course_hasPassed (x : Image) : Course x HasPassed where
  starts := by
    intro m body entry constants w r b _ hentry hb
    have hpassed := passed_of_enterBlock [] hb
    obtain ⟨y, scalars, -, rfl⟩ := enterBlock_ok hb
    refine ⟨fun _ hc => (List.not_mem_nil hc).elim, hpassed, fun entry' hentry' hne => ?_⟩
    cases hentry.symm.trans hentry'
    exact absurd rfl hne
  goesOn := by
    intro m a b j _ ha hended hb
    rw [nextBlock_eq] at hb
    obtain ⟨target, -, hb⟩ := bind_eq_ok.mp hb
    have hpassed := passed_of_enterBlock (a :: j) hb
    obtain ⟨y, scalars, -, rfl⟩ := enterBlock_ok hb
    refine ⟨fun c hc => ?_, hpassed, fun entry hentry _ => ?_⟩
    · rcases List.mem_cons.mp hc with rfl | hc
      · rfl
      · exact ha.body c hc
    · by_cases hat : a.block = entry
      · obtain ⟨done, ⟨z, hz, hinstructions⟩, hdone⟩ := ha.passed
        rw [hended, List.append_nil] at hinstructions
        exact ⟨z, hat ▸ hz, fun i hi notPhi => (hdone i (hinstructions ▸ hi) notPhi).cons a⟩
      · obtain ⟨z, hz, hran⟩ := ha.entry entry hentry hat
        exact ⟨z, hz, fun i hi notPhi => (hran i hi notPhi).cons a⟩
  performs := by
    intro m a i rest a' j _ ha hnext hperforms
    obtain ⟨scalars, rfl⟩ := hperforms.assigns.fixed
    refine ⟨fun c hc => ?_, ?_, fun entry hentry hne => ?_⟩
    · rcases List.mem_cons.mp hc with rfl | hc
      · rfl
      · exact ha.body c hc
    · obtain ⟨done, ⟨z, hz, hinstructions⟩, hdone⟩ := ha.passed
      refine ⟨done ++ [i], ⟨z, hz, ?_⟩, fun k hk notPhi => ?_⟩
      · rw [hinstructions, hnext, List.append_assoc]
        rfl
      · rcases List.mem_append.mp hk with hk | hk
        · exact (hdone k hk notPhi).cons a
        · cases List.mem_singleton.mp hk
          exact ⟨a, List.mem_cons_self, rest, hnext⟩
    · obtain ⟨z, hz, hran⟩ := ha.entry entry hentry hne
      exact ⟨z, hz, fun k hk notPhi => (hran k hk notPhi).cons a⟩

end Activation

namespace Program

variable {p q : Program} {c : Configuration} {f : Function}

/-- Where a call into code out of sight comes next, a guard of the stack has run, unless the call stands in the entry
block in front of a slot. -/
theorem GuardsStack.exists_ran {entry : Nat} {a : Activation} {j : Journey} {i : Instruction} {rest : List Instruction}
    (guards : p.GuardsStack c f entry a.body) (ha : a.HasPassed j) (hnext : a.remaining = i :: rest)
    (fresh : i.isInjected = false) (escaping : p.isEscaping c i.operation)
    (behind : f.isGrouped entry → a.block = entry → ∀ k ∈ rest, k.operation.isAlloca = false) :
    ∃ size x, f.frameSize = .ok size ∧ x.GuardsStack c.hooks size ∧ j.Ran x := by
  obtain ⟨done, ⟨b, hb, hinstructions⟩, hdone⟩ := ha.passed
  rw [hnext] at hinstructions
  have hi : i ∈ b.instructions := hinstructions ▸ List.mem_append_right _ List.mem_cons_self
  obtain ⟨size, hsize, hguards⟩ := guards.guards _ b hb i hi fresh escaping
  refine ⟨size, ?_⟩
  split at hguards
  · rename_i grouped
    obtain ⟨b', hb', hslots⟩ := hguards
    by_cases hat : a.block = entry
    · subst hat
      cases hb.symm.trans hb'
      obtain ⟨notPhi, notSlot⟩ : i.operation.isPhi = false ∧ i.operation.isAlloca = false := by
        cases ho : i.operation <;> rw [ho] at escaping <;> first | exact ⟨rfl, rfl⟩ | cases escaping
      obtain ⟨x, hx, hguard⟩ := hslots.mem_done hinstructions fresh notPhi notSlot (behind grouped rfl)
      exact ⟨x, hsize, hguard, hdone x hx hguard.not_isPhi⟩
    · obtain ⟨front, x, back, hsplit, hguard, -⟩ := hslots
      obtain ⟨b'', hb'', hran⟩ := ha.entry entry guards.starts hat
      cases hb'.symm.trans hb''
      exact ⟨x, hsize, hguard, hran x (hsplit ▸ List.mem_append_right _ List.mem_cons_self) hguard.not_isPhi⟩
  · obtain ⟨x, hx, hguard⟩ := hguards.mem_done (FlowGraph.numbered_iff.mp guards.numbered _ b hb).2 hinstructions
    exact ⟨x, hsize, hguard, hdone x hx hguard.not_isPhi⟩

/-- Whenever a function that may be changed, and had no guard of its stack, comes to one of its calls into code out of
sight, the same call of the function has executed an injected guard for its frame. Only a call in the entry block, in
front of a slot of the one block that has all slots, does not wait for its guard. -/
theorem stack_guards_precede (made : p.Made) (restriction : c.restriction = true) {log log' : List LogEntry}
    {report : GuardReport} (h : (p.placeGuards c).runFrom log = (.ok (report, q), log')) {name : String}
    (hf : p.function? name = some f) (instrumented : c.instruments f) (unguarded : f.hasStackGuard = false) :
    ∃ g body entry, q.function? name = some g ∧ g.body = some body ∧ body.entry = some entry ∧
      ∀ (t : Task) (function : String) (arguments : List Word) (s₀ : Processor) (steps : Nat) (s : Processor),
        t.program = q → Processor.Comes t function arguments s₀ steps s →
        ∀ a callers i rest, s.calls = a :: callers → a.body = body → a.remaining = i :: rest →
          i.isInjected = false → p.isEscaping c i.operation →
          (f.isGrouped entry → a.block = entry → ∀ k ∈ rest, k.operation.isAlloca = false) →
          ∃ size x j js, f.frameSize = .ok size ∧ x.GuardsStack c.hooks size ∧
            Processor.journeys t steps s₀ [[]] = j :: js ∧ (∀ b ∈ j, b.body = body) ∧ j.Ran x := by
  obtain ⟨r, counts, hr, hedit, -⟩ := placeGuards_ok h
  have hdeclared := ((function?_declareHooks p c.hooks).1 name (Option.isSome_iff_exists.mpr ⟨f, hf⟩)).trans hf
  obtain ⟨n, g, hg, hq⟩ := ((editFunctions_ok hedit).2 name).2 f hdeclared
  obtain ⟨body, entry, hbody, guards⟩ := guardsStack_of_guardFunction (numbered_of_declareHooks made.numbered c.hooks)
    restriction hr hdeclared instrumented unguarded hg
  refine ⟨g, body, entry, hq, hbody, guards.starts, ?_⟩
  rintro t function arguments s₀ steps s - hcomes a callers i rest hcalls rfl hnext fresh escaping behind
  obtain ⟨j, js, hj, ha, -⟩ := hcomes.upholds (Activation.course_hasPassed _) a callers hcalls
  rw [← isEscaping_declareHooks p c c.hooks] at escaping
  obtain ⟨size, x, hsize, hguard, hran⟩ := guards.exists_ran ha hnext fresh escaping behind
  exact ⟨size, x, j, js, hsize, hguard, hj, ha.body, hran⟩

end Program

/-- A function calls code out of sight from its second block, behind a slot in its first. -/
def callsElsewhere : Program :=
  .ofFunctions [
    .ofCode "main" []
      [[.alloca ⟨"slot", .pointer⟩ (.integer 64) (.ofWord 4 64)],
        [.call none (.direct "elsewhere") [.variable ⟨"slot", .pointer⟩],
          .ret none]]
      [(0, 1, none)],
    .declaration "elsewhere" [⟨0, "p", .pointer⟩] .void]

/-- A function calls code out of sight before it takes a slot, in one block. -/
def callsFirst : Program :=
  .ofFunctions [
    .ofCode "main" []
      [[.call none (.direct "elsewhere") [],
        .alloca ⟨"slot", .pointer⟩ (.integer 64) (.ofWord 4 64),
        .ret none]]
      [],
    .declaration "elsewhere" [] .void]

def Program.guarded? (p : Program) : Option (GuardReport × Program) := ((p.placeGuards .default).runFrom []).1.toOption

def Program.guardedRun? (p : Program) (steps : Nat) : Option (GuardReport × Program × Processor × Processor × Activation) := do
  let (report, q) ← p.guarded?
  let (s₀, s, a) ← (⟨q, .default, Processor.defaultStepLimit⟩ : Task).comes? [] steps
  return (report, q, s₀, s, a)

theorem Program.of_guardedRun? {p q : Program} {steps : Nat} {report : GuardReport} {s₀ s : Processor} {a : Activation}
    (h : p.guardedRun? steps = some (report, q, s₀, s, a)) :
    (∃ log, (p.placeGuards .default).runFrom [] = (.ok (report, q), log)) ∧
      Processor.Comes ⟨q, .default, Processor.defaultStepLimit⟩ "main" [] s₀ steps s ∧
      ∃ callers, s.calls = a :: callers := by
  unfold guardedRun? at h
  obtain ⟨⟨report', q'⟩, hplaced, h⟩ := Option.bind_eq_some_iff.mp h
  obtain ⟨⟨s₀', s', a'⟩, hcomes, h⟩ := Option.bind_eq_some_iff.mp h
  cases h
  have hanswer : ((p.placeGuards .default).runFrom []).1 = .ok (report, q) := toOption_eq_some.mp hplaced
  generalize (p.placeGuards .default).runFrom [] = answer at hanswer ⊢
  exact ⟨⟨answer.2, Prod.ext hanswer rfl⟩, Task.comes_of_comes? hcomes⟩

/-- The call in the second block comes behind the guard in the first, which is for the slot. -/
theorem stack_guards_precede_callsElsewhere :
    ∃ report q log f g s₀ s a i rest size x j js, callsElsewhere.Made ∧ Configuration.default.restriction = true ∧
      (callsElsewhere.placeGuards .default).runFrom [] = (.ok (report, q), log) ∧
      callsElsewhere.function? "main" = some f ∧ Configuration.default.instruments f ∧ f.hasStackGuard = false ∧
      q.function? "main" = some g ∧ g.body = some a.body ∧
      Processor.Comes ⟨q, .default, Processor.defaultStepLimit⟩ "main" [] s₀ 3 s ∧ s.calls.head? = some a ∧
      a.remaining = i :: rest ∧ i.isInjected = false ∧ callsElsewhere.isEscaping .default i.operation ∧
      f.frameSize = .ok size ∧ size = 32 ∧ x.GuardsStack .default size ∧
      Processor.journeys ⟨q, .default, Processor.defaultStepLimit⟩ 3 s₀ [[]] = j :: js ∧ j.Ran x := by
  have made : callsElsewhere.Made := by
    refine Program.made_of_ofFunctions fun f hf => ?_
    rcases List.mem_cons.mp hf with rfl | hf
    · exact Function.made_of_ofCode
    · cases List.mem_singleton.mp hf
      rintro _ ⟨⟩
  have hmain : (callsElsewhere.function? "main").any fun f => Configuration.default.instruments f = true ∧
      f.hasStackGuard = false ∧ f.frameSize = .ok 32 := by
    decide +kernel
  have hrun : (callsElsewhere.guardedRun? 3).any fun x => x.2.2.2.2.remaining.head?.any (fun i =>
      i.isInjected = false ∧ callsElsewhere.isEscaping .default i.operation) ∧ x.2.2.2.2.block = 1 ∧
      (x.2.1.function? "main").any (fun g => g.body = some x.2.2.2.2.body ∧ x.2.2.2.2.body.entry = some 0) := by
    decide +kernel
  obtain ⟨f, hf, hmain⟩ := (Option.any_eq_true ..).mp hmain
  obtain ⟨instrumented, unguarded, hsize⟩ := of_decide_eq_true hmain
  obtain ⟨⟨report, q, s₀, s, a⟩, hguarded, hrun⟩ := (Option.any_eq_true ..).mp hrun
  obtain ⟨hnext, hblock, hbody⟩ := of_decide_eq_true hrun
  obtain ⟨i, hi, hcall⟩ := (Option.any_eq_true ..).mp hnext
  obtain ⟨fresh, escaping⟩ := of_decide_eq_true hcall
  obtain ⟨g', hg', hbody⟩ := (Option.any_eq_true ..).mp hbody
  obtain ⟨hbody, hentry⟩ := of_decide_eq_true hbody
  obtain ⟨rest, hnext⟩ := List.head?_eq_some_iff.mp hi
  obtain ⟨⟨log, hplaced⟩, hcomes, callers, hcalls⟩ := Program.of_guardedRun? hguarded
  obtain ⟨g, body, entry, hg, hgbody, hstart, precedes⟩ :=
    Program.stack_guards_precede made rfl hplaced hf instrumented unguarded
  cases hg'.symm.trans hg
  cases hbody.symm.trans hgbody
  cases hentry.symm.trans hstart
  obtain ⟨size, x, j, js, hsize', hguard, hj, -, hran⟩ := precedes _ "main" [] s₀ 3 s rfl hcomes a callers i rest hcalls rfl
    hnext fresh escaping fun _ hat => by
      rw [hblock] at hat
      cases hat
  cases hsize.symm.trans hsize'
  exact ⟨report, q, log, f, g', s₀, s, a, i, rest, 32, x, j, js, made, rfl, hplaced, hf, instrumented, unguarded, hg', hbody,
    hcomes, by rw [hcalls]; rfl, hnext, fresh, escaping, hsize, rfl, hguard, hj, hran⟩

theorem call_precedes_stack_guard :
    ∃ report q log f g s₀ a i rest, callsFirst.Made ∧ Configuration.default.restriction = true ∧
      (callsFirst.placeGuards .default).runFrom [] = (.ok (report, q), log) ∧
      callsFirst.function? "main" = some f ∧ Configuration.default.instruments f ∧ f.hasStackGuard = false ∧
      q.function? "main" = some g ∧ g.body = some a.body ∧
      Processor.Comes ⟨q, .default, Processor.defaultStepLimit⟩ "main" [] s₀ 0 s₀ ∧ s₀.calls.head? = some a ∧
      a.remaining = i :: rest ∧ i.isInjected = false ∧ callsFirst.isEscaping .default i.operation ∧
      ∀ j ∈ Processor.journeys ⟨q, .default, Processor.defaultStepLimit⟩ 0 s₀ [[]], ∀ x, ¬ j.Ran x := by
  have made : callsFirst.Made := by
    refine Program.made_of_ofFunctions fun f hf => ?_
    rcases List.mem_cons.mp hf with rfl | hf
    · exact Function.made_of_ofCode
    · cases List.mem_singleton.mp hf
      rintro _ ⟨⟩
  have hmain : (callsFirst.function? "main").any fun f => Configuration.default.instruments f = true ∧
      f.hasStackGuard = false := by
    decide +kernel
  have hrun : (callsFirst.guardedRun? 0).any fun x => x.2.2.2.2.remaining.head?.any (fun i =>
      i.isInjected = false ∧ callsFirst.isEscaping .default i.operation) ∧
      (x.2.1.function? "main").any (fun g => g.body = some x.2.2.2.2.body) := by
    decide +kernel
  obtain ⟨f, hf, hmain⟩ := (Option.any_eq_true ..).mp hmain
  obtain ⟨instrumented, unguarded⟩ := of_decide_eq_true hmain
  obtain ⟨⟨report, q, s₀, s, a⟩, hguarded, hrun⟩ := (Option.any_eq_true ..).mp hrun
  obtain ⟨hnext, hbody⟩ := of_decide_eq_true hrun
  obtain ⟨i, hi, hcall⟩ := (Option.any_eq_true ..).mp hnext
  obtain ⟨fresh, escaping⟩ := of_decide_eq_true hcall
  obtain ⟨g, hg, hbody⟩ := (Option.any_eq_true ..).mp hbody
  obtain ⟨rest, hnext⟩ := List.head?_eq_some_iff.mp hi
  obtain ⟨⟨log, hplaced⟩, hcomes, callers, hcalls⟩ := Program.of_guardedRun? hguarded
  obtain rfl : s₀ = s := Option.some.inj hcomes.after
  refine ⟨report, q, log, f, g, s₀, a, i, rest, made, rfl, hplaced, hf, instrumented, unguarded, hg,
    of_decide_eq_true hbody, hcomes, by rw [hcalls]; rfl, hnext, fresh, escaping, ?_⟩
  rintro j hj x ⟨b, hb, -⟩
  cases List.mem_singleton.mp hj
  cases hb

end RegionGuard

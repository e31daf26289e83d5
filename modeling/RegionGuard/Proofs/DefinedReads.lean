import RegionGuard.Proofs.Causes
import RegionGuard.Proofs.Recollection
import RegionGuard.Proofs.SameResults
set_option autoImplicit false

/-!
# Reads of defined variables

In a verified program, every variable that a call reads has been written by its definition in the same call, and
holds what that wrote last. Verification has to be helped with two things it does not look at: the variables that
conditions of edges read, and different variables of one name.
-/

namespace RegionGuard

open Stateful Activation

namespace Activation

/-- What a call may read next: the operands of its next instruction or, at the end of a block, what the conditions
of the edges out of it and the phis behind these read. -/
inductive Reads (a : Activation) (v : Variable) : Prop where
  | operand {i : Instruction} {rest : List Instruction} (next : a.remaining = i :: rest)
    (mem : .variable v ∈ i.operation.reads) : Reads a v
  | condition {es : List Edge} {e : Edge} {c : Condition} (ended : a.remaining = [])
    (edges : a.body.graph.edgesOut a.block = .ok es) (mem : e ∈ es) (conditional : e.condition = some c)
    (value : c.value = .variable v) : Reads a v
  | phi {es : List Edge} {e : Edge} {b : Block} {dst : Variable} {incoming : List (Value × Nat)}
    (ended : a.remaining = []) (edges : a.body.graph.edgesOut a.block = .ok es) (mem : e ∈ es)
    (block : a.body.block e.tail = .ok b) (phi : (dst, incoming) ∈ phis b.instructions)
    (arriving : (.variable v, a.block) ∈ incoming) : Reads a v

/-- The definition of a variable has run in the call, and the variable holds what it wrote last. -/
def Finds (p : Program) (a : Activation) (h : History) (v : Variable) : Prop :=
  ∃ name f d place c, p.function name = .ok f ∧ f.body = some a.body ∧ DefUse.ofFunction f = .ok d ∧
    d.definition? v = some place ∧ h.latest? place = some ⟨place, v, c⟩ ∧ ∀ m, a.value m (.variable v) = .ok c

variable {p : Program} {a : Activation} {h : History} {v : Variable}

theorem Informed.finds (hinformed : a.Informed p a.done a.remaining h) (hreads : a.Reads v) : a.Finds p h v := by
  obtain ⟨name, f, d, entry, hf, hrecalls⟩ := hinformed
  have hsound := hrecalls.sound
  obtain ⟨b, hb, hinstructions⟩ := hrecalls.block
  have found : ∀ place, d.definition? v = some place →
      a.body.Available entry place a.block a.done.length → a.Finds p h v := fun place hplace havailable => by
    obtain ⟨c, hlatest, hc⟩ := hrecalls.latest v place hplace havailable
    refine ⟨name, f, d, place, c, hf, hsound.body, hsound.definitions, hplace, hlatest, fun m => ?_⟩
    change Failure.orRaise (a.scalars.get? v.name) _ = _
    rw [hc]
    rfl
  have ended : a.remaining = [] → b.instructions.length = a.done.length := fun hended => by
    rw [hinstructions, hended, List.append_nil]
  cases hreads with
  | operand next mem =>
    rename_i i rest
    have hi : b.instructions[a.done.length]? = some i := by
      rw [hinstructions, next, List.getElem?_append_right (Nat.le_refl _), Nat.sub_self]
      rfl
    obtain ⟨place, hplace, havailable⟩ := hsound.reads a.block b _ i hb hi
      (hrecalls.past i (next ▸ List.mem_cons_self)) v mem
    exact found place hplace (havailable hrecalls.reached)
  | condition hended edges mem conditional value =>
    rename_i es e c
    have hedge := (Graph.mem_edgesOut hsound.built.wired hsound.built.filed edges).mp mem
    obtain ⟨place, i, b', hi, hv, hb', havailable⟩ :=
      hsound.disciplined.conditions a.block e.tail e hedge c conditional v value
    cases hb.symm.trans hb'
    rw [ended hended] at havailable
    exact found place ((DefUse.definition?_eq_some hsound.definitions).mpr ⟨i, hi, hv⟩) havailable
  | phi hended edges mem block phi arriving =>
    rename_i es e x dst incoming
    obtain ⟨i, hi, ho⟩ := mem_phis phi
    obtain ⟨place, b', hplace, hb', havailable⟩ := hsound.incoming e.tail x i dst incoming block hi ho v a.block arriving
    cases hb.symm.trans hb'
    rw [ended hended] at havailable
    exact found place hplace (havailable hrecalls.reached)

end Activation

namespace Processor

variable {t : Task} {s s' : Processor} {v : Variable} {function : String} {arguments : List Word}

theorem exists_of_step_undefined (h : ((step t).runFrom s).1 = .error (.undefined v)) :
    ∃ a callers, s.calls = a :: callers ∧ a.Reads v ∧ a.scalars.get? v.name = none := by
  unfold step at h
  rw [runFrom_get_bind] at h
  split at h
  · cases h
  · rename_i a callers hcalls
    refine ⟨a, callers, hcalls, ?_⟩
    split at h
    · rename_i hended
      have lacks : Lacks (fun v => a.Reads v ∧ a.scalars.get? v.name = none)
          (do resume ((← a.nextBlock s.machine) :: callers) : Stateful Processor Progress) :=
        (Lacks.lift (nextBlock_misses fun es hes e he =>
          ⟨fun c hc u hu hnone => ⟨.condition hended hes he hc hu, hnone⟩,
            fun b dst incoming u hb hphi hu hnone => ⟨.phi hended hes he hb hphi hu, hnone⟩⟩)).bind
          fun _ => resume_lacks _
      exact lacks s v h
    · rename_i i rest hnext
      have lacks : Lacks (fun v => a.Reads v ∧ a.scalars.get? v.name = none) (do
          countStep t.stepLimit
          execute t { a with remaining := rest } callers i.operation : Stateful Processor Progress) := by
        refine Lacks.bind ?_ fun _ => execute_lacks fun u hu hnone => ⟨.operand hnext hu, hnone⟩
        refine Lacks.bind (.update _) fun _ => .read fun _ => ?_
        split
        · exact .raise (by rintro v ⟨⟩)
        · exact .answer _
      exact lacks s v h

theorem exists_of_ends_undefined (h : Ends t s (.error (.undefined v))) :
    ∃ steps s', after t steps s = some s' ∧ ((step t).runFrom s').1 = .error (.undefined v) := by
  generalize hr : (.error (.undefined v) : Outcome (Option Constant)) = r at h
  induction h with
  | now _ => cases hr
  | fails hstep =>
    cases hr
    exact ⟨0, _, rfl, congrArg Prod.fst hstep⟩
  | later hstep _ ih =>
    obtain ⟨steps, s', hafter, hfails⟩ := ih hr
    refine ⟨steps + 1, s', ?_, hfails⟩
    unfold after
    rw [hstep]
    exact hafter

/-- A call from outside that fails for want of a variable gets started. -/
theorem exists_of_run_undefined (h : ((run t function arguments).runFrom s).1 = .error (.undefined v)) :
    ∃ s₀, (start t function arguments).runFrom s = (.ok (), s₀) ∧ Ends t s₀ (.error (.undefined v)) := by
  unfold run at h
  rw [runFrom_bind, runFrom_lift] at h
  cases hf : t.program.function function with
  | error e =>
    rw [hf] at h
    have misses : Outcome.Misses (fun _ => False) (t.program.function function) := .orRaise (by rintro v ⟨⟩)
    exact (misses v (hf.trans (congrArg Except.error (Except.error.inj h)))).elim
  | ok f =>
    rw [hf] at h
    simp only [runFrom_get_bind] at h
    rw [runFrom_bind, runFrom_onError, runFrom_bind] at h
    have lacks := enter_lacks (R := fun _ => False) f (List.zipWith (fun (x : Argument) w =>
      Constant.make w (x.ty.bits.getD pointerBits)) f.arguments arguments) .runner s v
    match henter : (enter f (List.zipWith (fun (x : Argument) w =>
        Constant.make w (x.ty.bits.getD pointerBits)) f.arguments arguments) .runner).runFrom s with
    | (.error e, s₁) =>
      rw [henter] at h lacks
      cases e with
      | error e => exact (lacks (congrArg Except.error (Except.error.inj h))).elim
      | fatal e => cases h
    | (.ok u, s₁) =>
      rw [henter] at h
      simp only at h
      refine ⟨s₁, lift_bind_ok.mpr ⟨f, hf, henter⟩, ?_⟩
      match hproceed : (proceed t patience).runFrom s₁ with
      | (.ok r, s₂) =>
        rw [hproceed] at h
        cases h
      | (.error (.error e), s₂) =>
        rw [hproceed] at h
        cases h
        exact (ends_of_proceed hproceed).resolve_right (by rintro ⟨⟩)
      | (.error (.fatal e), s₂) =>
        rw [hproceed] at h
        cases h

theorem recalls_of_start (sound : t.program.Sound) (idle : s.calls = [])
    (h : (start t function arguments).runFrom s = (.ok (), s')) : Recalls t.program s' [[]] := by
  obtain ⟨f, hf, henter⟩ := lift_bind_ok.mp h
  obtain ⟨body, entry, b, hbody, hentry, hb, rfl⟩ := enter_ok henter
  rw [idle]
  rintro _ _ ⟨⟩
  obtain ⟨hinformed, hreceiver⟩ := informed_of_start sound hf hbody hentry hb
  exact ⟨_, _, rfl, hinformed.placed.symm ▸ hinformed, .none _⟩

end Processor

/-- What verification does not look at is in order in every function. -/
def Program.Disciplined (p : Program) : Prop :=
  ∀ name f c entry, p.function name = .ok f → f.body = some c → c.entry = some entry → f.Disciplined c entry

theorem Program.sound_of_verify {p : Program} (made : p.Made) (verified : p.verify = .ok ())
    (disciplined : p.Disciplined) : p.Sound := by
  intro name f c hf hbody
  obtain ⟨d, entry, hverified⟩ := verified_of_verify made verified (orRaise_eq_ok.mp hf) hbody
  exact ⟨d, entry, hverified, disciplined name f c entry hf hbody hverified.starts⟩

open Processor in
/-- In a verified program that is also in order where verification does not look, every variable that a call reads
holds what its definition wrote last in the same call, and no run fails for want of a variable. -/
theorem Program.reads_find_definitions {t : Task} (made : t.program.Made) (verified : t.program.verify = .ok ())
    (disciplined : t.program.Disciplined) {s : Processor} (idle : s.calls = []) (function : String)
    (arguments : List Word) :
    (∀ s₀ steps s' a callers v, (start t function arguments).runFrom s = (.ok (), s₀) →
        after t steps s₀ = some s' → s'.calls = a :: callers → a.Reads v →
        ∃ h rest, histories t steps s₀ [[]] = h :: rest ∧ a.Finds t.program h v) ∧
      ∀ v, ((run t function arguments).runFrom s).1 ≠
        .error (.error (.execution (.undefinedVariable v))) := by
  have sound := sound_of_verify made verified disciplined
  have reads : ∀ s₀ steps s' a callers v, (start t function arguments).runFrom s = (.ok (), s₀) →
      after t steps s₀ = some s' → s'.calls = a :: callers → a.Reads v →
      ∃ h rest, histories t steps s₀ [[]] = h :: rest ∧ a.Finds t.program h v := by
    intro s₀ steps s' a callers v hstart hafter hcalls hreads
    have hrecalls := histories_induction (fun _ _ _ => recalls_step sound) (recalls_of_start sound idle hstart) hafter
    obtain ⟨h, rest, hhistories, hinformed, -⟩ := hrecalls a callers hcalls
    exact ⟨h, rest, hhistories, hinformed.finds hreads⟩
  refine ⟨reads, fun v hfails => ?_⟩
  obtain ⟨s₀, hstart, hends⟩ := exists_of_run_undefined hfails
  obtain ⟨steps, s', hafter, hstep⟩ := exists_of_ends_undefined hends
  obtain ⟨a, callers, hcalls, hreads, hnone⟩ := exists_of_step_undefined hstep
  obtain ⟨h, rest, -, -, -, -, -, c, -, -, -, -, -, hvalue⟩ := reads s₀ steps s' a callers v hstart hafter hcalls hreads
  have hvalue := hvalue s'.machine
  change Failure.orRaise (a.scalars.get? v.name) _ = _ at hvalue
  rw [hnone] at hvalue
  cases hvalue

/-- A program is in order when no function writes a name twice, and what a conditional edge tests is written in the
block that the edge leaves. -/
theorem Program.disciplined_of_own {p : Program} (made : p.Made)
    (own : ∀ f ∈ p.functions.values, ∀ c ∈ f.body, (WrittenNames.written f).Nodup ∧
      ∀ e ∈ c.graph.edges.entries, ∀ x ∈ e.2.condition, ∀ v ∈ x.value.asVariable?,
        ∃ b ∈ (c.block e.1.1).toOption, ∃ i ∈ b.instructions, i.operation.written? = some v) : p.Disciplined := by
  intro name f c entry hf hbody hentry
  have hf := orRaise_eq_ok.mp hf
  have numbered := (made.body hf c hbody).numbered
  obtain ⟨names, own⟩ := own f (Table.mem_values_of_get? hf) c hbody
  refine ⟨names, fun j k e he x hx v hv => ?_⟩
  obtain ⟨b, hb, i, hi, hwritten⟩ := own ((j, k), e) ((Table.get?_eq_some_iff ..).mp he) x hx v (by rw [hv]; rfl)
  have hb := toOption_eq_some.mp hb
  obtain ⟨n, hn⟩ := List.getElem?_of_mem hi
  refine ⟨⟨j, i.index⟩, i, b, (Function.located_iff hbody numbered.addressable).mpr ⟨b, hb, hi, rfl⟩, hwritten, hb, ?_⟩
  unfold FlowGraph.Available
  rw [if_pos rfl]
  exact ⟨b, n, hb, (Block.position?_iff (FlowGraph.numbered_iff.mp numbered j b hb).2.2).mpr ⟨i, hn, rfl⟩,
    (List.getElem?_eq_some_iff.mp hn).1⟩

/-- Whether some steps into a call of a function on a fresh machine, an operand that is read next is a variable. -/
def Task.showsRead (t : Task) (function : String) (steps : Nat) (v : Variable) : Bool :=
  (Machine.ofProgram t.program .keyed).toOption.any fun m =>
    match (Processor.start t function []).runFrom (.ofMachine m) with
    | (.ok _, s₀) => (Processor.after t steps s₀).any fun s => s.calls.head?.any fun a =>
      a.remaining.head?.any fun i => i.operation.reads.contains (.variable v)
    | (.error _, _) => false

theorem Task.exists_of_showsRead {t : Task} {function : String} {steps : Nat} {v : Variable}
    (h : t.showsRead function steps v) :
    ∃ s s₀ s' a callers, s.calls = [] ∧ (Processor.start t function []).runFrom s = (.ok (), s₀) ∧
      Processor.after t steps s₀ = some s' ∧ s'.calls = a :: callers ∧ a.Reads v := by
  obtain ⟨m, -, h⟩ := (Option.any_eq_true ..).mp h
  split at h
  · rename_i s₀ hstart
    obtain ⟨s', hafter, h⟩ := (Option.any_eq_true ..).mp h
    obtain ⟨a, ha, h⟩ := (Option.any_eq_true ..).mp h
    obtain ⟨i, hi, h⟩ := (Option.any_eq_true ..).mp h
    obtain ⟨callers, hcalls⟩ := List.head?_eq_some_iff.mp ha
    obtain ⟨rest, hrest⟩ := List.head?_eq_some_iff.mp hi
    exact ⟨_, s₀, s', a, callers, rfl, hstart, hafter, hcalls, .operand hrest (List.contains_iff_mem.mp h)⟩
  · cases h

/-- In the second round of a loop its counter is what the phi has just written. -/
theorem reads_find_definitions_second_round :
    ∃ t s s₀ s' a callers, t.program.Made ∧ t.program.verify = .ok () ∧ t.program.Disciplined ∧ s.calls = [] ∧
      (Processor.start t "main" []).runFrom s = (.ok (), s₀) ∧ Processor.after t 9 s₀ = some s' ∧
      s'.calls = a :: callers ∧ a.Reads ⟨"i", .integer 64⟩ ∧
      (∃ h rest, Processor.histories t 9 s₀ [[]] = h :: rest ∧ a.Finds t.program h ⟨"i", .integer 64⟩) ∧
      ∀ v, ((Processor.run t "main" []).runFrom s).1 ≠ .error (.error (.execution (.undefinedVariable v))) := by
  obtain ⟨t, ht⟩ : ∃ t : Task, t = ⟨storeTwice (.ofWord 7 8), .fixed, Processor.defaultStepLimit⟩ := ⟨_, rfl⟩
  have hshows : t.showsRead "main" 9 ⟨"i", .integer 64⟩ := by
    rw [ht]
    decide +kernel
  have made : t.program.Made := by
    rw [ht]
    exact made_storeTwice _
  have verified : t.program.verify = .ok () := by
    rw [ht]
    decide +kernel
  have disciplined : t.program.Disciplined := by
    rw [ht]
    exact Program.disciplined_of_own (made_storeTwice _) (by decide +kernel)
  obtain ⟨s, s₀, s', a, callers, idle, hstart, hafter, hcalls, hreads⟩ := Task.exists_of_showsRead hshows
  obtain ⟨finds, defined⟩ := Program.reads_find_definitions made verified disciplined idle "main" []
  exact ⟨t, s, s₀, s', a, callers, made, verified, disciplined, idle, hstart, hafter, hcalls, hreads,
    finds s₀ 9 s' a callers _ hstart hafter hcalls hreads, defined⟩

def blindBranch : Program :=
  let c : Value := .variable ⟨"c", .integer 1⟩
  .ofFunctions [
    .ofCode "main" [] [[], [.ret (some (.ofWord 1 64))], [.ret (some (.ofWord 2 64))]]
      [(0, 1, some (.isTrue c)), (0, 2, some (.isFalse c))]]

def namesakes : Program :=
  .ofFunctions [
    .ofCode "main" []
      [[.binary ⟨"x", .integer 64⟩ .add (.ofWord 1 64) (.ofWord 0 64),
        .binary ⟨"x", .integer 32⟩ .add (.ofWord 2 64) (.ofWord 0 64),
        .ret (some (.variable ⟨"x", .integer 64⟩))]]
      []]

/-- Verification accepts a branch on a variable that is never written, and a second variable of the same name. -/
theorem verified_reads_go_astray :
    blindBranch.Made ∧ blindBranch.verify = .ok () ∧ namesakes.Made ∧ namesakes.verify = .ok () ∧
      ∃ m m', Machine.ofProgram blindBranch .keyed = .ok m ∧ Machine.ofProgram namesakes .keyed = .ok m' ∧
        ((Processor.run ⟨blindBranch, .fixed, Processor.defaultStepLimit⟩ "main" []).runFrom (.ofMachine m)).1 =
          .error (.error (.execution (.undefinedVariable ⟨"c", .integer 1⟩))) ∧
        ((Processor.run ⟨namesakes, .fixed, Processor.defaultStepLimit⟩ "main" []).runFrom (.ofMachine m')).1 =
          .ok (some 2) := by
  have made : ∀ blocks edges, (Program.ofFunctions [.ofCode "main" [] blocks edges]).Made := fun blocks edges =>
    Program.made_of_ofFunctions fun f hf => by
      cases List.mem_singleton.mp hf
      exact Function.made_of_ofCode
  have blind : (Machine.ofProgram blindBranch .keyed).toOption.any fun m =>
      ((Processor.run ⟨blindBranch, .fixed, Processor.defaultStepLimit⟩ "main" []).runFrom (.ofMachine m)).1 =
        .error (.error (.execution (.undefinedVariable ⟨"c", .integer 1⟩))) := by
    decide +kernel
  have astray : (Machine.ofProgram namesakes .keyed).toOption.any fun m =>
      ((Processor.run ⟨namesakes, .fixed, Processor.defaultStepLimit⟩ "main" []).runFrom (.ofMachine m)).1 =
        .ok (some 2) := by
    decide +kernel
  obtain ⟨m, hm, hfails⟩ := (Option.any_eq_true ..).mp blind
  obtain ⟨m', hm', hresult⟩ := (Option.any_eq_true ..).mp astray
  exact ⟨made _ _, by decide +kernel, made _ _, by decide +kernel, m, m', toOption_eq_some.mp hm,
    toOption_eq_some.mp hm', of_decide_eq_true hfails, of_decide_eq_true hresult⟩

end RegionGuard

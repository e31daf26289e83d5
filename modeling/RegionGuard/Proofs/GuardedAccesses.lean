import RegionGuard.Proofs.Instrumented
set_option autoImplicit false

namespace RegionGuard

def Configuration.fixed : Configuration := { Configuration.default with optimizeGuards := false }

namespace Block

variable {b : Block} {i z : Instruction} {done front rest back : List Instruction}

theorem front_unique (hb : b.Numbered) (h : b.instructions = done ++ i :: rest)
    (h' : b.instructions = front ++ z :: back) (hindex : i.index = z.index) : done = front ∧ i = z := by
  have hi : i ∈ b.instructions := by
    rw [h]
    exact List.mem_append_right _ List.mem_cons_self
  have hz : z ∈ b.instructions := by
    rw [h']
    exact List.mem_append_right _ List.mem_cons_self
  obtain rfl := eq_of_index_eq hb.2 hi hz hindex
  have distinct := List.Nodup.of_map _ hb.2
  rw [h', List.nodup_middle, List.nodup_cons, List.mem_append, not_or] at distinct
  obtain ⟨⟨hfront, hback⟩, -⟩ := distinct
  obtain ⟨hsame, -, -⟩ := (List.append_cons_inj_of_notMem hfront hback).mp (h'.symm.trans h)
  exact ⟨hsame.symm, rfl⟩

end Block

namespace Placer

variable {p : Placer} {a : MemoryAccess} {d : GuardDecision}

/-- Without hoists an access is redundant or has a guard directly before it. -/
theorem decide_local (stay : p.safety.configuration.optimizeGuards = false) (h : p.decide a = .ok d) :
    d.IsLocal ∧ (d.rule = .fallback → d.placement = .before d.location) := by
  obtain ⟨-, hlocation, -, -, hruling⟩ := decide_ok h
  rcases ruling_cases hruling with ⟨reason, hrule, hplacement, -⟩ | ⟨hoists, -⟩ | ⟨-, hplacement, hshape⟩
  · refine ⟨.inl hplacement, fun hfallback => ?_⟩
    rw [hfallback] at hrule
    cases hrule
  · rw [stay] at hoists
    cases hoists
  · rw [← hlocation] at hplacement
    exact ⟨.inr ⟨hplacement, hshape⟩, fun _ => hplacement⟩

end Placer

namespace Program

open FlowGraph

variable {p q : Program} {c : Configuration} {r : GuardReport} {counts : List Nat}

theorem guarded_of_editFunctions (hp : p.Numbered) (stay : c.optimizeGuards = false)
    (hdecide : p.decideGuards c = .ok r) (hedit : p.editFunctions (guardFunction c r) = .ok (counts, q))
    {d : GuardDecision} (hd : d ∈ r.decisions) (hrule : d.rule = .fallback) {g : Function}
    (hg : q.function? d.function = some g) {body : FlowGraph} (hbody : g.body = some body) {o : Operation}
    {v : Value} (ho : body.Holds d.location o) (hv : o.pointer? = some v) :
    body.Numbered ∧ ∃ sites, body.Guarded c.hooks sites d.location o v (.ofIsWrite o.isStore) := by
  obtain ⟨f, hf, x, a, hx, ha, hdecided⟩ := decision_of_function hp hdecide hd
  obtain ⟨hname, hnumbered⟩ := numbered_iff.mp hp _ f hf
  obtain ⟨n, g', hg', hq⟩ := ((editFunctions_ok hedit).2 d.function).2 f hf
  rw [hg] at hq
  cases hq
  rcases Function.guardFunction_ok hg' with ⟨hnone, rfl, -⟩ | ⟨original, m, middle, body', horiginal, rfl, -, hall, hstack⟩
  · rw [hbody] at hnone
    cases hnone
  cases hbody
  -- Every decision and every guard of the stack that is injected here is one of this function.
  have honly : ∀ d' ∈ r.decisions.filter (·.function = f.name), d'.IsLocal ∧
      ∃ o', (d'.location, o') ∈ Function.sitesOf original ∧
        (d'.pointer, d'.access) ∈ MemoryAccess.ofOperation p c o' := by
    intro d' hd'
    obtain ⟨hd', hsame⟩ := List.mem_filter.mp hd'
    obtain ⟨f', hf', x', a', hx', ha', hdecided'⟩ := decision_of_function hp hdecide hd'
    rw [of_decide_eq_true hsame, hname, hf] at hf'
    cases hf'
    obtain ⟨-, hlocation, hpointer, haccess, -⟩ := Placer.decide_ok hdecided'
    rw [hlocation, hpointer, haccess]
    exact ⟨(Placer.decide_local (by rw [hx']; exact stay) hdecided').1,
      Function.decision_site horiginal ha'⟩
  have hgrown := Function.grown_sitesOf (hnumbered original horiginal)
  obtain ⟨hgrown', hguards⟩ := GuardDecision.injectAll_local (fun d' hd' => (honly d' hd').1)
    (fun d' hd' => (honly d' hd').2.imp fun _ h => h.1) hgrown hall
  obtain ⟨hgrown'', hkept⟩ := StackGuardDecision.forM_inject hgrown' hstack
  have hd' : d ∈ r.decisions.filter (·.function = f.name) :=
    List.mem_filter.mpr ⟨hd, decide_eq_true hname.symm⟩
  obtain ⟨-, o', hsite, -⟩ := honly d hd'
  obtain rfl := Function.operation_unique hgrown''.numbered ho (hgrown''.holds _ hsite)
  have hunique : ∀ o', (d.location, o') ∈ Function.sitesOf original → o' = o := fun o' ho' =>
    Function.operation_unique hgrown.numbered (hgrown.holds _ ho') (hgrown.holds _ hsite)
  refine ⟨hgrown''.numbered, _, hkept d.location o v _ ?_ (hguards d.location o v _ hsite ?_ ?_)⟩
  · intro s hs l hl
    obtain ⟨hs, hsame⟩ := List.mem_filter.mp hs
    obtain ⟨f', hf', hfunction, hcalls⟩ := mem_stackGuards hdecide hs
    obtain ⟨name, hf'⟩ := Table.mem_values_iff.mp hf'
    have hname' := (numbered_iff.mp hp name f' hf').1
    rw [← hname', ← hfunction, of_decide_eq_true hsame, hname] at hf'
    change p.function? d.function = some f' at hf'
    rw [hf] at hf'
    cases hf'
    obtain ⟨i, hi, -, hescaping⟩ := hcalls l hl
    have hi' := Function.mem_sitesOf horiginal hi
    refine ⟨⟨_, hi'⟩, ?_⟩
    rintro rfl
    rw [hunique _ hi'] at hescaping
    cases o with
    | call dst target arguments => cases hv
    | _ => cases hescaping
  · intro d' hmem hl
    obtain ⟨-, o', hsite', haccess⟩ := honly d' hmem
    rw [hl] at hsite'
    rw [hunique o' hsite', MemoryAccess.ofOperation_pointer hv] at haccess
    exact Prod.mk.inj (List.mem_singleton.mp haccess)
  · exact .inr ⟨d, hd', rfl, (Placer.decide_local (by rw [hx]; exact stay) hdecided).2 hrule⟩

end Program

namespace Processor

variable {p q : Program} {c : Configuration} {report : InstrumentationReport} {s : Processor}

/-- Without hoists a load or store of a fallback decision runs only where a region holds its first byte
and allows it. -/
theorem fallback_access_permitted (numbered : p.Numbered) (distinct : c.hooks.names.Nodup)
    (stay : c.optimizeGuards = false) (hq : p.Instruments c report q) {limit : Word} {function : String}
    {arguments : List Word} (hs : Reached ⟨q, c, limit⟩ function arguments s) {d : GuardDecision}
    (hd : d ∈ report.guards.decisions) (hrule : d.rule = .fallback) {a : Activation} {i : Instruction}
    (hat : s.at? q d.function d.location = some (a, i)) {v : Value} (hv : i.operation.pointer? = some v)
    {w : Word} (hw : a.word s.machine v = .ok w) :
    ∃ r ∈ s.machine.monitor.space.regions.toList,
      r.containsAddress w ∧ r.protection.allows (.ofIsWrite i.operation.isStore) := by
  obtain ⟨log, log', hq⟩ := hq
  obtain ⟨log₁, p₁, r, counts, hprepare, hdecide, hedit, hdecisions, -⟩ := Program.instrument_ok hq
  rw [hdecisions] at hd
  obtain ⟨callers, f, rest, hcalls, hf, hbody, hblock, hrem, hindex⟩ := at?_eq_some hat
  obtain ⟨image, hvouched⟩ := vouched_of_reached distinct hs
  obtain ⟨done, ⟨b, hb, hinstructions⟩, -⟩ := hvouched.innermost a callers hcalls
  rw [hrem] at hinstructions
  have hi : i ∈ b.instructions := by
    rw [hinstructions]
    exact List.mem_append_right _ List.mem_cons_self
  have hholds : a.body.Holds d.location i.operation :=
    ⟨b, i, by rw [← hblock]; exact hb, hi, hindex, rfl⟩
  obtain ⟨hbodyNumbered, sites, hguarded⟩ := Program.guarded_of_editFunctions
    (Program.numbered_of_prepare numbered hprepare) stay hdecide hedit hd hrule hf hbody hholds hv
  obtain ⟨b', x, y, z, temp, hb', ⟨front, back, hinfix⟩, hx, hy, hz, -, -⟩ := hguarded
  rw [← hblock, hb] at hb'
  cases hb'
  -- The number of the access tells where it stands, so the guard has just run.
  have hsplit : b.instructions = (front ++ [x, y]) ++ z :: back := by simp [← hinfix]
  obtain ⟨hdone, -⟩ := Block.front_unique (FlowGraph.numbered_iff.mp hbodyNumbered _ b hb).2
    hinstructions hsplit (hindex.trans hz.symm)
  rw [hdone] at hinstructions
  exact permitted_behind_guard distinct hs hcalls ⟨b, hb, by rw [hrem]; exact hinstructions⟩ hx hy hw

end Processor

/-- A loop that stores a value at two addresses in a row, where two bytes are allocated. -/
def storeTwice (value : Value) : Program :=
  let word := fun name => (⟨name, .integer 64⟩ : Variable)
  let pointer := fun name => (⟨name, .pointer⟩ : Variable)
  let again : Variable := ⟨"again", .integer 1⟩
  .ofFunctions [
    .ofCode "main" []
      [[.call (some (pointer "p")) (.direct "malloc") [.ofWord 2 64]],
        [.phi (word "i") [(.ofWord 0 64, 0), (.variable (word "next"), 1)],
          .elementPtr (pointer "q") (.variable (pointer "p")) (.integer 8) [.variable (word "i")] false,
          .store (.variable (pointer "q")) value,
          .binary (word "next") .add (.variable (word "i")) (.ofWord 1 64),
          .compare again .ult (.variable (word "next")) (.ofWord 2 64)],
        [.ret none]]
      [(0, 1, none), (1, 1, some (.isTrue (.variable again))), (1, 2, some (.isFalse (.variable again)))],
    .declaration "malloc" [⟨0, "size", .integer 64⟩] .pointer]

theorem numbered_storeTwice (value : Value) : (storeTwice value).Numbered := by
  refine Program.numbered_of_ofFunctions fun f hf => ?_
  rcases List.mem_cons.mp hf with rfl | hf
  · exact Function.numbered_of_ofCode
  · cases List.mem_singleton.mp hf
    rintro _ ⟨⟩

namespace Processor

theorem fallback_access_permitted_second_round :
    ∃ report q s d a i, (storeTwice (.ofWord 7 8)).Numbered ∧ Hooks.default.names.Nodup ∧
      Configuration.fixed.optimizeGuards = false ∧
      (storeTwice (.ofWord 7 8)).Instruments .fixed report q ∧
      Reached ⟨q, .fixed, defaultStepLimit⟩ "main" [] s ∧ d ∈ report.guards.decisions ∧
      d.rule = .fallback ∧ s.at? q d.function d.location = some (a, i) ∧
      i.operation.pointer? = some (.variable ⟨"q", .pointer⟩) ∧
      a.word s.machine (.variable ⟨"q", .pointer⟩) = .ok 0x40000001 ∧
      ∃ r ∈ s.machine.monitor.space.regions.toList,
        r.containsAddress 0x40000001 ∧ r.protection.allows (.ofIsWrite i.operation.isStore) := by
  have hshows : (Trial.mk (storeTwice (.ofWord 7 8)) .fixed "main" []).shows 13 .fallback
      fun _ s a i => i.operation.pointer? = some (.variable ⟨"q", .pointer⟩) ∧
        (a.word s.machine (.variable ⟨"q", .pointer⟩)).toOption = some 0x40000001 := by
    decide +kernel
  obtain ⟨report, q, s, d, a, i, hq, hs, hd, hrule, hat, hnext⟩ := Trial.exists_of_shows hshows
  obtain ⟨hv, hw⟩ := of_decide_eq_true hnext
  have hw := toOption_eq_some.mp hw
  have distinct : Hooks.default.names.Nodup := by decide
  have numbered := numbered_storeTwice (.ofWord 7 8)
  exact ⟨report, q, s, d, a, i, numbered, distinct, rfl, hq, hs, hd, hrule, hat, hv, hw,
    fallback_access_permitted numbered distinct rfl hq hs hd hrule hat hv hw⟩

end Processor

def Activation.touched (m : Machine) (a : Activation) : Operation → Outcome (Word × Nat)
  | .load dst pointer => do
    return (← a.word m pointer, min 8 (← byteCount (← Evaluation.scalarBits dst.ty)))
  | .store pointer value => do
    return (← a.word m pointer, min 8 (← byteCount (← a.value m value).bits))
  | _ => return (0, 0)

/-- All of some bytes lie in one region that allows an access. -/
def Machine.Encloses (m : Machine) (access : Access) (bytes : Word × Nat) : Prop :=
  ∃ r ∈ m.monitor.space.regions.toList, r.protection.allows access ∧
    ∀ k < bytes.2, r.containsAddress (bytes.1 + UInt64.ofNat k)

instance (m : Machine) (access : Access) (bytes : Word × Nat) : Decidable (m.Encloses access bytes) :=
  inferInstanceAs (Decidable (∃ r ∈ _, _))

namespace Trial

/-- An access of a fallback decision is executed, and no region encloses the bytes that it touches. -/
def Strays (x : Trial) (bytes : Word × Nat) : Prop :=
  x.program.verify = .ok () ∧ x.configuration.optimizeGuards = false ∧
    ∃ report q s s' d a i, x.program.Instruments x.configuration report q ∧
      Processor.Reached (x.task q) x.function x.arguments s ∧ d ∈ report.guards.decisions ∧
      d.rule = .fallback ∧ s.at? q d.function d.location = some (a, i) ∧
      (Processor.step (x.task q)).runFrom s = (.ok .running, s') ∧
      a.touched s.machine i.operation = .ok bytes ∧
      ¬ s.machine.Encloses (.ofIsWrite i.operation.isStore) bytes

def strays (x : Trial) (steps : Nat) (bytes : Word × Nat) : Bool :=
  x.program.verify = .ok () ∧ x.configuration.optimizeGuards = false ∧
    x.shows steps .fallback fun q s a i =>
      ((Processor.step (x.task q)).runFrom s).1 = .ok .running ∧
        a.touched s.machine i.operation = .ok bytes ∧
        ¬ s.machine.Encloses (.ofIsWrite i.operation.isStore) bytes

theorem strays_of_shows {x : Trial} {bytes : Word × Nat} (steps : Nat)
    (h : x.strays steps bytes) : x.Strays bytes := by
  obtain ⟨hverify, hstay, hshows⟩ := of_decide_eq_true h
  obtain ⟨report, q, s, d, a, i, hq, hs, hd, hrule, hat, hnext⟩ := exists_of_shows hshows
  obtain ⟨hstep, htouched, hstray⟩ := of_decide_eq_true hnext
  exact ⟨hverify, hstay, report, q, s, _, d, a, i, hq, hs, hd, hrule, hat, Prod.ext hstep rfl, htouched,
    hstray⟩

end Trial

def loadsFreed (numbers : List Nat) : Program :=
  let block : Variable := ⟨"block", .pointer⟩
  let byte (v : String) : Variable := ⟨v, .pointer⟩
  .ofFunctions [
    (Function.ofCode "main" []
      [[.call (some block) (.direct "malloc") [.ofWord 8 64],
        .elementPtr (byte "p") (.variable block) (.integer 8) [.ofWord 1 64] false,
        .elementPtr (byte "q") (.variable block) (.integer 8) [.ofWord 2 64] false,
        .load ⟨"x", .integer 8⟩ (.variable (byte "p")),
        .call none (.direct "free") [.variable block],
        .load ⟨"y", .integer 8⟩ (.variable (byte "q")),
        .ret none]] []).renumber 0 numbers,
    .declaration "malloc" [⟨0, "size", .integer 64⟩] .pointer,
    .declaration "free" [⟨0, "block", .pointer⟩] .void]

theorem built_loadsFreed (numbers : List Nat) : (loadsFreed numbers).Built :=
  Program.built_of_ofFunctions fun f hf => by
    rcases List.mem_cons.mp hf with rfl | hf
    · exact Function.built_renumber Function.built_of_ofCode 0 numbers
    · rcases List.mem_cons.mp hf with rfl | hf
      · rintro _ ⟨⟩
      · cases List.mem_singleton.mp hf
        rintro _ ⟨⟩

/-- A word is stored where the second of two allocated bytes is the first that it touches. A byte is loaded from memory that
nobody allocated, when two entry points share a name and the guard is taken for the report of an allocation. And one is
loaded from memory that has been freed, when its load shares a number with an earlier one and is guarded there. -/
theorem fallback_access_leaves_region :
    (Trial.mk (storeTwice (.ofWord 7 64)) .fixed "main" []).Strays (0x40000001, 8) ∧
      (Trial.mk
        (.ofFunctions [.ofCode "main" [⟨0, "p", .pointer⟩]
          [[.load ⟨"x", .integer 8⟩ (.argument ⟨0, "p", .pointer⟩), .ret none]] []])
        { Configuration.fixed with
          hooks := { Hooks.default with guardAddress := Hooks.default.notifyMalloc } }
        "main" [0x5000]).Strays (0x5000, 1) ∧
      (loadsFreed [0, 1, 2, 3, 4, 3, 5]).Built ∧
      (Trial.mk (loadsFreed [0, 1, 2, 3, 4, 3, 5]) .fixed "main" []).Strays (0x40000002, 1) := by
  refine ⟨?_, ?_, built_loadsFreed _, ?_⟩
  · exact Trial.strays_of_shows 13 (by decide +kernel)
  · exact Trial.strays_of_shows 2 (by decide +kernel)
  · exact Trial.strays_of_shows 9 (by decide +kernel)

/-- A store at the address of a function, which counts as safe whatever the access. -/
def storesOverCode : Program :=
  .ofFunctions [.ofCode "main" [] [[.store (.function "main") (.ofWord 7 8), .ret none]] []]

/-- The store is left without a guard and executed, and a request to write there is refused, since code may be read
and executed only. -/
theorem redundant_store_refused :
    storesOverCode.verify = .ok () ∧ Configuration.default.globalInitFunction = "main" ∧
      ∃ report q s s' d a i, storesOverCode.Instruments .default report q ∧
        Processor.Reached ⟨q, .default, Processor.defaultStepLimit⟩ "main" [] s ∧ d ∈ report.guards.decisions ∧
        d.rule = .redundant .global ∧ s.at? q d.function d.location = some (a, i) ∧
        i.operation = .store (.function "main") (.ofWord 7 8) ∧
        (Processor.step ⟨q, .default, Processor.defaultStepLimit⟩).runFrom s = (.ok .running, s') ∧
        a.word s.machine (.function "main") = .ok 0x10000090 ∧
        ((AddressSpace.requestPermission 0x10000090 .write).runFrom s.machine.monitor.space).1 =
          .error (.error (.violation 0x10000090 .write)) := by
  have hshows : (Trial.mk storesOverCode .default "main" []).shows 0 (.redundant .global) fun q s a i =>
      i.operation = .store (.function "main") (.ofWord 7 8) ∧
        ((Processor.step ⟨q, .default, Processor.defaultStepLimit⟩).runFrom s).1 = .ok .running ∧
        a.word s.machine (.function "main") = .ok 0x10000090 ∧
        ((AddressSpace.requestPermission 0x10000090 .write).runFrom s.machine.monitor.space).1 =
          .error (.error (.violation 0x10000090 .write)) := by
    decide +kernel
  obtain ⟨report, q, s, d, a, i, hq, hs, hd, hrule, hat, hnext⟩ := Trial.exists_of_shows hshows
  obtain ⟨hstore, hstep, hplace, hrefused⟩ := of_decide_eq_true hnext
  exact ⟨by decide +kernel, rfl, report, q, s, _, d, a, i, hq, hs, hd, hrule, hat, hstore, Prod.ext hstep rfl,
    hplace, hrefused⟩

end RegionGuard

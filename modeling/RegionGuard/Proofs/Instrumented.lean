import RegionGuard.Instrument.Pipeline
import RegionGuard.Proofs.Decisions
import RegionGuard.Proofs.FallbackGuards
import RegionGuard.Proofs.Wiring
set_option autoImplicit false

namespace RegionGuard

open Stateful

namespace Program

variable {p q : Program} {c : Configuration}

def prepare (p : Program) (c : Configuration) : Logged Program := do
  if c.verification then p.verify
  let (_, p) ← (p.declareHooks c.hooks).simplifyLoops c
  let (_, p) ← p.reportAllocations c
  return p.declareHooks c.hooks

def guardFunction (c : Configuration) (r : GuardReport) (f : Function) : Outcome (Nat × Function) := do
  let decisions := r.decisions.filter (·.function = f.name)
  let stackGuards := r.stackGuards.filter (·.function = f.name)
  if decisions.isEmpty && stackGuards.isEmpty then return (0, f)
  f.injectGuards c.hooks decisions stackGuards

/-- What instrumentation makes of a program, whatever the log held before. -/
def Instruments (p : Program) (c : Configuration) (report : InstrumentationReport) (q : Program) :
    Prop :=
  ∃ log log', (p.instrument c).runFrom log = (.ok (report, q), log')

theorem guarded_bind_ok {α : Type} {b : Bool} {x : Outcome Unit} {f : Logged α} {log log' : List LogEntry}
    {a : α} :
    ((do
      if b then x
      f) : Logged α).runFrom log = (.ok a, log') ↔ (b → x = .ok ()) ∧ f.runFrom log = (.ok a, log') := by
  cases b with
  | false => simp
  | true =>
    simp only [if_true, true_implies]
    rw [lift_bind_ok]
    constructor
    · rintro ⟨⟨⟩, hx, hf⟩
      exact ⟨hx, hf⟩
    · rintro ⟨hx, hf⟩
      exact ⟨(), hx, hf⟩

theorem placeGuards_ok {log log' : List LogEntry} {r : GuardReport}
    (h : (p.placeGuards c).runFrom log = (.ok (r, q), log')) :
    ∃ r₀ counts, (p.declareHooks c.hooks).decideGuards c = .ok r₀ ∧
      (p.declareHooks c.hooks).editFunctions (guardFunction c r₀) = .ok (counts, q) ∧
      r.decisions = r₀.decisions ∧ r.stackGuards = r₀.stackGuards ∧ r.injected = counts.foldl (· + ·) 0 := by
  obtain ⟨r₀, hdecide, h⟩ := lift_bind_ok.mp h
  obtain ⟨⟨counts, q'⟩, hedit, h⟩ := lift_bind_ok.mp h
  obtain ⟨_, log₁, -, h⟩ := runFrom_bind_ok.mp h
  simp only [runFrom_pure, Prod.mk.injEq, Except.ok.injEq] at h
  obtain ⟨⟨rfl, rfl⟩, -⟩ := h
  exact ⟨r₀, counts, hdecide, hedit, rfl, rfl, rfl⟩

theorem instrument_ok {log log' : List LogEntry} {report : InstrumentationReport}
    (h : (p.instrument c).runFrom log = (.ok (report, q), log')) :
    ∃ log₁ p₁ r counts, (p.prepare c).runFrom log = (.ok p₁, log₁) ∧ p₁.decideGuards c = .ok r ∧
      p₁.editFunctions (guardFunction c r) = .ok (counts, q) ∧
      report.guards.decisions = r.decisions ∧ report.guards.stackGuards = r.stackGuards := by
  obtain ⟨hverify, h⟩ := guarded_bind_ok.mp h
  obtain ⟨⟨preheaders, p₁⟩, hsimplify, h⟩ := lift_bind_ok.mp h
  obtain ⟨⟨allocation, p₂⟩, log₁, hreport, h⟩ := runFrom_bind_ok.mp h
  obtain ⟨⟨guards, p₃⟩, log₂, hplace, h⟩ := runFrom_bind_ok.mp h
  obtain ⟨r, counts, hdecide, hedit, hdecisions, hstack, -⟩ := placeGuards_ok hplace
  have hrest : guards = report.guards ∧ p₃ = q := by
    simp only at h
    split at h
    · obtain ⟨_, log₃, -, h⟩ := runFrom_bind_ok.mp h
      obtain ⟨_, log₄, -, h⟩ := runFrom_bind_ok.mp h
      simp only [runFrom_pure, Prod.mk.injEq, Except.ok.injEq] at h
      obtain ⟨⟨rfl, rfl⟩, -⟩ := h
      exact ⟨rfl, rfl⟩
    · obtain ⟨_, log₄, -, h⟩ := runFrom_bind_ok.mp h
      simp only [runFrom_pure, Prod.mk.injEq, Except.ok.injEq] at h
      obtain ⟨⟨rfl, rfl⟩, -⟩ := h
      exact ⟨rfl, rfl⟩
  obtain ⟨rfl, rfl⟩ := hrest
  refine ⟨log₁, p₂.declareHooks c.hooks, r, counts, ?_, hdecide, hedit, hdecisions, hstack⟩
  refine guarded_bind_ok.mpr ⟨hverify, ?_⟩
  refine lift_bind_ok.mpr ⟨_, hsimplify, ?_⟩
  exact runFrom_bind_ok.mpr ⟨_, log₁, hreport, rfl⟩

theorem prepare_ok {log log' : List LogEntry} (h : (p.prepare c).runFrom log = (.ok q, log')) :
    ∃ preheaders p₁ allocation p₂, (p.declareHooks c.hooks).simplifyLoops c = .ok (preheaders, p₁) ∧
      (p₁.reportAllocations c).runFrom log = (.ok (allocation, p₂), log') ∧ q = p₂.declareHooks c.hooks := by
  obtain ⟨-, h⟩ := guarded_bind_ok.mp h
  obtain ⟨⟨preheaders, p₁⟩, hsimplify, h⟩ := lift_bind_ok.mp h
  obtain ⟨⟨allocation, p₂⟩, log₁, hreport, h⟩ := runFrom_bind_ok.mp h
  simp only [runFrom_pure, Prod.mk.injEq, Except.ok.injEq] at h
  obtain ⟨rfl, rfl⟩ := h
  exact ⟨preheaders, p₁, allocation, p₂, hsimplify, hreport, rfl⟩

theorem numbered_of_prepare {log log' : List LogEntry} (hp : p.Numbered)
    (h : (p.prepare c).runFrom log = (.ok q, log')) : q.Numbered := by
  obtain ⟨_, p₁, _, p₂, hsimplify, hreport, hq⟩ := prepare_ok h
  rw [hq]
  have h₁ := numbered_of_simplifyLoops (numbered_of_declareHooks hp c.hooks) hsimplify
  exact numbered_of_declareHooks (numbered_of_reportAllocations h₁ hreport) c.hooks

end Program

namespace Function

open FlowGraph

variable {p : Program} {c : Configuration} {f g : Function} {r : GuardReport} {count : Nat}

theorem decision_site {body : FlowGraph} (hbody : f.body = some body) {a : MemoryAccess}
    (ha : a ∈ MemoryAccess.ofFunction p c f) :
    ∃ o, (a.location, o) ∈ sitesOf body ∧ (a.pointer, a.access) ∈ MemoryAccess.ofOperation p c o := by
  obtain ⟨i, hi, -, hmem⟩ := MemoryAccess.mem_ofFunction ha
  exact ⟨i.operation, mem_sitesOf hbody hi, hmem⟩

theorem guardFunction_ok (h : Program.guardFunction c r f = .ok (count, g)) :
    f.body = none ∧ g = f ∧ count = 0 ∨
      ∃ body n middle body', f.body = some body ∧ g = { f with body := some body' } ∧
        count = n + (r.stackGuards.filter (·.function = f.name)).length ∧
        (GuardDecision.injectAll c.hooks (r.decisions.filter (·.function = f.name)) ⟨[], ∅⟩).run body =
          .ok (n, middle) ∧
        ((r.stackGuards.filter (·.function = f.name)).forM fun d => d.inject c.hooks).run middle =
          .ok (⟨⟩, body') := by
  unfold Program.guardFunction at h
  simp only at h
  split at h
  · rename_i hempty
    rw [Bool.and_eq_true, List.isEmpty_iff, List.isEmpty_iff] at hempty
    cases h
    cases hbody : f.body with
    | none => exact .inl ⟨rfl, rfl, rfl⟩
    | some body =>
      rw [hempty.1, hempty.2]
      refine .inr ⟨body, 0, body, body, rfl, ?_, rfl, rfl, rfl⟩
      rw [← hbody]
  · obtain ⟨body, body', hbody, hrun, rfl⟩ := edit_ok h
    obtain ⟨n, middle, hall, hrest⟩ := Edit.bind_ok.mp hrun
    obtain ⟨u, last, hstack, hcount⟩ := Edit.bind_ok.mp hrest
    obtain ⟨rfl, rfl⟩ := Edit.pure_ok.mp hcount
    rw [Edit.forIn_eq_forM] at hstack
    exact .inr ⟨body, n, middle, _, hbody, rfl, rfl, hall, hstack⟩

end Function

namespace Program

variable {p : Program} {c : Configuration} {r : GuardReport}

theorem decision_of_function (hp : p.Numbered) (hdecide : p.decideGuards c = .ok r) {d : GuardDecision}
    (hd : d ∈ r.decisions) :
    ∃ f, p.function? d.function = some f ∧ ∃ (x : Placer) (a : MemoryAccess),
      x.safety.configuration = c ∧ a ∈ MemoryAccess.ofFunction p c f ∧ x.decide a = .ok d := by
  obtain ⟨f, hf, -, x, a, hx, hfunction, -, ha, hdecided⟩ := mem_decisions hdecide hd
  obtain ⟨name, hname⟩ := Table.mem_values_iff.mp hf
  refine ⟨f, ?_, x, a, hx, ha, hdecided⟩
  rw [(Placer.decide_ok hdecided).1, hfunction, (numbered_iff.mp hp name f hname).1]
  exact hname

end Program

theorem Stateful.exists_of_any {σ α : Type} {x : Stateful σ α} {s : σ} {P : α → Bool}
    (h : (x.runFrom s).1.toOption.any P) : ∃ a s', x.runFrom s = (.ok a, s') ∧ P a := by
  obtain ⟨a, ha, hP⟩ := (Option.any_eq_true ..).mp h
  exact ⟨a, (x.runFrom s).2, Prod.ext (toOption_eq_some.mp ha) rfl, hP⟩

def Function.ofCode (name : String) (arguments : List Argument) (blocks : List (List Operation))
    (edges : List (Nat × Nat × Option Condition)) : Function :=
  let drafts := blocks.map fun b => b.map fun o => (⟨o, none, []⟩ : FlowGraph.Draft)
  ⟨name, arguments, .void, .external, (FlowGraph.build drafts edges (some 0)).toOption⟩

theorem Function.numbered_of_ofCode {name : String} {arguments : List Argument}
    {blocks : List (List Operation)} {edges : List (Nat × Nat × Option Condition)} :
    ∀ c ∈ (ofCode name arguments blocks edges).body, c.Numbered := fun _ hc =>
  FlowGraph.numbered_of_build (toOption_eq_some.mp hc)

def Program.ofFunctions (l : List Function) : Program := l.foldl Program.addFunction .empty

theorem Program.numbered_of_ofFunctions {l : List Function} (h : ∀ f ∈ l, ∀ c ∈ f.body, c.Numbered) :
    (ofFunctions l).Numbered := by
  have hfold : ∀ p : Program, p.Numbered → (l.foldl addFunction p).Numbered := by
    induction l with
    | nil => exact fun p hp => hp
    | cons f rest ih =>
      intro p hp
      exact ih (fun g hg => h g (List.mem_cons_of_mem _ hg)) _
        (numbered_of_addFunction hp (h f List.mem_cons_self))
  exact hfold .empty fun e he => (List.not_mem_nil he).elim

theorem Function.made_of_ofCode {name : String} {arguments : List Argument} {blocks : List (List Operation)}
    {edges : List (Nat × Nat × Option Condition)} : ∀ c ∈ (ofCode name arguments blocks edges).body, c.Made :=
  fun _ hc => FlowGraph.made_of_build (toOption_eq_some.mp hc)

theorem Program.made_of_ofFunctions {l : List Function} (h : ∀ f ∈ l, ∀ c ∈ f.body, c.Made) :
    (Program.ofFunctions l).Made := by
  have hfold : ∀ p : Program, p.Made → (l.foldl Program.addFunction p).Made := by
    induction l with
    | nil => exact fun p hp => hp
    | cons f rest ih =>
      intro p hp
      exact ih (fun g hg => h g (List.mem_cons_of_mem _ hg)) _ (.addFunction (h f List.mem_cons_self) hp)
  exact hfold .empty .empty

def FlowGraph.renumber (c : FlowGraph) (k : Nat) (numbers : List Nat) : Outcome FlowGraph :=
  c.modifyBlock k fun b =>
    pure { b with instructions := List.zipWith (fun i n => { i with index := n }) b.instructions numbers }

def Function.renumber (f : Function) (k : Nat) (numbers : List Nat) : Function :=
  { f with body := f.body.bind fun c => (c.renumber k numbers).toOption }

theorem Function.built_renumber {f : Function} (h : ∀ c ∈ f.body, c.Built) (k : Nat) (numbers : List Nat) :
    ∀ c ∈ (f.renumber k numbers).body, c.Built := by
  intro c hc
  obtain ⟨c₀, hc₀, hc⟩ := Option.bind_eq_some_iff.mp hc
  exact .modifyBlock (h c₀ hc₀) (toOption_eq_some.mp hc)

theorem Function.built_of_ofCode {name : String} {arguments : List Argument} {blocks : List (List Operation)}
    {edges : List (Nat × Nat × Option Condition)} : ∀ c ∈ (ofCode name arguments blocks edges).body, c.Built :=
  fun c hc => (made_of_ofCode c hc).built

theorem Program.built_of_ofFunctions {l : List Function} (h : ∀ f ∈ l, ∀ c ∈ f.body, c.Built) :
    (Program.ofFunctions l).Built := by
  have hfold : ∀ p : Program, p.Built → (l.foldl Program.addFunction p).Built := by
    induction l with
    | nil => exact fun p hp => hp
    | cons f rest ih =>
      intro p hp
      exact ih (fun g hg => h g (List.mem_cons_of_mem _ hg)) _ (.addFunction (h f List.mem_cons_self) hp)
  exact hfold .empty .empty

def storesUnder (numbers : List Nat) : Program :=
  let p : Argument := ⟨0, "p", .pointer⟩
  let q : Argument := ⟨1, "q", .pointer⟩
  .ofFunctions [(Function.ofCode "main" [p, q]
    [[.store (.argument p) (.argument p), .store (.argument q) (.argument q), .ret none]] []).renumber 0 numbers]

theorem built_storesUnder (numbers : List Nat) : (storesUnder numbers).Built :=
  Program.built_of_ofFunctions fun f hf => by
    cases List.mem_singleton.mp hf
    exact Function.built_renumber Function.built_of_ofCode 0 numbers

structure Trial where
  program : Program
  configuration : Configuration
  function : String
  arguments : List Word

namespace Trial

def task (x : Trial) (q : Program) : Task := ⟨q, x.configuration, Processor.defaultStepLimit⟩

def instrumented? (x : Trial) : Option (InstrumentationReport × Program) :=
  ((x.program.instrument x.configuration).runFrom []).1.toOption

def after? (x : Trial) (steps : Nat) : Option (InstrumentationReport × Program × Processor) := do
  let (report, q) ← x.instrumented?
  let m ← (Machine.ofProgram q .keyed).toOption
  match (Processor.start (x.task q) x.function x.arguments).runFrom (.ofMachine m) with
  | (.ok _, s₀) => return (report, q, ← Processor.after (x.task q) steps s₀)
  | (.error _, _) => none

theorem instruments_of_instrumented? {x : Trial} {report : InstrumentationReport} {q : Program}
    (h : x.instrumented? = some (report, q)) : x.program.Instruments x.configuration report q :=
  ⟨[], _, Prod.ext (toOption_eq_some.mp h) rfl⟩

theorem reached_of_after? {x : Trial} {steps : Nat} {report : InstrumentationReport} {q : Program}
    {s : Processor} (h : x.after? steps = some (report, q, s)) :
    x.program.Instruments x.configuration report q ∧
      Processor.Reached (x.task q) x.function x.arguments s := by
  obtain ⟨⟨report', q'⟩, hq, h⟩ := Option.bind_eq_some_iff.mp h
  obtain ⟨m, hm, h⟩ := Option.bind_eq_some_iff.mp h
  split at h
  · rename_i u s₀ hs₀
    obtain ⟨s', hs', h⟩ := Option.bind_eq_some_iff.mp h
    cases h
    exact ⟨instruments_of_instrumented? hq, .keyed, m, s₀, steps, toOption_eq_some.mp hm, hs₀, hs'⟩
  · cases h

/-- Whether something holds of an access of a given rule that is next after some steps. -/
def shows (x : Trial) (steps : Nat) (rule : GuardRule)
    (P : Program → Processor → Activation → Instruction → Bool) : Bool :=
  (x.after? steps).any fun (report, q, s) => report.guards.decisions.any fun d =>
    d.rule = rule && (s.at? q d.function d.location).any fun (a, i) => P q s a i

theorem exists_of_shows {x : Trial} {steps : Nat} {rule : GuardRule}
    {P : Program → Processor → Activation → Instruction → Bool} (h : x.shows steps rule P) :
    ∃ report q s d a i, x.program.Instruments x.configuration report q ∧
      Processor.Reached (x.task q) x.function x.arguments s ∧ d ∈ report.guards.decisions ∧
      d.rule = rule ∧ s.at? q d.function d.location = some (a, i) ∧ P q s a i := by
  obtain ⟨⟨report, q, s⟩, hafter, h⟩ := (Option.any_eq_true ..).mp h
  obtain ⟨d, hd, h⟩ := List.any_eq_true.mp h
  obtain ⟨hrule, h⟩ := Bool.and_eq_true_iff.mp h
  obtain ⟨⟨a, i⟩, hat, h⟩ := (Option.any_eq_true ..).mp h
  obtain ⟨hq, hs⟩ := reached_of_after? hafter
  exact ⟨report, q, s, d, a, i, hq, hs, hd, of_decide_eq_true hrule, hat, h⟩

/-- The image of the instrumented program, and the answer of the call on it. -/
def answers (x : Trial) (P : Program → Machine → Outcome (Option Word) → Bool) : Bool :=
  x.instrumented?.any fun (_, q) => (Machine.ofProgram q .keyed).toOption.any fun m =>
    P q m ((Processor.run (x.task q) x.function x.arguments).runFrom (.ofMachine m)).1

theorem exists_of_answers {x : Trial} {P : Program → Machine → Outcome (Option Word) → Bool} (h : x.answers P) :
    ∃ report q m, x.program.Instruments x.configuration report q ∧ Machine.ofProgram q .keyed = .ok m ∧
      P q m ((Processor.run (x.task q) x.function x.arguments).runFrom (.ofMachine m)).1 := by
  obtain ⟨⟨report, q⟩, hq, h⟩ := (Option.any_eq_true ..).mp h
  obtain ⟨m, hm, h⟩ := (Option.any_eq_true ..).mp h
  exact ⟨report, q, m, instruments_of_instrumented? hq, toOption_eq_some.mp hm, h⟩

end Trial

end RegionGuard

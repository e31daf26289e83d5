import RegionGuard.Proofs.Derivations
import RegionGuard.Proofs.PreheaderRounds
import RegionGuard.Proofs.SafetySearches
import RegionGuard.Proofs.SteadyEdits
set_option autoImplicit false

namespace RegionGuard

variable {R : Fatal → Prop}

theorem LoopBound.stops_find? {c : FlowGraph} (consistent : c.Consistent) (d : DefUse) (iv : InductionVariable)
    (l : NaturalLoop) : Outcome.Stops R (find? d c iv l) := by
  unfold find?
  split
  · exact .branch (fun _ => .answer _) fun _ => .bind consistent.wired.stops_edgesOut fun _ => .answer _
  · exact .answer _

namespace Placer

variable {p : Placer} (consistent : ∀ f ∈ p.safety.program.functions.values, ∀ c ∈ f.body, c.Consistent)
  (known : p.safety.Knows p.facts)

include consistent known

theorem stops_hoist? (a : MemoryAccess) : Outcome.Stops R (p.hoist? a) := by
  unfold hoist?
  split
  · exact .answer _
  · refine .bind ?_ fun _ => .answer _
    unfold inductionHoist?
    split
    · exact .answer _
    · refine Outcome.Stops.orRaise.proceed fun c hc => .bind ?_ fun _ => .answer _
      exact LoopBound.stops_find? (consistent _ known.listed c (orRaise_eq_ok.mp hc)) _ _ _

theorem stops_decide (hg : p.safety.callGraph = .ofProgram p.safety.program)
    (circles : (∃ f, p.safety.Knows f ∧ f.Circular) → R .unbounded) (a : MemoryAccess) :
    Outcome.Stops R (p.decide a) := by
  refine .bind ?_ fun _ => .answer _
  unfold ruling
  split
  · exact .answer _
  · have hjudge := (Safety.stops_judge consistent hg known a.pointer).mono fun e ⟨he, h⟩ => he ▸ circles h
    refine .bind hjudge fun reason? => ?_
    split
    · exact .answer _
    · exact .branch (fun _ => .bind (stops_hoist? consistent known a) fun _ => .answer _) fun _ => .answer _

end Placer

theorem Safety.stops_decideAccesses {s : Safety} (consistent : ∀ f ∈ s.program.functions.values, ∀ c ∈ f.body, c.Consistent)
    (hg : s.callGraph = .ofProgram s.program) (circles : (∃ f, s.Knows f ∧ f.Circular) → R .unbounded) {f : Function}
    (hf : f ∈ s.program.functions.values) : Outcome.Stops R (s.decideAccesses f) := by
  have hbody := consistent f hf
  refine .branch (fun _ => .answer _) fun _ => ?_
  refine (FunctionFacts.stops_ofFunction hbody).proceed fun facts hfacts => ?_
  have hfunction := (FunctionFacts.eq_of_ofFunction hfacts).2
  have known : s.Knows facts := knows_of_ofFunction hf hfacts
  refine .bind (Custody.stops_ofDefUse hbody hfunction) fun custody => ?_
  refine Outcome.Stops.orRaise.proceed fun c hc => .bind (hbody c (orRaise_eq_ok.mp hc)).stops_loopForest fun forest => ?_
  exact .mapM fun a _ => Placer.stops_decide consistent known hg circles a

theorem Function.stops_decideStackGuards (overflow : R .overflow) (f : Function) (p : Program) (c : Configuration) :
    Outcome.Stops R (f.decideStackGuards p c) := by
  refine .bind .orRaise fun _ => .bind .orRaise fun _ => .branch (fun _ => .answer _) fun _ => .bind ?_ fun _ => .answer _
  refine .fold fun size e _ => .bind ?_ fun _ => .answer _
  unfold slotSize
  split
  · exact .bind (.orStop overflow) fun _ => .answer _
  · exact .answer _

/-- Guards are decided without a stop but for sizes that overflow and searches in circles. -/
theorem Program.stops_decideGuards (overflow : R .overflow) {p : Program} {c : Configuration}
    (consistent : ∀ f ∈ p.functions.values, ∀ body ∈ f.body, body.Consistent)
    (circles : (∃ f, Safety.Knows ⟨p, .ofProgram p, c⟩ f ∧ f.Circular) → R .unbounded) :
    Outcome.Stops R (p.decideGuards c) := by
  refine .bind (.mapM fun f hf => ?_) fun _ => .answer _
  have hlisted := (List.mem_filter.mp hf).1
  have hstack : ∀ decisions : List GuardDecision, Outcome.Stops R (do
      let stackGuards ← if c.restriction then f.decideStackGuards p c else pure []
      return (decisions, stackGuards)) := fun decisions => by
    split
    · exact .bind (f.stops_decideStackGuards overflow p c) fun _ => .answer _
    · exact .answer _
  exact .branch (fun _ => .bind (Safety.stops_decideAccesses consistent rfl circles hlisted) hstack) fun _ => hstack []

variable {R : Fatal → Prop} {K : String → Operation → Prop}

def Program.Consistent (p : Program) : Prop := ∀ f ∈ p.functions.values, ∀ c ∈ f.body, c.Consistent

def Program.Circular (p : Program) : Prop := ∃ f ∈ p.functions.values, f.Circular

/-- Graphs are consistent, and their operations have a property that goes by the name of the function. -/
def Program.Coded (K : String → Operation → Prop) (p : Program) : Prop :=
  ∀ name f, p.function? name = some f → ∀ c ∈ f.body, c.Coded (K name)

theorem Program.Made.consistent {p : Program} (made : p.Made) : p.Consistent := fun _ hf c hc => by
  obtain ⟨name, hname⟩ := Table.mem_values_iff.mp hf
  exact (made.body hname c hc).consistent

namespace Function

variable {f g : Function} {α : Type} {P : FlowGraph → Prop}

theorem stops_edit {e : Edit α} (he : Edit.Stays P R e) (hf : ∀ c ∈ f.body, P c) : Outcome.Stops R (f.edit e) :=
  Outcome.Stops.orRaise.proceed fun c hc => .bind (he.stops c (hf c (orRaise_eq_ok.mp hc))) fun _ => .answer _

theorem keeps_edit {e : Edit α} (he : Edit.Stays P R e) (hf : ∀ c ∈ f.body, P c) {a : α} (h : f.edit e = .ok (a, g)) :
    ∀ c ∈ g.body, P c := by
  obtain ⟨c, c', hc, hrun, rfl⟩ := edit_ok h
  rintro _ ⟨⟩
  exact he.keeps c a c' (hf c hc) hrun

end Function

namespace Program

variable {p q : Program} {α : Type} {c : Configuration}

theorem Consistent.coded (h : p.Consistent) : p.Coded fun _ _ => True := fun _ f hf body hbody =>
  (h f (Table.mem_values_of_get? hf) body hbody).coded

theorem Coded.consistent (h : p.Coded K) : p.Consistent := fun f hf body hbody => by
  obtain ⟨name, hname⟩ := Table.mem_values_iff.mp hf
  exact (h name f hname body hbody).toConsistent

theorem Coded.setFunction (hp : p.Coded K) {name : String} {f : Function} (hf : ∀ c ∈ f.body, c.Coded (K name)) :
    (p.setFunction name f).Coded K := by
  intro other g hg
  unfold function? Program.setFunction at hg
  rw [Table.get?_insert] at hg
  split at hg
  · rename_i hname
    cases hg
    exact hname ▸ hf
  · exact hp other g hg

theorem Coded.declareHooks (hp : p.Coded K) (h : Hooks) : (p.declareHooks h).Coded K :=
  declareHooks_induction hp fun _ _ _ hp _ => hp.setFunction (by rintro _ ⟨⟩)

theorem stops_editFunctions {pass : Function → Outcome (α × Function)}
    (h : ∀ f ∈ p.functions.values, Outcome.Stops R (pass f)) : Outcome.Stops R (p.editFunctions pass) :=
  .bind (.fold fun _ e he => .bind (h e.2 (List.mem_map_of_mem he)) fun _ => .answer _) fun _ => .answer _

theorem Coded.editFunctions {K' : String → Operation → Prop} {pass : Function → Outcome (α × Function)}
    (hpass : ∀ name f a f', p.function? name = some f → pass f = .ok (a, f') → ∀ c ∈ f'.body, c.Coded (K' name))
    {answers : List α} (h : p.editFunctions pass = .ok (answers, q)) : q.Coded K' := by
  intro name g hg
  obtain ⟨hnone, hsome⟩ := (editFunctions_ok h).2 name
  cases hf : p.function? name with
  | none =>
    rw [hnone hf] at hg
    cases hg
  | some f =>
    obtain ⟨a, g', hg', hq⟩ := hsome f hf
    cases hg.symm.trans hq
    exact hpass name f a g hf hg'

theorem stops_verify (consistent : p.Consistent) : Outcome.Stops R p.verify :=
  .forM fun f hf => .branch (fun _ => .answer _) fun _ => stops_verifyFunction (consistent f hf) p

/-- A program that gets no operations but those by which no value derives from another. -/
structure Admits (K : String → Operation → Prop) : Prop where
  phis : ∀ name dst incoming, K name (.phi dst incoming)
  casts : ∀ name dst kind v, kind ≠ .bitcast → K name (.cast dst kind v)
  calls : ∀ name callee arguments, K name (.notify callee arguments)

variable (overflow : R .overflow) (admits : Admits K)

include overflow admits

theorem stops_simplifyLoops (hp : p.Coded K) : Outcome.Stops R (p.simplifyLoops c) := by
  refine .bind (stops_editFunctions fun f hf => .branch (fun _ => ?_) fun _ => .answer _) fun _ => .answer _
  obtain ⟨name, hname⟩ := Table.mem_values_iff.mp hf
  exact Function.stops_edit (Preheader.stays_simplify overflow (admits.phis name)) (hp name f hname)

theorem coded_simplifyLoops (hp : p.Coded K) {count : Nat} (h : p.simplifyLoops c = .ok (count, q)) : q.Coded K := by
  obtain ⟨⟨counts, q'⟩, hedit, h⟩ := bind_eq_ok.mp h
  cases h
  refine Coded.editFunctions (fun name f a f' hf hpass => ?_) hedit
  split at hpass
  · exact Function.keeps_edit (Preheader.stays_simplify overflow (admits.phis name)) (hp name f hf) hpass
  · cases hpass
    exact hp name f hf

theorem stays_reportAllocations (name : String) (sites : List (Location × ReportSite)) (report : AllocationReport)
    (h : Hooks) : Edit.Stays (FlowGraph.Coded (K name)) R (do
      for (l, s) in sites do s.report h l
      return report) :=
  (Edit.Stays.forIn fun e _ => ReportSite.stays_report overflow (admits.casts name) (admits.calls name) h e.1 e.2).bind
    fun _ => .answer _

theorem ends_registerGlobals (hp : p.Coded K) :
    Stateful.Ends R (fun r => r.2.Coded K) (p.registerGlobals c : Logged (Nat × Program)) := by
  have hglobals : Outcome.Stops R p.trackedGlobals := by
    refine .bind (.mapM fun g _ => .bind ?_ fun _ => .answer _) fun _ => .answer _
    exact .branch (fun _ => .answer _) fun _ => .bind (.orStop overflow) fun _ => .answer _
  refine (Stateful.Ends.lift (Q := fun _ => True) hglobals fun _ _ => trivial).bind fun globals _ => ?_
  refine .branch (fun _ => .answer hp) fun _ => ?_
  refine (Stateful.Ends.present (Q := fun f => p.function? c.globalInitFunction = some f) fun f hf => hf).bind fun f hf => ?_
  have hbody := hp _ f hf
  have hregister := stays_registerIn overflow (admits.calls c.globalInitFunction) c.hooks globals
  refine (Stateful.Ends.lift (Q := fun r => ∀ body ∈ r.2.body, body.Coded (K c.globalInitFunction))
    (Function.stops_edit hregister hbody) fun r hr => Function.keeps_edit hregister hbody hr).bind fun r hr => ?_
  obtain ⟨count, f'⟩ := r
  have hset := hp.setFunction hr
  exact .branch (fun _ => .answer hset) fun _ => (Stateful.Ends.update _).bind fun _ _ => .answer hset

theorem ends_reportAllocations (hp : p.Coded K) :
    Stateful.Ends R (fun r => r.2.Coded K) (p.reportAllocations c : Logged (AllocationReport × Program)) := by
  have hdeclared := hp.declareHooks c.hooks
  have stays := fun name => stays_reportAllocations (K := K) overflow admits name
  refine (Stateful.Ends.lift (Q := fun r => r.2.Coded K) (stops_editFunctions fun f hf => ?_) fun r hr => ?_).bind
    fun r hr => ?_
  · obtain ⟨name, hname⟩ := Table.mem_values_iff.mp hf
    exact .branch (fun _ => Function.stops_edit (stays name _ _ _) (hdeclared name f hname)) fun _ => .answer _
  · refine Coded.editFunctions (fun name f a f' hf hpass => ?_) hr
    split at hpass
    · exact Function.keeps_edit (stays name _ _ _) (hdeclared name f hf) hpass
    · cases hpass
      exact hdeclared name f hf
  · simp only
    split
    · exact (ends_registerGlobals overflow admits hr).bind fun r hr => .answer hr
    · exact .answer hr

omit admits in
theorem stays_injectGuards (h : Hooks) (decisions : List GuardDecision) (stackGuards : List StackGuardDecision) :
    Edit.Stays (FlowGraph.Coded fun _ => True) R (do
      let count ← GuardDecision.injectAll h decisions ⟨[], ∅⟩
      for d in stackGuards do d.inject h
      return count + stackGuards.length) :=
  (GuardDecision.stays_injectAll overflow (fun _ => trivial) _ _ _).bind fun _ =>
    (Edit.Stays.forIn fun d _ => StackGuardDecision.stays_inject overflow (fun _ _ => trivial) _ d).bind fun _ => .answer _

omit admits in
/-- Guards are placed without a stop but for counters and sizes that overflow and searches in circles. -/
theorem ends_placeGuards (hp : p.Consistent)
    (circles : (∃ f, Safety.Knows ⟨p.declareHooks c.hooks, .ofProgram (p.declareHooks c.hooks), c⟩ f ∧ f.Circular) →
      R .unbounded) :
    Stateful.Ends R (fun r => r.2.Consistent) (p.placeGuards c : Logged (GuardReport × Program)) := by
  have hdeclared := hp.coded.declareHooks c.hooks
  refine (Stateful.Ends.lift (Q := fun _ => True) (stops_decideGuards overflow hdeclared.consistent circles)
    fun _ _ => trivial).bind fun report _ => ?_
  refine (Stateful.Ends.lift (Q := fun r => r.2.Coded fun _ _ => True) (stops_editFunctions fun f hf => ?_)
    fun r hr => ?_).bind fun r hr => ?_
  · obtain ⟨name, hname⟩ := Table.mem_values_iff.mp hf
    exact .branch (fun _ => .answer _) fun _ =>
      Function.stops_edit (stays_injectGuards overflow _ _ _) (hdeclared name f hname)
  · refine Coded.editFunctions (fun name f a f' hf hpass => ?_) hr
    simp only at hpass
    split at hpass
    · cases hpass
      exact hdeclared name f hf
    · exact Function.keeps_edit (stays_injectGuards overflow _ _ _) (hdeclared name f hf) hpass
  · exact (Stateful.Ends.update _).bind fun _ _ => .answer hr.consistent

end Program

variable {R : Fatal → Prop}

namespace Program

variable {p q : Program} {c : Configuration}

def Allows (p : Program) (name : String) (o : Operation) : Prop :=
  o.derives = true → ∃ f ∈ p.function? name, f.Performs o

theorem Consistent.allows (hp : p.Consistent) : p.Coded p.Allows := fun _ f hf body hbody =>
  { toConsistent := hp f (Table.mem_values_of_get? hf) body hbody
    code := fun _ _ hb _ hi _ =>
      ⟨f, hf, _, Function.located_of_mem (Function.mem_blocks hbody hb) hi, rfl⟩ }

theorem admits_allows (p : Program) : Admits p.Allows where
  phis _ _ _ h := by cases h
  casts _ _ kind _ hkind h := by
    cases kind with
    | bitcast => exact absurd rfl hkind
    | _ => cases h
  calls _ _ _ h := by cases h

/-- A circle in a program that only code like that of another was added to is a circle in the other. -/
theorem Coded.circular (hq : q.Coded p.Allows) {f : Function} (hf : f ∈ q.functions.values) (h : f.Circular) :
    p.Circular := by
  obtain ⟨name, hname⟩ := Table.mem_values_iff.mp hf
  have allowed : ∀ o, f.Performs o → p.Allows name o := fun o => Function.of_performs (hq name f hname)
  obtain ⟨o, ho, hperforms⟩ := h.exists_performs
  obtain ⟨g, hg, -⟩ := allowed o hperforms ho
  refine ⟨g, Table.mem_values_of_get? hg, h.mono fun o ho hperforms => ?_⟩
  obtain ⟨g', hg', hperforms⟩ := allowed o hperforms ho
  cases hg.symm.trans hg'
  exact hperforms

theorem ends_verifyResult (consistent : p.Consistent) : Stateful.Ends R (fun _ => True) p.verifyResult := by
  unfold verifyResult
  split
  · exact (Stateful.Ends.update _).bind fun _ _ => .raise _
  · exact .lift (stops_verify consistent) fun _ _ => trivial

/-- All passes come to an end, unless a counter or a size overflows or a value derives from itself. -/
theorem ends_instrument (overflow : R .overflow) (circles : p.Circular → R .unbounded) (hp : p.Consistent) :
    Stateful.Ends R (fun r => r.2.Consistent) (p.instrument c) := by
  have hpasses : Stateful.Ends R (fun r => r.2.Consistent) (do
      let simplified ← (p.declareHooks c.hooks).simplifyLoops c
      let reported ← simplified.2.reportAllocations c
      let guarded ← reported.2.placeGuards c
      if c.verification then guarded.2.verifyResult
      let report : InstrumentationReport := ⟨simplified.1, reported.1, guarded.1⟩
      Logged.write .info (report.summary guarded.2)
      return (report, guarded.2)) := by
    have hdeclared := hp.allows.declareHooks c.hooks
    refine (Stateful.Ends.lift (Q := fun r => r.2.Coded p.Allows) (stops_simplifyLoops overflow p.admits_allows hdeclared)
      fun r hr => coded_simplifyLoops overflow p.admits_allows hdeclared hr).bind fun r hr => ?_
    refine (ends_reportAllocations overflow p.admits_allows hr).bind fun r' hr' => ?_
    refine (ends_placeGuards overflow hr'.consistent ?_).bind fun r'' hr'' => ?_
    · rintro ⟨f, known, hf⟩
      have hcoded := hr'.declareHooks c.hooks
      have numbered := fun body hbody => (hcoded.consistent f.function known.listed body hbody).numbered
      exact circles (hcoded.circular known.listed (FunctionFacts.circular_function known.facts numbered hf))
    · obtain ⟨guards, q⟩ := r''
      have hreport : ∀ report : InstrumentationReport, Stateful.Ends R (fun r => r.2.Consistent) (do
          Logged.write .info (report.summary q)
          return (report, q)) := fun report => (Stateful.Ends.update _).bind fun _ _ => .answer hr''
      exact .branch (fun _ => (ends_verifyResult hr'').bind fun _ _ => hreport _) fun _ => hreport _
  refine .branch (fun _ => ?_) fun _ => hpasses
  exact (Stateful.Ends.lift (Q := fun _ => True) (stops_verify hp) fun _ _ => trivial).bind fun _ _ => hpasses

end Program

end RegionGuard

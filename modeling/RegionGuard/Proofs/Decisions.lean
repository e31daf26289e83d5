import RegionGuard.Guard.Placement
import RegionGuard.Proofs.Outcomes
set_option autoImplicit false

namespace RegionGuard

namespace Placer

variable {p : Placer} {a : MemoryAccess} {rule : GuardRule} {placement : GuardPlacement} {shape : GuardShape}

theorem ruling_cases (h : p.ruling a = .ok (rule, placement, shape)) :
    (∃ reason, rule = .redundant reason ∧ placement = .omitted ∧ shape = .single) ∨
      p.safety.configuration.optimizeGuards ∧ p.hoist? a = .ok (some (rule, placement, shape)) ∨
        rule = .fallback ∧ placement = .before a.location ∧ shape = .single := by
  unfold ruling at h
  split at h
  · cases h
    exact .inl ⟨_, rfl, rfl, rfl⟩
  · obtain ⟨reason?, hreason, h⟩ := bind_eq_ok.mp h
    cases reason? with
    | some reason =>
      cases h
      exact .inl ⟨_, rfl, rfl, rfl⟩
    | none =>
      simp only at h
      split at h
      · rename_i hoptimize
        obtain ⟨hoisted?, hhoist, h⟩ := bind_eq_ok.mp h
        cases hoisted? with
        | some hoisted =>
          cases h
          exact .inr (.inl ⟨hoptimize, hhoist⟩)
        | none =>
          cases h
          exact .inr (.inr ⟨rfl, rfl, rfl⟩)
      · cases h
        exact .inr (.inr ⟨rfl, rfl, rfl⟩)

theorem decide_ok {d : GuardDecision} (h : p.decide a = .ok d) :
    d.function = p.facts.function.name ∧ d.location = a.location ∧ d.pointer = a.pointer ∧
      d.access = a.access ∧ p.ruling a = .ok (d.rule, d.placement, d.shape) := by
  obtain ⟨⟨rule, placement, shape⟩, hruling, h⟩ := bind_eq_ok.mp h
  cases h
  exact ⟨rfl, rfl, rfl, rfl, hruling⟩

end Placer

namespace MemoryAccess

variable {p : Program} {c : Configuration} {f : Function} {a : MemoryAccess}

theorem mem_ofFunction (h : a ∈ ofFunction p c f) :
    ∃ i, (a.location, i) ∈ f.located ∧ i.isInjected = false ∧
      (a.pointer, a.access) ∈ ofOperation p c i.operation := by
  obtain ⟨⟨l, i⟩, hi, h⟩ := List.mem_flatMap.mp h
  simp only at h
  split at h
  · cases h
  · rename_i hn
    obtain ⟨⟨pointer, access⟩, hmem, rfl⟩ := List.mem_map.mp h
    rw [Bool.or_eq_true, not_or, Bool.not_eq_true] at hn
    exact ⟨i, hi, hn.1, hmem⟩

theorem ofOperation_pointer {o : Operation} {v : Value} (ho : o.pointer? = some v) :
    ofOperation p c o = [(v, .ofIsWrite o.isStore)] := by
  unfold Operation.pointer? at ho
  split at ho
  · cases ho
    rfl
  · cases ho
    rfl
  · cases ho

end MemoryAccess

theorem FunctionFacts.function_ofFunction {f : Function} {facts : FunctionFacts}
    (h : FunctionFacts.ofFunction f = .ok facts) : facts.function = f := by
  obtain ⟨defUse, hdefUse, h⟩ := bind_eq_ok.mp h
  obtain ⟨_, -, h⟩ := bind_eq_ok.mp h
  obtain ⟨_, -, h⟩ := bind_eq_ok.mp h
  cases h
  obtain ⟨_, -, hdefUse⟩ := bind_eq_ok.mp hdefUse
  obtain ⟨_, -, hdefUse⟩ := bind_eq_ok.mp hdefUse
  cases hdefUse
  rfl

namespace Safety

variable {s : Safety} {f : Function} {d : GuardDecision}

theorem exists_placer {decisions : List GuardDecision} (h : s.decideAccesses f = .ok decisions) (hd : d ∈ decisions) :
    ∃ facts custody body forest a, FunctionFacts.ofFunction f = .ok facts ∧ f.body = some body ∧
      LoopForest.ofGraph body = .ok forest ∧ a ∈ MemoryAccess.ofFunction s.program s.configuration f ∧
      Placer.decide ⟨s, facts, custody, forest⟩ a = .ok d := by
  unfold decideAccesses at h
  simp only at h
  split at h
  · cases h
    cases hd
  · obtain ⟨facts, hfacts, h⟩ := bind_eq_ok.mp h
    obtain ⟨custody, -, h⟩ := bind_eq_ok.mp h
    obtain ⟨body, hbody, h⟩ := bind_eq_ok.mp h
    obtain ⟨forest, hforest, h⟩ := bind_eq_ok.mp h
    obtain ⟨a, ha, hdecide⟩ := exists_of_mem_mapM h hd
    exact ⟨facts, custody, body, forest, a, hfacts, orRaise_eq_ok.mp hbody, hforest, ha, hdecide⟩

theorem mem_decideAccesses {decisions : List GuardDecision} (h : s.decideAccesses f = .ok decisions)
    (hd : d ∈ decisions) :
    ∃ (p : Placer) (a : MemoryAccess), p.safety = s ∧ p.facts.function = f ∧
      (∃ body, f.body = some body ∧ LoopForest.ofGraph body = .ok p.forest) ∧
      a ∈ MemoryAccess.ofFunction s.program s.configuration f ∧ p.decide a = .ok d := by
  obtain ⟨facts, custody, body, forest, a, hfacts, hbody, hforest, ha, hdecide⟩ := exists_placer h hd
  exact ⟨_, a, rfl, FunctionFacts.function_ofFunction hfacts, ⟨body, hbody, hforest⟩, ha, hdecide⟩

theorem exists_of_decideAccesses {decisions : List GuardDecision} (h : s.decideAccesses f = .ok decisions)
    {a : MemoryAccess} (ha : a ∈ MemoryAccess.ofFunction s.program s.configuration f) :
    ∃ d ∈ decisions, d.function = f.name ∧ d.location = a.location := by
  unfold decideAccesses at h
  simp only at h
  split at h
  · rename_i hempty
    rw [List.isEmpty_iff.mp hempty] at ha
    cases ha
  · obtain ⟨facts, hfacts, h⟩ := bind_eq_ok.mp h
    obtain ⟨custody, -, h⟩ := bind_eq_ok.mp h
    obtain ⟨c, hc, h⟩ := bind_eq_ok.mp h
    obtain ⟨forest, -, h⟩ := bind_eq_ok.mp h
    obtain ⟨d, hd, hdecided⟩ := exists_of_mapM_of_mem h ha
    obtain ⟨hfunction, hlocation, -⟩ := Placer.decide_ok hdecided
    rw [FunctionFacts.function_ofFunction hfacts] at hfunction
    exact ⟨d, hd, hfunction, hlocation⟩

end Safety

namespace Function

variable {p : Program} {c : Configuration} {f : Function} {d : StackGuardDecision}

theorem mem_decideStackGuards {ds : List StackGuardDecision} (h : f.decideStackGuards p c = .ok ds)
    (hd : d ∈ ds) :
    d.function = f.name ∧ ∀ l, d.placement = .beforeCall l →
      ∃ i, (l, i) ∈ f.located ∧ i.isInjected = false ∧ p.isEscaping c i.operation := by
  obtain ⟨body, -, h⟩ := bind_eq_ok.mp h
  obtain ⟨entry, -, h⟩ := bind_eq_ok.mp h
  simp only at h
  split at h
  · cases h
    cases hd
  · obtain ⟨frameSize, -, h⟩ := bind_eq_ok.mp h
    cases h
    obtain ⟨placement, hplacement, rfl⟩ := List.mem_map.mp hd
    refine ⟨rfl, fun l hl => ?_⟩
    simp only at hl
    subst hl
    split at hplacement
    · cases List.mem_singleton.mp hplacement
    · obtain ⟨l', hl', heq⟩ := List.mem_map.mp hplacement
      cases heq
      obtain ⟨⟨l', i⟩, hi, hcall⟩ := List.mem_filterMap.mp hl'
      simp only at hcall
      split at hcall
      · rename_i hescaping
        cases hcall
        rw [Bool.and_eq_true, Bool.not_eq_true'] at hescaping
        exact ⟨i, hi, hescaping⟩
      · cases hcall

theorem decideStackGuards_cases {ds : List StackGuardDecision} (h : f.decideStackGuards p c = .ok ds) :
    f.hasStackGuard = true ∨ f.escapingCalls p c = [] ∨ ds ≠ [] := by
  obtain ⟨body, -, h⟩ := bind_eq_ok.mp h
  obtain ⟨entry, -, h⟩ := bind_eq_ok.mp h
  simp only at h
  split at h
  · rename_i hnone
    rw [Bool.or_eq_true, List.isEmpty_iff] at hnone
    exact hnone.imp_right .inl
  · rename_i hsome
    rw [Bool.or_eq_true, not_or, List.isEmpty_iff] at hsome
    obtain ⟨frameSize, -, h⟩ := bind_eq_ok.mp h
    cases h
    refine .inr (.inr fun hnil => ?_)
    have hnil := List.map_eq_nil_iff.mp hnil
    split at hnil
    · cases hnil
    · exact hsome.2 (List.map_eq_nil_iff.mp hnil)

end Function

namespace Program

variable {p : Program} {c : Configuration} {r : GuardReport}

def decided (p : Program) (c : Configuration) (f : Function) :
    Outcome (List GuardDecision × List StackGuardDecision) := do
  let decisions ← if c.protection then Safety.decideAccesses ⟨p, .ofProgram p, c⟩ f else pure []
  let stackGuards ← if c.restriction then f.decideStackGuards p c else pure []
  return (decisions, stackGuards)

theorem decided_ok {f : Function} {ds : List GuardDecision} {sds : List StackGuardDecision}
    (h : p.decided c f = .ok (ds, sds)) :
    (if c.protection then Safety.decideAccesses ⟨p, .ofProgram p, c⟩ f else pure []) = .ok ds ∧
      (if c.restriction then f.decideStackGuards p c else pure []) = .ok sds := by
  have hrestriction : ∀ ds', (do
      let stackGuards ← if c.restriction then f.decideStackGuards p c else pure []
      return (ds', stackGuards) : Outcome _) = .ok (ds, sds) →
      ds' = ds ∧ (if c.restriction then f.decideStackGuards p c else pure []) = .ok sds := by
    intro ds' h
    simp only at h
    by_cases hc : c.restriction
    · rw [if_pos hc] at h ⊢
      obtain ⟨sds', hsds, hpure⟩ := bind_eq_ok.mp h
      cases hpure
      exact ⟨rfl, hsds⟩
    · rw [if_neg hc] at h ⊢
      cases h
      exact ⟨rfl, rfl⟩
  unfold decided at h
  simp only at h
  by_cases hc : c.protection
  · rw [if_pos hc] at h ⊢
    obtain ⟨ds', hds, hrest⟩ := bind_eq_ok.mp h
    obtain ⟨rfl, hsds⟩ := hrestriction ds' hrest
    exact ⟨hds, hsds⟩
  · rw [if_neg hc] at h ⊢
    obtain ⟨rfl, hsds⟩ := hrestriction [] h
    exact ⟨rfl, hsds⟩

theorem decideGuards_ok (h : p.decideGuards c = .ok r) :
    ∃ all, (p.functions.values.filter c.instruments).mapM (p.decided c) = .ok all ∧
      r = ⟨all.flatMap (·.1), all.flatMap (·.2), 0⟩ := by
  obtain ⟨all, hall, h⟩ := bind_eq_ok.mp h
  cases h
  exact ⟨all, hall, rfl⟩

theorem exists_of_decideGuards (h : p.decideGuards c = .ok r) {f : Function} (hf : f ∈ p.functions.values)
    (instrumented : c.instruments f) :
    ∃ ds sds, p.decided c f = .ok (ds, sds) ∧ ds ⊆ r.decisions ∧ sds ⊆ r.stackGuards := by
  obtain ⟨all, hall, rfl⟩ := decideGuards_ok h
  obtain ⟨⟨ds, sds⟩, hmem, hdecided⟩ := exists_of_mapM_of_mem hall (List.mem_filter.mpr ⟨hf, instrumented⟩)
  exact ⟨ds, sds, hdecided, fun d hd => List.mem_flatMap.mpr ⟨_, hmem, hd⟩, fun d hd => List.mem_flatMap.mpr ⟨_, hmem, hd⟩⟩

theorem exists_decideAccesses {d : GuardDecision} (h : p.decideGuards c = .ok r) (hd : d ∈ r.decisions) :
    ∃ f ∈ p.functions.values, c.instruments f ∧ ∃ ds, Safety.decideAccesses ⟨p, .ofProgram p, c⟩ f = .ok ds ∧ d ∈ ds := by
  obtain ⟨all, hall, rfl⟩ := decideGuards_ok h
  obtain ⟨⟨ds, sds⟩, hmem, hd⟩ := List.mem_flatMap.mp hd
  obtain ⟨f, hf, hdecided⟩ := exists_of_mem_mapM hall hmem
  obtain ⟨hvalue, hinstruments⟩ := List.mem_filter.mp hf
  obtain ⟨hds, -⟩ := decided_ok hdecided
  refine ⟨f, hvalue, hinstruments, ds, ?_, hd⟩
  split at hds
  · exact hds
  · cases hds
    cases hd

theorem mem_decisions {d : GuardDecision} (h : p.decideGuards c = .ok r) (hd : d ∈ r.decisions) :
    ∃ f ∈ p.functions.values, c.instruments f ∧ ∃ (x : Placer) (a : MemoryAccess),
      x.safety.configuration = c ∧ x.facts.function = f ∧
        (∃ body, f.body = some body ∧ LoopForest.ofGraph body = .ok x.forest) ∧
        a ∈ MemoryAccess.ofFunction p c f ∧ x.decide a = .ok d := by
  obtain ⟨f, hf, instrumented, ds, hds, hd⟩ := exists_decideAccesses h hd
  obtain ⟨x, a, hx, hfunction, hforest, ha, hd⟩ := Safety.mem_decideAccesses hds hd
  exact ⟨f, hf, instrumented, x, a, by rw [hx], hfunction, hforest, ha, hd⟩

theorem mem_stackGuards {d : StackGuardDecision} (h : p.decideGuards c = .ok r) (hd : d ∈ r.stackGuards) :
    ∃ f ∈ p.functions.values, d.function = f.name ∧ ∀ l, d.placement = .beforeCall l →
      ∃ i, (l, i) ∈ f.located ∧ i.isInjected = false ∧ p.isEscaping c i.operation := by
  obtain ⟨all, hall, rfl⟩ := decideGuards_ok h
  obtain ⟨⟨ds, sds⟩, hmem, hd⟩ := List.mem_flatMap.mp hd
  obtain ⟨f, hf, hdecided⟩ := exists_of_mem_mapM hall hmem
  obtain ⟨-, hsds⟩ := decided_ok hdecided
  split at hsds
  · obtain ⟨hfunction, hcalls⟩ := Function.mem_decideStackGuards hsds hd
    exact ⟨f, (List.mem_filter.mp hf).1, hfunction, hcalls⟩
  · cases hsds
    cases hd

end Program

end RegionGuard

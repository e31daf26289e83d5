import RegionGuard.Proofs.Repetition
import RegionGuard.Proofs.ShieldedAccesses
import RegionGuard.Proofs.Tallies
set_option autoImplicit false

namespace RegionGuard

open FlowGraph Stateful

/-- How many instructions of a program call an entry point for guards. -/
def Program.guardCalls (h : Hooks) (p : Program) : Nat := p.tally fun i => i.operation.callsGuard h

namespace FlowGraph

variable {h : Hooks}

theorem callsGuard_renameIncoming (old new : Nat) (i : Instruction) :
    (GuardDecision.renameIncoming old new i).operation.callsGuard h = i.operation.callsGuard h := by
  unfold GuardDecision.renameIncoming
  split
  · rename_i ho
    rw [ho]
    rfl
  · rfl

theorem tallied_guardCalls (h : Hooks) (before : Nat) :
    Tallied h 0 (fun _ _ => True) fun m c => c.Numbered ∧ c.tally (fun i => i.operation.callsGuard h) = before + m where
  start _ := trivial
  terminator _ := trivial
  bound _ _ _ := Nat.zero_le _
  temps _ _ _ _ hc := hc
  blocks _ c c' hc hv _ _ := by
    refine ⟨numbered_of_vertices hc.1 hv, ?_⟩
    unfold tally blocks
    rw [hv]
    exact hc.2
  newBlock _ c c' k hc hn := ⟨numbered_of_newBlock hc.1 hn, (tally_newBlock hn).trans hc.2⟩
  inject m c c' k position v tags operations hc _ _ hi := by
    refine ⟨indifferent_numbered.inject c c' k position v tags operations hc.1 hi, ?_⟩
    rw [tally_inject (n := operations.countP (·.callsGuard h)) (fun next => ?_) hi, hc.2, Nat.add_assoc]
    conv_rhs => rw [← Instruction.drafted_operations ((Tag.injected, v) :: tags) next operations]
    rw [List.countP_map]
    rfl
  guarded _ c c' l value h hg := by
    refine ⟨indifferent_numbered.guarded c c' l value h.1 hg, ?_⟩
    rw [← h.2]
    exact tally_modifyInstruction h.1 (fun i => by rw [Block.tagAt_operation]) hg
  renamed _ c c' k old new hc hr := by
    refine ⟨indifferent_numbered.renamed c c' k old new hc.1 hr, ?_⟩
    rw [← hc.2]
    refine tally_modifyBlock (n := 0) (fun b b' _ hb' => ?_) hr
    cases hb'
    rw [List.countP_map]
    exact List.countP_congr fun i _ => by simp only [Function.comp_def, callsGuard_renameIncoming]

end FlowGraph

theorem filter_flatMap_of_nodup {α β κ : Type} [DecidableEq κ] (key : α → κ) {tag : β → κ} {parts : α → List β}
    {l : List α} (tagged : ∀ a ∈ l, ∀ b ∈ parts a, tag b = key a) (distinct : (l.map key).Nodup) {a : α}
    (ha : a ∈ l) :
    (l.flatMap parts).filter (fun b => decide (tag b = key a)) = parts a := by
  induction l with
  | nil => cases ha
  | cons x rest ih =>
    rw [List.map_cons, List.nodup_cons] at distinct
    rw [List.flatMap_cons, List.filter_append]
    have hrest : ∀ y ∈ rest, ∀ b ∈ parts y, tag b = key y := fun y hy => tagged y (List.mem_cons_of_mem _ hy)
    rcases List.mem_cons.mp ha with rfl | ha
    · have hself : (parts a).filter (fun b => decide (tag b = key a)) = parts a :=
        List.filter_eq_self.mpr fun b hb => decide_eq_true (tagged a List.mem_cons_self b hb)
      have hnone : (rest.flatMap parts).filter (fun b => decide (tag b = key a)) = [] := by
        refine List.filter_eq_nil_iff.mpr fun b hb hkey => ?_
        obtain ⟨y, hy, hb⟩ := List.mem_flatMap.mp hb
        rw [decide_eq_true_eq, hrest y hy b hb] at hkey
        exact distinct.1 (hkey ▸ List.mem_map_of_mem hy)
      rw [hself, hnone, List.append_nil]
    · have hnone : (parts x).filter (fun b => decide (tag b = key a)) = [] := by
        refine List.filter_eq_nil_iff.mpr fun b hb hkey => ?_
        rw [decide_eq_true_eq, tagged x List.mem_cons_self b hb] at hkey
        exact distinct.1 (hkey ▸ List.mem_map_of_mem ha)
      rw [hnone, List.nil_append, ih hrest distinct.2 ha]

def GuardDecision.site (d : GuardDecision) : MemoryAccess := ⟨d.location, d.pointer, d.access⟩

theorem Placer.sites_of_forall₂ {x : Placer} {accesses : List MemoryAccess} {ds : List GuardDecision}
    (h : List.Forall₂ (fun a d => x.decide a = .ok d) accesses ds) :
    ds.map GuardDecision.site = accesses ∧ ∀ d ∈ ds, d.function = x.facts.function.name := by
  induction h with
  | nil => exact ⟨rfl, fun d hd => (List.not_mem_nil hd).elim⟩
  | @cons a d _ _ hd _ ih =>
    obtain ⟨hfunction, hlocation, hpointer, haccess, -⟩ := decide_ok hd
    have hsite : d.site = a := by
      unfold GuardDecision.site
      rw [hlocation, hpointer, haccess]
    refine ⟨by rw [List.map_cons, ih.1, hsite], fun e he => ?_⟩
    rcases List.mem_cons.mp he with rfl | he
    · exact hfunction
    · exact ih.2 e he

theorem Safety.sites_decideAccesses {s : Safety} {f : Function} {ds : List GuardDecision}
    (h : s.decideAccesses f = .ok ds) :
    ds.map GuardDecision.site = MemoryAccess.ofFunction s.program s.configuration f ∧ ∀ d ∈ ds, d.function = f.name := by
  unfold decideAccesses at h
  simp only at h
  split at h
  · rename_i hempty
    cases h
    exact ⟨(List.isEmpty_iff.mp hempty).symm, fun d hd => (List.not_mem_nil hd).elim⟩
  · obtain ⟨facts, hfacts, h⟩ := bind_eq_ok.mp h
    obtain ⟨custody, -, h⟩ := bind_eq_ok.mp h
    obtain ⟨body, -, h⟩ := bind_eq_ok.mp h
    obtain ⟨forest, -, h⟩ := bind_eq_ok.mp h
    obtain ⟨hsites, hfunction⟩ := Placer.sites_of_forall₂ (mapM_eq_ok.mp h)
    exact ⟨hsites, fun d hd => (hfunction d hd).trans (congrArg Function.name (FunctionFacts.function_ofFunction hfacts))⟩

namespace MemoryAccess

variable {p : Program} {c : Configuration} {f : Function}

/-- The accesses at a location are those of its instruction, unless they are decided already. -/
theorem filter_ofFunction {body : FlowGraph} (hbody : f.body = some body) (numbered : body.Numbered) {l : Location}
    {i : Instruction} (hi : (l, i) ∈ f.located) (fresh : i.isInjected = false)
    (undecided : i.hasTag Tag.guarded = false) :
    (ofFunction p c f).filter (fun a => decide (a.location = l)) =
      (ofOperation p c i.operation).map fun e => ⟨l, e.1, e.2⟩ := by
  refine (filter_flatMap_of_nodup Prod.fst (fun e _ a ha => ?_)
    (Function.nodup_located hbody numbered) hi).trans ?_
  · simp only at ha
    split at ha
    · cases ha
    · obtain ⟨_, -, rfl⟩ := List.mem_map.mp ha
      rfl
  · simp only [fresh, undecided, Bool.or_self, Bool.false_eq_true, if_false]

end MemoryAccess

namespace Program

variable {p q : Program} {c : Configuration} {f g : Function} {r : GuardReport} {body : FlowGraph} {n : Nat}

theorem filter_decided {β : Type} (numbered : p.Numbered)
    {all : List (List GuardDecision × List StackGuardDecision)}
    (hall : (p.functions.values.filter c.instruments).mapM (p.decided c) = .ok all)
    (part : List GuardDecision × List StackGuardDecision → List β) (tag : β → String)
    (tagged : ∀ g x, p.decided c g = .ok x → ∀ d ∈ part x, tag d = g.name) {name : String}
    (hf : p.function? name = some f) (instrumented : c.instruments f) :
    ∃ x, p.decided c f = .ok x ∧ (all.flatMap part).filter (fun d => decide (tag d = f.name)) = part x := by
  -- What is decided for a function, as a function of it.
  let parts := fun g => part (((p.decided c g).toOption).getD ([], []))
  have hdecided : ∀ g ∈ p.functions.values.filter c.instruments, ∃ x, p.decided c g = .ok x ∧ parts g = part x := by
    intro g hg
    obtain ⟨x, -, hdecided⟩ := exists_of_mapM_of_mem hall hg
    exact ⟨x, hdecided, by simp only [parts, toOption_eq_some.mpr hdecided, Option.getD_some]⟩
  have hlist : all.flatMap part = (p.functions.values.filter c.instruments).flatMap parts := by
    have hforall := mapM_eq_ok.mp hall
    clear hall hdecided
    generalize p.functions.values.filter c.instruments = functions at hforall
    induction hforall with
    | nil => rfl
    | cons hg _ ih =>
      rw [List.flatMap_cons, List.flatMap_cons, ih]
      simp only [parts, toOption_eq_some.mpr hg, Option.getD_some]
  have distinct : ((p.functions.values.filter c.instruments).map Function.name).Nodup := by
    refine List.Nodup.sublist (List.filter_sublist.map _) ?_
    have hnames : p.functions.values.map Function.name = p.functions.keys := by
      unfold Table.values Table.keys
      rw [List.map_map]
      exact List.map_congr_left fun e he => (numbered e he).1
    rw [hnames]
    exact p.functions.nodup_keys
  have hmem := List.mem_filter.mpr ⟨Table.mem_values_of_get? hf, instrumented⟩
  obtain ⟨x, hx, hparts⟩ := hdecided f hmem
  refine ⟨x, hx, ?_⟩
  rw [hlist, filter_flatMap_of_nodup Function.name (fun g hg d hd => ?_) distinct hmem, hparts]
  obtain ⟨y, hy, heq⟩ := hdecided g hg
  exact tagged g y hy d (heq ▸ hd)

theorem sites_decisions (numbered : p.Numbered) (protection : c.protection) (hr : p.decideGuards c = .ok r)
    {name : String} (hf : p.function? name = some f) (instrumented : c.instruments f) :
    (r.decisions.filter (·.function = f.name)).map GuardDecision.site = MemoryAccess.ofFunction p c f := by
  obtain ⟨all, hall, rfl⟩ := decideGuards_ok hr
  have hsites : ∀ g x, p.decided c g = .ok x →
      x.1.map GuardDecision.site = MemoryAccess.ofFunction p c g ∧ ∀ d ∈ x.1, d.function = g.name := by
    intro g x hx
    obtain ⟨haccesses, -⟩ := decided_ok hx
    rw [if_pos protection] at haccesses
    exact Safety.sites_decideAccesses haccesses
  obtain ⟨x, hx, hfilter⟩ := filter_decided numbered hall (·.1) GuardDecision.function
    (fun g x hx => (hsites g x hx).2) hf instrumented
  rw [hfilter]
  exact (hsites f x hx).1

theorem filter_stackGuards (numbered : p.Numbered) (restriction : c.restriction) (hr : p.decideGuards c = .ok r)
    {name : String} (hf : p.function? name = some f) (instrumented : c.instruments f) :
    f.decideStackGuards p c = .ok (r.stackGuards.filter (·.function = f.name)) := by
  obtain ⟨all, hall, rfl⟩ := decideGuards_ok hr
  have hstack : ∀ g x, p.decided c g = .ok x → g.decideStackGuards p c = .ok x.2 := by
    intro g x hx
    obtain ⟨-, hstack⟩ := decided_ok hx
    rwa [if_pos restriction] at hstack
  obtain ⟨x, hx, hfilter⟩ := filter_decided numbered hall (·.2) StackGuardDecision.function
    (fun g x hx d hd => (Function.mem_decideStackGuards (hstack g x hx) hd).1) hf instrumented
  rw [hfilter]
  exact hstack f x hx

theorem isAbout_of_mem (numbered : p.Numbered) (hr : p.decideGuards c = .ok r) {name : String}
    (hf : p.function? name = some f) (hbody : f.body = some body) {d : GuardDecision} (hd : d ∈ r.decisions)
    (hsame : d.function = f.name) :
    d.IsAbout body ∧ ∃ i, (d.location, i) ∈ f.located ∧ i.isInjected = false ∧ i.operation.isPhi = false ∧
      (d.pointer, d.access) ∈ MemoryAccess.ofOperation p c i.operation := by
  have numberedBody := (numbered_iff.mp numbered _ f hf).2 body hbody
  obtain ⟨⟨f', hf', hdecides, -⟩, hbefore⟩ := decides_of_mem hr hd
  obtain rfl := eq_of_name numbered hf hf' (hdecides.function.symm.trans hsame)
  obtain ⟨a, ha, hlocation, hpointer, haccess⟩ := hdecides.access
  obtain ⟨i, hi, hinjected, hmem⟩ := MemoryAccess.mem_ofFunction ha
  rw [← hlocation] at hi
  rw [← hpointer, ← haccess] at hmem
  have notPhi := (MemoryAccess.mem_reads hmem).2
  obtain ⟨b, hb, hib, hindex⟩ := (Function.located_iff hbody numberedBody.addressable).mp hi
  exact ⟨⟨⟨i.operation, notPhi, b, hb, i, hib, hindex, rfl, hinjected⟩, hbefore⟩, i, hi, hinjected, notPhi, hmem⟩

end Program

theorem Placer.placement_of_fallback {x : Placer} {a : MemoryAccess} {d : GuardDecision} (h : x.decide a = .ok d)
    (hrule : d.rule = .fallback) : d.placement = .before d.location := by
  obtain ⟨-, hlocation, -, -, hruling⟩ := decide_ok h
  rcases ruling_cases hruling with ⟨reason, hredundant, -⟩ | ⟨-, hhoisted⟩ | ⟨-, hplacement, -⟩
  · rw [hrule] at hredundant
    cases hredundant
  · rcases (hoist?_ok hhoisted).1 with heq | heq
    · rw [hrule] at heq
      cases heq
    · rw [hrule] at heq
      cases heq
  · rw [hlocation]
    exact hplacement

namespace Program

variable {p q : Program} {c : Configuration} {f g : Function} {r : GuardReport} {body : FlowGraph} {n : Nat}

structure Receives (p : Program) (c : Configuration) (r : GuardReport) (f : Function) (n : Nat) (body body' : FlowGraph) :
    Prop where
  numbered : body'.Numbered
  spares : body.Spares body'
  settled : c.protection → c.instruments f → body'.Settled Tag.guarded (p.Accesses c)
  shields : ∀ d ∈ r.decisions, d.function = f.name → d.rule = .fallback → ∀ o, o.isPhi = false →
    body.Stands d.location o →
    body'.HasBlock d.location.block (Block.Shields c.hooks d.location.instruction o d.pointer d.access)
  tally : body'.tally (fun i => i.operation.callsGuard c.hooks) = body.tally (fun i => i.operation.callsGuard c.hooks) + n

theorem stands_of_mem_stackGuards (numbered : p.Numbered) (hr : p.decideGuards c = .ok r) {name : String}
    (hf : p.function? name = some f) (hbody : f.body = some body) {d : StackGuardDecision} (hd : d ∈ r.stackGuards)
    (hsame : d.function = f.name) {l : Location} (hl : d.placement = .beforeCall l) :
    ∃ o, o.isPhi = false ∧ body.Stands l o := by
  have numberedBody := (numbered_iff.mp numbered _ f hf).2 body hbody
  obtain ⟨f', hf', hfunction, hcalls⟩ := mem_stackGuards hr hd
  obtain rfl := eq_of_name numbered hf hf' (hfunction.symm.trans hsame)
  obtain ⟨i, hi, hinjected, hescaping⟩ := hcalls l hl
  obtain ⟨b, hb, hib, hindex⟩ := (Function.located_iff hbody numberedBody.addressable).mp hi
  refine ⟨i.operation, ?_, b, hb, i, hib, hindex, rfl, hinjected⟩
  cases ho : i.operation <;> rw [ho] at hescaping <;> first | rfl | cases hescaping

/-- What still holds after every step as long as code goes to seams, now with more guards, holds with the guards of a
function. -/
theorem tallied_guardFunction (numbered : p.Numbered) (hr : p.decideGuards c = .ok r) {name : String}
    (hf : p.function? name = some f) (hbody : f.body = some body) {k m : Nat} {T : Nat → FlowGraph → Prop}
    (hT : Tallied c.hooks k Block.IsSeam T) (hc : T m body) (hg : guardFunction c r f = .ok (n, g)) :
    ∃ body', g = { f with body := some body' } ∧ T (m + n) body' := by
  have numberedBody := (numbered_iff.mp numbered _ f hf).2 body hbody
  rcases Function.guardFunction_ok hg with ⟨hnone, -⟩ | ⟨body₁, count, middle, body', hbody₁, rfl, rfl, hall, hstack⟩
  · rw [hbody] at hnone
    cases hnone
  cases hbody.symm.trans hbody₁
  have hboth := hT.and (indifferent_spares body)
  have hmiddle := GuardDecision.tallied_injectAll hboth (fun d hd l hl m c₁ position b hc₁ hposition hb => ?_)
    ⟨hc, numberedBody, fun _ _ _ h => h⟩ hall
  · have hlast := StackGuardDecision.tallied_forM hboth (fun d hd m c₁ k position b hc₁ hplace hb => ?_) hmiddle hstack
    · exact ⟨body', rfl, Nat.add_assoc m count _ ▸ hlast.1⟩
    · obtain ⟨hd, hsame⟩ := List.mem_filter.mp hd
      exact StackGuardDecision.isSeam_of_place
        (fun l hl => stands_of_mem_stackGuards numbered hr hf hbody hd (of_decide_eq_true hsame) hl) hc₁.2.1 hc₁.2.2 hplace hb
  · obtain ⟨hd, hsame⟩ := List.mem_filter.mp hd
    exact GuardDecision.isSeam_of_isAbout (isAbout_of_mem numbered hr hf hbody hd (of_decide_eq_true hsame)).1 hc₁.2.1
      hc₁.2.2 hl hposition hb

theorem receives_of_guardFunction (numbered : p.Numbered) (hr : p.decideGuards c = .ok r) {name : String}
    (hf : p.function? name = some f) (hbody : f.body = some body) (hg : guardFunction c r f = .ok (n, g)) :
    ∃ body', g = { f with body := some body' } ∧ p.Receives c r f n body body' := by
  have numberedBody := (numbered_iff.mp numbered _ f hf).2 body hbody
  rcases Function.guardFunction_ok hg with ⟨hnone, -⟩ | ⟨body₁, m, middle, body', hbody₁, rfl, rfl, hall, hstack⟩
  · rw [hbody] at hnone
    cases hnone
  cases hbody.symm.trans hbody₁
  have habout : ∀ d ∈ r.decisions.filter (·.function = f.name), d.IsAbout body := fun d hd =>
    (isAbout_of_mem numbered hr hf hbody (List.mem_of_mem_filter hd)
      (of_decide_eq_true (List.mem_filter.mp hd).2)).1
  have hcalls : ∀ d ∈ r.stackGuards.filter (·.function = f.name), ∀ l, d.placement = .beforeCall l →
      ∃ o, o.isPhi = false ∧ body.Stands l o := fun d hd _ hl =>
    stands_of_mem_stackGuards numbered hr hf hbody (List.mem_of_mem_filter hd)
      (of_decide_eq_true (List.mem_filter.mp hd).2) hl
  have sparing := indifferent_spares body
  obtain ⟨numberedMiddle, sparesMiddle⟩ :=
    GuardDecision.indifferent_injectAll sparing ⟨numberedBody, fun _ _ _ h => h⟩ hall
  obtain ⟨numbered', spares'⟩ := StackGuardDecision.indifferent_forM sparing ⟨numberedMiddle, sparesMiddle⟩ hstack
  refine ⟨body', rfl, numbered', spares', fun protection instrumented =>
    settled_of_injections numbered hr hf instrumented protection hbody hall hstack, fun d hd hsame hrule o notPhi ho => ?_,
    ?_⟩
  · obtain ⟨_, _, _, x, a, _, _, _, _, hdecided⟩ := mem_decisions hr hd
    have hmiddle := GuardDecision.shields_of_injectAll habout numberedBody (fun _ _ _ h => h)
      (List.mem_filter.mpr ⟨hd, decide_eq_true hsame⟩) (Placer.placement_of_fallback hdecided hrule) notPhi ho hall
    exact (StackGuardDecision.tallied_forM (m := 0)
      (tallied_shields notPhi body c.hooks d.location d.pointer d.access)
      (fun s hs m c₁ k position b hc₁ hplace hb =>
        StackGuardDecision.isSeam_of_place (hcalls s hs) hc₁.2.1 hc₁.2.2 hplace hb)
      ⟨⟨numberedMiddle, hmiddle⟩, numberedMiddle, sparesMiddle⟩ hstack).1.2
  · have tallied := tallied_guardCalls c.hooks (body.tally fun i => i.operation.callsGuard c.hooks)
    have hmiddle := GuardDecision.tallied_injectAll (m := 0) tallied (fun _ _ _ _ _ _ _ _ _ _ _ => trivial)
      ⟨numberedBody, rfl⟩ hall
    rw [Nat.zero_add] at hmiddle
    exact (StackGuardDecision.tallied_forM tallied (fun _ _ _ _ _ _ _ _ _ _ => trivial) hmiddle hstack).2

theorem guardCalls_editFunctions (numbered : p.Numbered) (hr : p.decideGuards c = .ok r) {counts : List Nat}
    (hedit : p.editFunctions (guardFunction c r) = .ok (counts, q)) :
    q.guardCalls c.hooks = p.guardCalls c.hooks + counts.foldl (· + ·) 0 := by
  rw [← List.sum_eq_foldl_nat]
  have hsum := sum_editFunctions (w := (·.tally fun i => i.operation.callsGuard c.hooks)) (n := id)
    (fun name f a g hf hg => ?_) hedit
  · rw [List.map_id] at hsum
    exact hsum
  · cases hbody : f.body with
    | none =>
      rcases Function.guardFunction_ok hg with ⟨-, rfl, rfl⟩ | ⟨_, _, _, _, hsome, -⟩
      · rfl
      · rw [hbody] at hsome
        cases hsome
    | some body =>
      obtain ⟨body', rfl, receives⟩ := receives_of_guardFunction numbered hr hf hbody hg
      rw [Function.tally_of_body hbody, Function.tally_of_body rfl, receives.tally]
      rfl

theorem isEscaping_declareHooks (p : Program) (c : Configuration) (h : Hooks) :
    (p.declareHooks h).isEscaping c = p.isEscaping c := by
  refine isEscaping_congr fun name => ?_
  unfold hasBody
  cases hf : (p.declareHooks h).function? name with
  | none =>
    cases hp : p.function? name with
    | none => rfl
    | some f =>
      have hkept := (function?_declareHooks p h).1 name (by rw [hp]; rfl)
      rw [hf, hp] at hkept
      cases hkept
  | some f =>
    rcases (declareHooks_bodies p h fun _ => false).1 name f hf with hp | ⟨hp, hbody⟩
    · rw [hp]
    · rw [hp]
      simp only [Function.isDeclaration, hbody, Option.isNone_none, Bool.not_true]

theorem ofOperation_declareHooks (p : Program) (c : Configuration) (h : Hooks) :
    MemoryAccess.ofOperation (p.declareHooks h) c = MemoryAccess.ofOperation p c := by
  funext o
  unfold MemoryAccess.ofOperation
  rw [isEscaping_declareHooks]

/-- The accesses that an operation makes. A load reads through its pointer, and a store writes through its own. A call
of code out of sight may write through every pointer that it hands over, and if it goes through a pointer, reads that. -/
inductive Makes (p : Program) (c : Configuration) : Operation → List (Value × Access) → Prop
  | load {dst : Variable} {pointer : Value} : Makes p c (.load dst pointer) [(pointer, .read)]
  | store {pointer value : Value} : Makes p c (.store pointer value) [(pointer, .write)]
  | direct {dst : Option Variable} {callee : String} {arguments : List Value} :
      (∀ f, p.function? callee = some f → f.body = none) → c.isKnownFunction callee = false →
        Makes p c (.call dst (.direct callee) arguments) ((arguments.filter (·.isPointer)).map fun v => (v, .write))
  | indirect {dst : Option Variable} {target : Value} {arguments : List Value} :
      Makes p c (.call dst (.indirect target) arguments)
        ((target, .read) :: (arguments.filter (·.isPointer)).map fun v => (v, .write))

theorem hasBody_eq_false {name : String} :
    p.hasBody name = false ↔ ∀ f, p.function? name = some f → f.body = none := by
  unfold hasBody
  cases p.function? name with
  | none => simp
  | some f => simp [Function.isDeclaration]

theorem Makes.eq {o : Operation} {accesses : List (Value × Access)} (h : p.Makes c o accesses) :
    MemoryAccess.ofOperation p c o = accesses := by
  cases h with
  | load => rfl
  | store => rfl
  | direct unseen unknown => simp [MemoryAccess.ofOperation, isEscaping, hasBody_eq_false.mpr unseen, unknown]
  | indirect => rfl

theorem makes_of_mem {o : Operation} {v : Value} {a : Access} (h : (v, a) ∈ MemoryAccess.ofOperation p c o) :
    ∃ accesses, p.Makes c o accesses ∧ (v, a) ∈ accesses := by
  refine ⟨MemoryAccess.ofOperation p c o, ?_, h⟩
  cases o with
  | load => exact .load
  | store => exact .store
  | call dst target arguments =>
    cases target with
    | indirect => exact .indirect
    | direct callee =>
      unfold MemoryAccess.ofOperation at h ⊢
      simp only at h ⊢
      split at h
      · rename_i escaping
        obtain ⟨unseen, unknown⟩ := Bool.and_eq_true_iff.mp escaping
        rw [if_pos escaping]
        exact .direct (hasBody_eq_false.mp (by simpa using unseen)) (by simpa using unknown)
      · cases h
  | _ => cases h

theorem exists_body_of_instruments {f : Function} (instrumented : c.instruments f) : ∃ body, f.body = some body := by
  unfold Configuration.instruments at instrumented
  rw [Bool.and_eq_true, Bool.not_eq_true'] at instrumented
  exact Option.isSome_iff_exists.mp (Option.isNone_eq_false_iff.mp instrumented.1)

section Placed

variable {counts : List Nat} (numbered : p.Numbered) (hr : p.decideGuards c = .ok r)
  (hedit : p.editFunctions (guardFunction c r) = .ok (counts, q))

include numbered hr hedit

theorem decided_of_placed (protection : c.protection) {name : String} (hf : p.function? name = some f)
    (instrumented : c.instruments f) {l : Location} {i : Instruction} (hi : (l, i) ∈ f.located)
    (fresh : i.isInjected = false) (undecided : i.hasTag Tag.guarded = false)
    (haccesses : p.Accesses c i.operation) :
    (r.decisions.filter fun d => d.function = f.name ∧ d.location = l).map (fun d => (d.pointer, d.access)) =
        MemoryAccess.ofOperation p c i.operation ∧
      ∃ g j, q.function? name = some g ∧ (l, j) ∈ g.located ∧ j.operation = i.operation ∧ j.hasTag Tag.guarded := by
  obtain ⟨body, hbody⟩ := exists_body_of_instruments instrumented
  have numberedBody := (numbered_iff.mp numbered _ f hf).2 body hbody
  constructor
  · have hlocal := MemoryAccess.filter_ofFunction (p := p) (c := c) hbody numberedBody hi fresh undecided
    rw [← sites_decisions numbered protection hr hf instrumented, List.filter_map] at hlocal
    have hboth : (r.decisions.filter fun d => d.function = f.name ∧ d.location = l) =
        (r.decisions.filter (·.function = f.name)).filter (fun d => decide (d.site.location = l)) := by
      rw [List.filter_filter]
      refine List.filter_congr fun d _ => ?_
      rw [Bool.decide_and, Bool.and_comm]
      rfl
    have hpairs := congrArg (List.map fun a : MemoryAccess => (a.pointer, a.access)) hlocal
    rw [List.map_map, List.map_map] at hpairs
    rw [hboth]
    exact hpairs.trans (List.map_id _)
  · obtain ⟨n, g, hg, hq⟩ := ((editFunctions_ok hedit).2 name).2 f hf
    obtain ⟨body', rfl, receives⟩ := receives_of_guardFunction numbered hr hf hbody hg
    have notPhi : i.operation.isPhi = false := by
      cases ho : i.operation with
      | phi dst incoming =>
        rw [ho] at haccesses
        exact absurd haccesses (not_accesses_phi dst incoming)
      | _ => rfl
    obtain ⟨b, hb, hib, hindex⟩ := (Function.located_iff hbody numberedBody.addressable).mp hi
    obtain ⟨b', hb', j, hj, hj', hjo, hjn⟩ :=
      receives.spares l i.operation notPhi ⟨b, hb, i, hib, hindex, rfl, fresh⟩
    refine ⟨_, j, hq, (Function.located_iff rfl receives.numbered.addressable).mpr ⟨b', hb', hj, hj'⟩, hjo, ?_⟩
    -- What was not injected and is not due any more carries the mark.
    by_contra hnot
    exact receives.settled protection instrumented l.block b' hb' j hj
      ⟨hjn, Bool.eq_false_iff.mpr hnot, by rw [hjo]; exact haccesses⟩

theorem shielded_of_placed {d : GuardDecision} (hd : d ∈ r.decisions) (hrule : d.rule = .fallback) :
    ∃ f i g body body', p.function? d.function = some f ∧ f.body = some body ∧ (d.location, i) ∈ f.located ∧
      (d.pointer, d.access) ∈ MemoryAccess.ofOperation p c i.operation ∧ q.function? d.function = some g ∧
      g.body = some body' ∧ body'.HasBlock d.location.block
        (Block.Shields c.hooks d.location.instruction i.operation d.pointer d.access) := by
  obtain ⟨⟨f, hf, hdecides, body, -, hbody, -⟩, -⟩ := decides_of_mem hr hd
  obtain ⟨name, hname⟩ := Table.mem_values_iff.mp hf
  have hsame : d.function = name := hdecides.function.trans (numbered_iff.mp numbered name f hname).1
  subst hsame
  have numberedBody := (numbered_iff.mp numbered _ f hname).2 body hbody
  obtain ⟨-, i, hi, hinjected, notPhi, hmem⟩ := isAbout_of_mem numbered hr hname hbody hd hdecides.function
  obtain ⟨b, hb, hib, hindex⟩ := (Function.located_iff hbody numberedBody.addressable).mp hi
  obtain ⟨n, g, hg, hq⟩ := ((editFunctions_ok hedit).2 d.function).2 f hname
  obtain ⟨body', rfl, receives⟩ := receives_of_guardFunction numbered hr hname hbody hg
  exact ⟨f, i, _, body, body', hname, hbody, hi, hmem, hq, rfl, receives.shields d hd hdecides.function hrule
    i.operation notPhi ⟨b, hb, i, hib, hindex, rfl, hinjected⟩⟩

end Placed

/-- Wherever guards are placed, each access of a function that may be changed was decided, once for each of its
pointers, and carries the mark; an access that is guarded in its own place stands behind a guard of exactly its pointer,
with injected code only in between; and the report says how many calls of the entry points for guards were added. -/
theorem placed_guards_cover_accesses (numbered : p.Numbered) (protection : c.protection = true) {log log' : List LogEntry}
    {report : GuardReport} (h : (p.placeGuards c).runFrom log = (.ok (report, q), log')) :
    (∀ f ∈ p.functions.values, c.instruments f → ∀ l i, (l, i) ∈ f.located → i.isInjected = false →
      i.hasTag Tag.guarded = false → ∀ accesses, p.Makes c i.operation accesses → accesses ≠ [] →
        (report.decisions.filter fun d => d.function = f.name ∧ d.location = l).map (fun d => (d.pointer, d.access)) =
          accesses ∧
        ∃ g j, q.function? f.name = some g ∧ (l, j) ∈ g.located ∧ j.operation = i.operation ∧ j.hasTag Tag.guarded) ∧
    (∀ d ∈ report.decisions, d.rule = .fallback → ∃ f i accesses g body, p.function? d.function = some f ∧
      (d.location, i) ∈ f.located ∧ p.Makes c i.operation accesses ∧ (d.pointer, d.access) ∈ accesses ∧
      q.function? d.function = some g ∧ g.body = some body ∧
      body.HasBlock d.location.block (Block.Shields c.hooks d.location.instruction i.operation d.pointer d.access)) ∧
    q.guardCalls c.hooks = p.guardCalls c.hooks + report.injected := by
  obtain ⟨r, counts, hr, hedit, hdecisions, -, hcount⟩ := placeGuards_ok h
  have declared := numbered_of_declareHooks numbered c.hooks
  obtain ⟨hbodies, hcalls⟩ := declareHooks_bodies p c.hooks fun i => i.operation.callsGuard c.hooks
  have hoperation := ofOperation_declareHooks p c c.hooks
  rw [hdecisions]
  refine ⟨fun f hf instrumented l i hi fresh undecided accesses makes some => ?_, fun d hd hrule => ?_, ?_⟩
  · obtain ⟨name, hname⟩ := Table.mem_values_iff.mp hf
    have hsame : f.name = name := (numbered_iff.mp numbered name f hname).1
    subst hsame
    have hdeclared := ((function?_declareHooks p c.hooks).1 f.name (Option.isSome_iff_exists.mpr ⟨f, hname⟩)).trans hname
    rw [← makes.eq, ← hoperation] at some ⊢
    exact decided_of_placed declared hr hedit protection hdeclared instrumented hi fresh undecided some
  · obtain ⟨f, i, g, body, body', hf, hbody, hi, hmem, hq, hbody', hshields⟩ :=
      shielded_of_placed declared hr hedit hd hrule
    have hold : p.function? d.function = some f := (hbodies d.function f hf).resolve_right fun ⟨_, hnone⟩ => by
      rw [hbody] at hnone
      cases hnone
    obtain ⟨accesses, makes, hmem⟩ := makes_of_mem (hoperation ▸ hmem)
    exact ⟨f, i, accesses, g, body', hold, hi, makes, hmem, hq, hbody', hshields⟩
  · rw [guardCalls_editFunctions declared hr hedit, hcount, guardCalls, hcalls]
    rfl

end Program

/-- A call hands two pointers on, a loop indexes one and reads through the other, and both are used behind it. -/
def handsOver : Program :=
  let word := fun name => (⟨name, .integer 64⟩ : Variable)
  let pointer := fun name => (⟨name, .pointer⟩ : Variable)
  let p := Value.argument ⟨0, "p", .pointer⟩
  let q := Value.argument ⟨1, "q", .pointer⟩
  let n := Value.argument ⟨2, "n", .integer 64⟩
  let again : Variable := ⟨"again", .integer 1⟩
  .ofFunctions [
    .ofCode "main" [⟨0, "p", .pointer⟩, ⟨1, "q", .pointer⟩, ⟨2, "n", .integer 64⟩]
      [[.alloca (pointer "slot") (.integer 64) (.ofWord 1 64),
        .call none (.direct "publish") [p, q]],
        [.phi (word "i") [(.ofWord 0 64, 0), (.variable (word "next"), 2)],
          .compare again .ult (.variable (word "i")) n],
        [.elementPtr (pointer "e") p (.integer 8) [.variable (word "i")] false,
          .store (.variable (pointer "e")) (.ofWord 7 8),
          .load ⟨"x", .integer 8⟩ q,
          .store (.variable (pointer "e")) (.ofWord 8 8),
          .binary (word "next") .add (.variable (word "i")) (.ofWord 1 64)],
        [.call none (.indirect q) [.variable (pointer "slot")],
          .ret none]]
      [(0, 1, none), (1, 2, some (.isTrue (.variable again))), (1, 3, some (.isFalse (.variable again))), (2, 1, none)],
    .declaration "publish" [⟨0, "p", .pointer⟩, ⟨1, "q", .pointer⟩] .void]

/-- Two guards land in front of one call, behind a guard of the stack, and a range brings its own blocks. -/
theorem placed_guards_cover_handsOver :
    ∃ report q log, handsOver.Numbered ∧ Configuration.default.protection = true ∧
      (handsOver.placeGuards .default).runFrom [] = (.ok (report, q), log) ∧
      (report.count .fallback = 3 ∧ report.count .inductionHoist = 1 ∧ report.count .invariantHoist = 1 ∧
        report.stackGuards.length = 1 ∧ report.injected = 7) ∧
      q.guardCalls .default = 7 ∧
      (∃ i g body, q.function? "main" = some g ∧ g.body = some body ∧
        body.HasBlock 0 (Block.Shields .default 1 i (.argument ⟨0, "p", .pointer⟩) .write)) ∧
      ∃ g j, q.function? "main" = some g ∧ (⟨2, 3⟩, j) ∈ g.located ∧ j.hasTag Tag.guarded := by
  have numbered : handsOver.Numbered := by decide +kernel
  have hplaced : ((handsOver.placeGuards .default).runFrom []).1.toOption.any fun answer =>
      (answer.1.count .fallback = 3 ∧ answer.1.count .inductionHoist = 1 ∧ answer.1.count .invariantHoist = 1 ∧
        answer.1.stackGuards.length = 1 ∧ answer.1.injected = 7) ∧
      ∃ d ∈ answer.1.decisions, d.rule = .fallback ∧ d.function = "main" ∧ d.location = ⟨0, 1⟩ ∧
        d.pointer = .argument ⟨0, "p", .pointer⟩ ∧ d.access = .write := by
    decide +kernel
  have hstore : (handsOver.function? "main").any fun f => Configuration.default.instruments f = true ∧ f.name = "main" ∧
      ∃ e ∈ f.located, e.1 = ⟨2, 3⟩ ∧ e.2.isInjected = false ∧ e.2.hasTag Tag.guarded = false ∧
        e.2.operation = .store (.variable ⟨"e", .pointer⟩) (.ofWord 8 8) := by
    decide +kernel
  have hcalls : handsOver.guardCalls .default = 0 := by decide +kernel
  obtain ⟨⟨report, q⟩, log, hrun, hreport⟩ := Stateful.exists_of_any hplaced
  obtain ⟨hcounts, d, hd, hrule, hfunction, hlocation, hpointer, haccess⟩ := of_decide_eq_true hreport
  obtain ⟨f, hf, hmain⟩ := (Option.any_eq_true ..).mp hstore
  obtain ⟨instrumented, hname, ⟨l, i⟩, hi, rfl, fresh, undecided, hstores⟩ := of_decide_eq_true hmain
  obtain ⟨decided, shielded, added⟩ := Program.placed_guards_cover_accesses numbered rfl hrun
  refine ⟨report, q, log, numbered, rfl, hrun, hcounts, ?_, ?_, ?_⟩
  · have hadded : q.guardCalls .default = handsOver.guardCalls .default + report.injected := added
    rw [hadded, hcalls, hcounts.2.2.2.2]
  · obtain ⟨f, i, accesses, g, body, -, -, -, -, hg, hbody, hshields⟩ := shielded d hd hrule
    rw [hfunction] at hg
    rw [hlocation, hpointer, haccess] at hshields
    exact ⟨i.operation, g, body, hg, hbody, hshields⟩
  · have makes : handsOver.Makes .default i.operation [(.variable ⟨"e", .pointer⟩, .write)] := by
      rw [show i.operation = _ from hstores]
      exact .store
    obtain ⟨-, g, j, hg, hj, -, htag⟩ :=
      decided f (Table.mem_values_of_get? hf) instrumented _ i hi fresh undecided _ makes (List.cons_ne_nil _ _)
    rw [hname] at hg
    exact ⟨g, j, hg, hj, htag⟩

def loadsUnder (numbers : List Nat) : Program :=
  let p : Argument := ⟨0, "p", .pointer⟩
  let q : Argument := ⟨1, "q", .pointer⟩
  .ofFunctions [(Function.ofCode "main" [p, q]
    [[.load ⟨"a", .integer 64⟩ (.argument p), .load ⟨"b", .integer 64⟩ (.argument q)]] []).renumber 0 numbers]

def Function.guardedCode (f : Function) : List (Operation × Bool × Bool) :=
  f.located.map fun e => (e.2.operation, e.2.isInjected, e.2.hasTag Tag.guarded)

/-- The load of `q` is neither marked nor behind the guard that is decided for it, which ends up in the code in another
place. -/
def LeavesLoad (p : Program) (l : Location) (code : List (Operation × Bool × Bool)) : Prop :=
  ∃ report q log f i d g, p.Built ∧ p.verify = .ok () ∧
    (p.placeGuards .default).runFrom [] = (.ok (report, q), log) ∧
    p.function? "main" = some f ∧ Configuration.default.instruments f = true ∧
    (l, i) ∈ f.located ∧ i.operation = .load ⟨"b", .integer 64⟩ (.argument ⟨1, "q", .pointer⟩) ∧
    i.isInjected = false ∧ i.hasTag Tag.guarded = false ∧
    d ∈ report.decisions ∧ d.rule = .fallback ∧ d.location = l ∧ d.pointer = .argument ⟨1, "q", .pointer⟩ ∧
    q.function? "main" = some g ∧ g.guardedCode = code ∧
    ¬ ∃ j, (l, j) ∈ g.located ∧ j.operation = i.operation ∧ j.hasTag Tag.guarded = true

theorem leavesLoad_loadsUnder {numbers : List Nat} {l : Location} {code : List (Operation × Bool × Bool)}
    (verified : (loadsUnder numbers).verify = .ok ())
    (hload : ((loadsUnder numbers).function? "main").any fun f => Configuration.default.instruments f = true ∧
      ∃ e ∈ f.located, e.1 = l ∧ e.2.operation = .load ⟨"b", .integer 64⟩ (.argument ⟨1, "q", .pointer⟩) ∧
        e.2.isInjected = false ∧ e.2.hasTag Tag.guarded = false)
    (hplaced : (((loadsUnder numbers).placeGuards .default).runFrom []).1.toOption.any fun answer =>
      (∃ d ∈ answer.1.decisions, d.rule = .fallback ∧ d.location = l ∧ d.pointer = .argument ⟨1, "q", .pointer⟩) ∧
        ∃ g ∈ answer.2.function? "main", g.guardedCode = code)
    (unmarked : ∀ injected, (.load ⟨"b", .integer 64⟩ (.argument ⟨1, "q", .pointer⟩), injected, true) ∉ code) :
    LeavesLoad (loadsUnder numbers) l code := by
  obtain ⟨f, hf, hload⟩ := (Option.any_eq_true ..).mp hload
  obtain ⟨instrumented, ⟨l, i⟩, hi, rfl, hoperation, fresh, undecided⟩ := of_decide_eq_true hload
  obtain ⟨⟨report, q⟩, log, hrun, hplaced⟩ := Stateful.exists_of_any hplaced
  obtain ⟨⟨d, hd, hrule, hlocation, hpointer⟩, g, hg, hcode⟩ := of_decide_eq_true hplaced
  have built : (loadsUnder numbers).Built := Program.built_of_ofFunctions fun f hf => by
    cases List.mem_singleton.mp hf
    exact Function.built_renumber Function.built_of_ofCode 0 _
  refine ⟨report, q, log, f, i, d, g, built, verified, hrun, hf, instrumented, hi, hoperation, fresh, undecided, hd, hrule,
    hlocation, hpointer, hg, hcode, ?_⟩
  rintro ⟨j, hj, hsame, htag⟩
  have hmem : (j.operation, j.isInjected, j.hasTag Tag.guarded) ∈ g.guardedCode :=
    List.mem_map.mpr ⟨_, hj, rfl⟩
  rw [hcode, hsame, show i.operation = _ from hoperation, htag] at hmem
  exact unmarked _ hmem

/-- Of two loads of one number only the first one is marked, and the guard that is decided for the second one stands in
front of the first. Where a load has the number that injected code gets, that code is marked and guarded in its place. -/
theorem second_load_unguarded :
    LeavesLoad (loadsUnder [0, 0]) ⟨0, 0⟩
      [(.cast (.temporary 0 (.integer 64)) .ptrToInt (.argument ⟨1, "q", .pointer⟩), true, false),
        (.notify "carat_guard_address" [.variable (.temporary 0 (.integer 64)), .ofWord 0 32], true, false),
        (.load ⟨"a", .integer 64⟩ (.argument ⟨0, "p", .pointer⟩), false, true),
        (.load ⟨"b", .integer 64⟩ (.argument ⟨1, "q", .pointer⟩), false, false)] ∧
    LeavesLoad (loadsUnder [0, 2]) ⟨0, 2⟩
      [(.cast (.temporary 1 (.integer 64)) .ptrToInt (.argument ⟨1, "q", .pointer⟩), true, false),
        (.notify "carat_guard_address" [.variable (.temporary 1 (.integer 64)), .ofWord 0 32], true, false),
        (.cast (.temporary 0 (.integer 64)) .ptrToInt (.argument ⟨0, "p", .pointer⟩), true, true),
        (.notify "carat_guard_address" [.variable (.temporary 0 (.integer 64)), .ofWord 0 32], true, false),
        (.load ⟨"a", .integer 64⟩ (.argument ⟨0, "p", .pointer⟩), false, true),
        (.load ⟨"b", .integer 64⟩ (.argument ⟨1, "q", .pointer⟩), false, false)] :=
  ⟨leavesLoad_loadsUnder (by decide +kernel) (by decide +kernel) (by decide +kernel) (by simp),
    leavesLoad_loadsUnder (by decide +kernel) (by decide +kernel) (by decide +kernel) (by simp)⟩

end RegionGuard

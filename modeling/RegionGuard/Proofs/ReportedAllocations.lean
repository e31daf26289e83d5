import RegionGuard.Proofs.Repetition
import RegionGuard.Proofs.ReportedSites
set_option autoImplicit false

namespace RegionGuard

open FlowGraph Edit Instruction Stateful

namespace ReportSite

/-- What a site says of an operation: the result of an allocator, the first argument of a deallocator, or the cell that a
pointer is stored to. -/
inductive Describes (c : Configuration) : ReportSite → Operation → Prop where
  | allocation {kind : AllocatorKind} {dst : Variable} {callee : String} {arguments : List Value}
    (allocates : c.allocator? callee = some kind) :
    Describes c (.allocation kind dst arguments) (.call (some dst) (.direct callee) arguments)
  | free {dst : Option Variable} {callee : String} {pointer : Value} {arguments : List Value}
    (frees : c.isDeallocator callee = true) :
    Describes c (.free pointer) (.call dst (.direct callee) (pointer :: arguments))
  | escape {pointer value : Value} (escapes : value.isPointer = true) :
    Describes c (.escape pointer) (.store pointer value)

theorem ofInstruction_eq_some {c : Configuration} {i : Instruction} {s : ReportSite} (h : ofInstruction c i = some s) :
    i.isInjected = false ∧ i.hasTag Tag.tracked = false ∧ s.Describes c i.operation := by
  unfold ofInstruction at h
  split at h
  · cases h
  · rename_i hdealt
    rw [Bool.not_eq_true, Bool.or_eq_false_iff] at hdealt
    refine ⟨hdealt.1, hdealt.2, ?_⟩
    split at h
    · rename_i dst callee arguments ho
      rw [ho]
      unfold ofCall at h
      split at h
      · rename_i kind hkind
        split at h
        · obtain ⟨dst, rfl, rfl⟩ := Option.map_eq_some_iff.mp h
          exact .allocation hkind
        · cases h
      · split at h
        · rename_i hfrees
          obtain ⟨pointer, hpointer, rfl⟩ := Option.map_eq_some_iff.mp h
          obtain ⟨rest, rfl⟩ := List.head?_eq_some_iff.mp hpointer
          exact .free (Bool.and_eq_true_iff.mp hfrees).1
        · cases h
    · rename_i pointer value ho
      rw [ho]
      split at h
      · rename_i hescapes
        cases h
        exact .escape (Bool.and_eq_true_iff.mp hescapes).2
      · cases h
    · cases h

end ReportSite

/-- An instruction is what it was, or was marked as a site of which a new notification stands next to it. -/
def Instruction.IsReported (c : Configuration) (b b' : Block) (i j : Instruction) : Prop :=
  j = i ∨ i.isInjected = false ∧ i.hasTag Tag.tracked = false ∧ ∃ (s : ReportSite) (arguments : List Value),
    s.Describes c i.operation ∧ j = i.setTag Tag.tracked s.tag ∧
      s.Adjoins b i.index [.notify (s.hook c.hooks) (s.subject :: arguments)] b'

/-- A graph has the edges of another one, and its code with reports in between. -/
structure FlowGraph.Reports (c : Configuration) (body body' : FlowGraph) : Prop where
  framed : body.Framed body'
  blocks : ∀ k b, body.block k = .ok b → body'.HasBlock k fun b' => b.Gains (Instruction.IsReported c b b') b'

theorem FlowGraph.Reports.refl (c : Configuration) (body : FlowGraph) : body.Reports c body where
  framed := .refl body
  blocks _ b hb := ⟨b, hb, .refl fun _ _ => .inl rfl⟩

theorem FlowGraph.Reports.inject {c : Configuration} {body c₁ c₂ : FlowGraph} (h : body.Reports c c₁)
    (numbered : body.Numbered) {v : String} (hv : ∀ s : ReportSite, v ≠ s.tag) {k : Nat} {position : Block → Nat}
    {operations : List Operation}
    (hc : c₁.modifyBlock k (fun b => b.inject (position b) [(Tag.injected, v)] operations) = .ok c₂) :
    body.Reports c c₂ where
  framed := h.framed.trans (.modifyBlock hc)
  blocks j b hb := (h.blocks j b hb).modifyBlock hc fun b₁ b₂ _ hgains hb₂ => by
    refine (hgains.inject (numbered_iff.mp numbered j b hb).2 hb₂).mono fun i _ j hij => ?_
    rcases hij with rfl | ⟨own, unmarked, s, arguments, hs, rfl, hadjoins⟩
    · exact .inl rfl
    · exact .inr ⟨own, unmarked, s, arguments, hs, rfl, hadjoins.inject_quiet (hv s) hb₂⟩

structure AllocationReport.Counts (kind : String) (n : AllocationReport → Nat) : Prop where
  empty : n .empty = 0
  add : ∀ r r', n (r.add r') = n r + n r'
  counted : ∀ s : ReportSite, n s.counted = if s.tag = kind then 1 else 0

namespace AllocationReport

variable {kind : String} {n : AllocationReport → Nat}

theorem counts_allocations : Counts "allocation" allocations where
  empty := rfl
  add _ _ := rfl
  counted s := by cases s <;> simp [ReportSite.counted, ReportSite.tag]

theorem counts_frees : Counts "free" frees where
  empty := rfl
  add _ _ := rfl
  counted s := by cases s <;> simp [ReportSite.counted, ReportSite.tag]

theorem counts_escapes : Counts "escape" escapes where
  empty := rfl
  add _ _ := rfl
  counted s := by cases s <;> simp [ReportSite.counted, ReportSite.tag]

theorem counts_globals : Counts "global" globals where
  empty := rfl
  add _ _ := rfl
  counted s := by cases s <;> simp [ReportSite.counted, ReportSite.tag]

theorem counts_zero : Counts "global" fun _ => 0 where
  empty := rfl
  add _ _ := rfl
  counted s := by cases s <;> simp [ReportSite.tag]

theorem Counts.foldl {α : Type} (hn : Counts kind n) (part : α → AllocationReport) (l : List α) (r : AllocationReport) :
    n (l.foldl (fun r x => r.add (part x)) r) = n r + (l.map fun x => n (part x)).sum := by
  induction l generalizing r with
  | nil => rfl
  | cons x rest ih => rw [List.foldl_cons, ih, hn.add, List.map_cons, List.sum_cons, Nat.add_assoc]

end AllocationReport

namespace Function

variable {f g : Function} {c : Configuration} {body : FlowGraph} {r : AllocationReport}

theorem nodup_sites (hbody : f.body = some body) (numbered : body.Numbered) :
    ((ReportSite.ofFunction c f).map (·.1)).Nodup := by
  have distinct := nodup_located hbody numbered
  unfold ReportSite.ofFunction
  unfold List.Nodup at distinct ⊢
  rw [List.pairwise_map] at distinct ⊢
  refine List.pairwise_filterMap.mpr (distinct.imp fun {x y} hne e he e' he' => ?_)
  obtain ⟨_, -, rfl⟩ := Option.map_eq_some_iff.mp he
  obtain ⟨_, -, rfl⟩ := Option.map_eq_some_iff.mp he'
  exact hne

theorem mem_sites (hbody : f.body = some body) (numbered : body.Numbered) {l : Location} {s : ReportSite}
    (hs : (l, s) ∈ ReportSite.ofFunction c f) : ∃ b i, body.block l.block = .ok b ∧ i ∈ b.instructions ∧
      i.index = l.instruction ∧ ReportSite.ofInstruction c i = some s := by
  obtain ⟨⟨l', i⟩, hi, hs⟩ := List.mem_filterMap.mp hs
  obtain ⟨_, hs, heq⟩ := Option.map_eq_some_iff.mp hs
  cases heq
  obtain ⟨b, hb, hib, hindex⟩ := (located_iff hbody numbered.addressable).mp hi
  exact ⟨b, i, hb, hib, hindex, hs⟩

theorem reports_of_reportAllocations (hbody : f.body = some body) (numbered : body.Numbered)
    (hrun : f.reportAllocations c = .ok (r, g)) : ∃ body', g = { f with body := some body' } ∧ body'.Numbered ∧
      body.Reports c body' ∧ ∀ kind n, AllocationReport.Counts kind n →
        body'.tally (·.notifies kind) = body.tally (·.notifies kind) + n r ∧
        body'.tally (·.isTracked kind) = body.tally (·.isTracked kind) + n r := by
  obtain ⟨body₀, body', hbody₀, hedit, rfl⟩ := edit_ok hrun
  cases hbody.symm.trans hbody₀
  obtain ⟨_, body₁, hreports, hanswer⟩ := Edit.bind_ok.mp hedit
  obtain ⟨rfl, rfl⟩ := pure_ok.mp hanswer
  rw [Edit.forIn_eq_forM] at hreports
  let marked : Location → String → Prop := fun l v => ∃ s, (l, s) ∈ ReportSite.ofFunction c f ∧ v = s.tag
  have distinct := nodup_sites (c := c) hbody numbered
  have hsites : ∀ e ∈ ReportSite.ofFunction c f, marked e.1 e.2.tag ∧ ∃ o, body.Stands e.1 o := by
    intro e he
    obtain ⟨b, i, hb, hi, hindex, hs⟩ := mem_sites hbody numbered he
    exact ⟨⟨e.2, he, rfl⟩, i.operation, b, hb, i, hi, hindex, rfl, (ReportSite.ofInstruction_eq_some hs).1⟩
  have haugments := ReportSite.augments_reports (.refl numbered) numbered (fun e he => (hsites e he).1) hreports
  refine ⟨body₁, rfl, haugments.numbered, ⟨haugments.framed, fun k b hb => ?_⟩, fun kind n hn => ?_⟩
  · obtain ⟨b', hb', hgains⟩ := haugments.blocks k b hb
    refine ⟨b', hb', hgains.mono fun i hi j hij => ?_⟩
    rcases hij with rfl | ⟨_, ⟨s, hs, rfl⟩, rfl⟩
    · exact .inl rfl
    · obtain ⟨b₀, i₀, hb₀, hi₀, hindex, hsite⟩ := mem_sites hbody numbered hs
      cases hb.symm.trans hb₀
      obtain rfl := Block.eq_of_index_eq (numbered_iff.mp numbered k b hb).2.2 hi₀ hi hindex
      obtain ⟨own, unmarked, describes⟩ := ReportSite.ofInstruction_eq_some hsite
      obtain ⟨arguments, b₁, hb₁, hadjoins⟩ := ReportSite.adjoins_reports (.refl numbered) numbered hsites distinct hs hb
        ⟨b, hb, ReportSite.adjoins_nil hi own⟩ hreports
      cases hb'.symm.trans hb₁
      exact .inr ⟨own, unmarked, s, arguments, describes, rfl, hadjoins⟩
  · have hsum : ((ReportSite.ofFunction c f).map fun e => if e.2.tag = kind then 1 else 0).sum =
        n ((ReportSite.ofFunction c f).foldl (fun r s => r.add s.2.counted) .empty) := by
      rw [hn.foldl, hn.empty, Nat.zero_add]
      simp only [hn.counted]
    rw [← hsum]
    refine ⟨ReportSite.tally_reports numbered kind hreports,
      ReportSite.tally_isTracked_reports numbered distinct (fun e he => ?_) kind hreports⟩
    obtain ⟨b, i, hb, hi, hindex, hs⟩ := mem_sites hbody numbered he
    refine ⟨b, hb, fun j hj hj' => ?_⟩
    obtain rfl := Block.eq_of_index_eq (numbered_iff.mp numbered _ b hb).2.2 hi hj (hindex.trans hj'.symm)
    exact (ReportSite.ofInstruction_eq_some hs).2.1

end Function

/-- A function is the same, up to reports in its code. -/
def Function.Reports (c : Configuration) (f g : Function) : Prop :=
  g = { f with body := g.body } ∧ Option.Rel (FlowGraph.Reports c) f.body g.body

/-- A program has the globals and functions of another one, with reports in their code. Functions that it has besides
have no code. -/
structure Program.Reports (c : Configuration) (p q : Program) : Prop where
  globals : q.globals = p.globals
  functions : ∀ name f, p.function? name = some f → ∃ g, q.function? name = some g ∧ f.Reports c g
  declared : ∀ name g, q.function? name = some g → p.function? name = none → g.body = none

/-- At the start of a graph, behind phis only, the globals are registered in their order. -/
def FlowGraph.Registers (h : Hooks) (globals : List (String × Word)) (body body' : FlowGraph) : Prop :=
  ∃ entry b b' front new back, body.entry = some entry ∧ body.block entry = .ok b ∧ body'.block entry = .ok b' ∧
    b'.instructions = front ++ (new ++ back) ∧ (∀ i ∈ front, i.operation.isPhi = true) ∧
    (∀ i ∈ new, b.isNotified "global" i = true) ∧
    new.map (·.operation) = globals.mapIdx fun id e => GlobalVariable.registration h id e.1 e.2

theorem GlobalVariable.countP_registrations (h : Hooks) (globals : List (String × Word)) :
    (globals.mapIdx fun id e => GlobalVariable.registration h id e.1 e.2).countP (·.callee?.isSome) = globals.length := by
  have hall := List.countP_eq_length (p := fun o : Operation => o.callee?.isSome)
    (l := globals.mapIdx fun id e => GlobalVariable.registration h id e.1 e.2)
  rw [List.length_mapIdx] at hall
  refine hall.mpr fun o ho => ?_
  obtain ⟨id, hid, rfl⟩ := List.mem_mapIdx.mp ho
  rfl

theorem FlowGraph.Reports.registerIn {c : Configuration} {body c₁ c₂ : FlowGraph} (h : body.Reports c c₁)
    (made : body.Made) {globals : List (String × Word)} {n : Nat}
    (hrun : (Program.registerIn c.hooks globals).run c₁ = .ok (n, c₂)) :
    body.Reports c c₂ ∧
      (∀ kind, c₂.tally (·.notifies kind) = c₁.tally (·.notifies kind) + if kind = "global" then n else 0) ∧
      (∀ kind, c₂.tally (·.isTracked kind) = c₁.tally (·.isTracked kind)) ∧
      (n = 0 ∨ n = globals.length ∧ body.Registers c.hooks globals c₂) := by
  obtain ⟨entry, b₁, hentry, hb₁, ⟨-, rfl, rfl⟩ | ⟨rfl, hinject⟩⟩ := Program.registerIn_ok hrun
  · exact ⟨h, fun kind => by simp, fun kind => rfl, .inl rfl⟩
  have notSite : ∀ s : ReportSite, "global" ≠ s.tag := fun s => by cases s <;> simp [ReportSite.tag]
  refine ⟨h.inject made.numbered notSite hinject, fun kind => ?_, fun kind => ?_, .inr ⟨rfl, ?_⟩⟩
  · refine tally_inject (fun next => ?_) hinject
    rw [countP_notifies_drafted, GlobalVariable.countP_registrations]
    exact if_congr eq_comm rfl rfl
  · exact tally_inject (fun next => countP_isTracked_drafted "global" kind next _) hinject
  · rw [h.framed.entry] at hentry
    obtain ⟨b, hb⟩ := made.started entry hentry
    obtain ⟨b₀, hb₀, hgains⟩ := h.blocks entry b hb
    cases hb₁.symm.trans hb₀
    obtain ⟨b₂, b', hb₂, hb', hentry', -⟩ := block_modifyBlock hinject
    cases hb₁.symm.trans hb₂
    refine ⟨entry, b, b', _, _, _, hentry, hb, hentry', congrArg Block.instructions (Block.inject_ok hb'), fun i hi => ?_,
      fun i hi => ?_, drafted_operations ..⟩
    · unfold Block.firstNonPhi at hi
      rw [← List.prefix_iff_eq_take.mp (List.takeWhile_prefix _)] at hi
      exact List.mem_takeWhile_imp (p := fun i : Instruction => i.operation.isPhi) hi
    · have ho : i.operation ∈ globals.mapIdx fun id e => GlobalVariable.registration c.hooks id e.1 e.2 := by
        rw [← drafted_operations [(Tag.injected, "global")] b₁.nextIndex (globals.mapIdx _)]
        exact List.mem_map_of_mem hi
      obtain ⟨id, hid, ho⟩ := List.mem_mapIdx.mp ho
      unfold Block.isNotified Instruction.notifies
      rw [Block.not_knows_of_mem_drafted (numbered_iff.mp made.numbered _ b hb).2 hgains.next hi, tag?_of_mem_drafted hi,
        ← ho]
      rfl

def Program.Registers (c : Configuration) (p q : Program) (globals : List (String × Word)) : Prop :=
  (globals.Pairwise fun a b => compare a.1 b.1 = .lt) ∧ ∃ f g body body', p.function? c.globalInitFunction = some f ∧
    f.body = some body ∧ q.function? c.globalInitFunction = some g ∧ g.body = some body' ∧
    body.Registers c.hooks globals body'

namespace Program

variable {p q q₁ : Program} {c : Configuration}

theorem Built.global_name (h : p.Built) : ∀ e ∈ p.globals.entries, e.2.name = e.1 := by
  induction h with
  | empty => exact fun e he => (List.not_mem_nil he).elim
  | addFunction _ _ ih => exact ih
  | setFunction _ _ _ ih => exact ih
  | @addGlobal p g _ ih =>
    intro e he
    have hget : (p.globals.insert g.name g).get? e.1 = some e.2 := (Table.get?_eq_some_iff _ e.1 e.2).mpr he
    rw [Table.get?_insert] at hget
    split at hget
    · rename_i hname
      cases hget
      exact hname.symm
    · exact ih e ((Table.get?_eq_some_iff _ _ _).mp hget)

theorem pairwise_trackedGlobals (made : p.Made) {globals : List (String × Word)} (h : p.trackedGlobals = .ok globals) :
    globals.Pairwise fun a b => compare a.1 b.1 = .lt := by
  obtain ⟨sizes, hsizes, hanswer⟩ := bind_eq_ok.mp h
  cases hanswer
  have named := made.built.global_name
  have sorted := p.globals.sorted
  unfold Table.values at hsizes
  generalize p.globals.entries = entries at hsizes named sorted
  have hentries := mapM_eq_ok.mp hsizes
  rw [List.forall₂_map_left_iff] at hentries
  clear h hsizes
  have hname : ∀ (g : GlobalVariable) x, (do return (← g.trackedSize?).map fun size => (g.name, size)) =
      (.ok (some x) : Outcome (Option (String × Word))) → x.1 = g.name := by
    intro g x hx
    obtain ⟨size, -, hx⟩ := bind_eq_ok.mp hx
    obtain ⟨_, -, rfl⟩ := Option.map_eq_some_iff.mp (Except.ok.inj hx)
    rfl
  induction hentries with
  | nil => exact .nil
  | @cons e size rest sizes hsize hrest ih =>
    rw [List.pairwise_cons] at sorted
    have hlater := ih (fun e he => named e (List.mem_cons_of_mem _ he)) sorted.2
    cases size with
    | none => exact hlater
    | some x =>
      refine List.pairwise_cons.mpr ⟨fun y hy => ?_, hlater⟩
      obtain ⟨z, hz, rfl⟩ := List.mem_filterMap.mp hy
      obtain ⟨e', he', hsize'⟩ := exists_of_mem_forall₂ hrest hz
      rw [hname _ _ hsize, hname _ _ hsize', named e List.mem_cons_self, named e' (List.mem_cons_of_mem _ he')]
      exact sorted.1 e' he'

variable {log log' : List LogEntry}

theorem reports_of_editFunctions (numbered : p.Numbered) {reports : List AllocationReport}
    (hedit : (p.declareHooks c.hooks).editFunctions (fun f =>
      if c.instruments f then f.reportAllocations c else pure (AllocationReport.empty, f)) = .ok (reports, q)) :
    p.Reports c q ∧ ∀ kind n, AllocationReport.Counts kind n →
      q.tally (·.notifies kind) = p.tally (·.notifies kind) + n (reports.foldl AllocationReport.add .empty) ∧
      q.tally (·.isTracked kind) = p.tally (·.isTracked kind) + n (reports.foldl AllocationReport.add .empty) := by
  have numbered' := numbered_of_declareHooks numbered c.hooks
  have hall : ∀ name f a g, (p.declareHooks c.hooks).function? name = some f →
      (if c.instruments f then f.reportAllocations c else pure (AllocationReport.empty, f)) = .ok (a, g) →
      f.Reports c g ∧ ∀ kind n, AllocationReport.Counts kind n →
        g.tally (·.notifies kind) = f.tally (·.notifies kind) + n a ∧
        g.tally (·.isTracked kind) = f.tally (·.isTracked kind) + n a := by
    intro name f a g hf hg
    split at hg
    · obtain ⟨body, _, hbody, -, -⟩ := Function.edit_ok hg
      obtain ⟨body', rfl, -, hreports, htally⟩ :=
        Function.reports_of_reportAllocations hbody ((numbered_iff.mp numbered' name f hf).2 body hbody) hg
      refine ⟨⟨rfl, hbody ▸ .some hreports⟩, fun kind n hn => ?_⟩
      simp only [Function.tally_of_body hbody, Function.tally_of_body (f := { f with body := some body' }) rfl]
      exact htally kind n hn
    · cases hg
      refine ⟨⟨rfl, ?_⟩, fun kind n hn => by simp [hn.empty]⟩
      cases f.body with
      | none => exact .none
      | some body => exact .some (.refl c body)
  obtain ⟨hglobals, hfunctions⟩ := editFunctions_ok hedit
  have hkept : (p.declareHooks c.hooks).globals = p.globals :=
    declareHooks_induction (P := fun q => q.globals = p.globals) rfl fun _ _ _ h _ => h
  refine ⟨⟨hglobals.trans hkept, fun name f hf => ?_, fun name g hg hnone => ?_⟩,
    fun kind n hn => ?_⟩
  · have hdeclared := ((function?_declareHooks p c.hooks).1 name (by rw [hf]; rfl)).trans hf
    obtain ⟨a, g, hg, hq⟩ := (hfunctions name).2 f hdeclared
    exact ⟨g, hq, (hall name f a g hdeclared hg).1⟩
  · cases hdeclared : (p.declareHooks c.hooks).function? name with
    | none => cases ((hfunctions name).1 hdeclared).symm.trans hg
    | some f =>
      obtain ⟨a, g', hg', hq⟩ := (hfunctions name).2 f hdeclared
      cases hg.symm.trans hq
      have hbody : f.body = none := by
        rcases (declareHooks_bodies p c.hooks fun _ => false).1 name f hdeclared with hold | ⟨-, hbody⟩
        · cases hnone.symm.trans hold
        · exact hbody
      obtain ⟨⟨-, hrel⟩, -⟩ := hall name f a g hdeclared hg'
      rw [hbody] at hrel
      generalize g.body = body at hrel ⊢
      cases hrel
      rfl
  · have hsum := hn.foldl id reports .empty
    rw [hn.empty, Nat.zero_add] at hsum
    simp only [id] at hsum
    rw [hsum]
    have hnotifies : q.tally (·.notifies kind) =
        (p.declareHooks c.hooks).tally (·.notifies kind) + (reports.map n).sum :=
      sum_editFunctions (fun name f a g hf hg => ((hall name f a g hf hg).2 kind n hn).1) hedit
    have htracked : q.tally (·.isTracked kind) =
        (p.declareHooks c.hooks).tally (·.isTracked kind) + (reports.map n).sum :=
      sum_editFunctions (fun name f a g hf hg => ((hall name f a g hf hg).2 kind n hn).2) hedit
    rw [hnotifies, htracked, (declareHooks_bodies p c.hooks _).2, (declareHooks_bodies p c.hooks _).2]
    exact ⟨rfl, rfl⟩

/-- Registering globals adds registrations at the start of one function, as many as it answers. -/
theorem reports_of_registerGlobals (made : p.Made) (hreports : p.Reports c q₁) {count : Nat}
    (hrun : (q₁.registerGlobals c).runFrom log = (.ok (count, q), log')) :
    p.Reports c q ∧
      (∀ kind, q.tally (·.notifies kind) = q₁.tally (·.notifies kind) + if kind = "global" then count else 0) ∧
      (∀ kind, q.tally (·.isTracked kind) = q₁.tally (·.isTracked kind)) ∧
      (count = 0 ∨ ∃ globals, p.trackedGlobals = .ok globals ∧ count = globals.length ∧ p.Registers c q globals) := by
  obtain ⟨globals, htracked, ⟨-, rfl, rfl⟩ | ⟨-, f₁, f', hf₁, hf', rfl⟩⟩ := registerGlobals_ok hrun
  · exact ⟨hreports, fun kind => by simp, fun kind => rfl, .inl rfl⟩
  obtain ⟨c₁, c₂, hc₁, hregister, rfl⟩ := Function.edit_ok hf'
  -- A function with code was there before.
  obtain ⟨f, hf, hsame, body, hbody, hbodies⟩ : ∃ f, p.function? c.globalInitFunction = some f ∧
      f₁ = { f with body := f₁.body } ∧ ∃ body, f.body = some body ∧ body.Reports c c₁ := by
    cases hp : p.function? c.globalInitFunction with
    | none =>
      rw [hreports.declared _ f₁ hf₁ hp] at hc₁
      cases hc₁
    | some f =>
      obtain ⟨_, hq₁, hsame, hrel⟩ := hreports.functions _ f hp
      cases hf₁.symm.trans hq₁
      rw [hc₁] at hrel
      cases hbody : f.body with
      | none =>
        rw [hbody] at hrel
        cases hrel
      | some body =>
        rw [hbody] at hrel
        cases hrel with
        | some hbodies => exact ⟨f, rfl, hsame, body, hbody, hbodies⟩
  obtain ⟨hbodies', hnotifies, hmarks, hregistered⟩ := hbodies.registerIn (made.body hf body hbody) hregister
  have hset : ∀ name, (q₁.setFunction c.globalInitFunction { f₁ with body := some c₂ }).function? name =
      if name = c.globalInitFunction then some { f₁ with body := some c₂ } else q₁.function? name := fun name =>
    Table.get?_insert ..
  have htally : ∀ P n, c₂.tally P = c₁.tally P + n →
      (q₁.setFunction c.globalInitFunction { f₁ with body := some c₂ }).tally P = q₁.tally P + n := fun P n hn => by
    have hsum := tally_setFunction (g := { f₁ with body := some c₂ }) (P := P) hf₁
    rw [Function.tally_of_body hc₁, Function.tally_of_body (f := { f₁ with body := some c₂ }) rfl, hn] at hsum
    omega
  have hknown : p.trackedGlobals = .ok globals := by
    rw [← htracked]
    unfold trackedGlobals
    rw [hreports.globals]
  refine ⟨⟨hreports.globals, fun name g hg => ?_, fun name g hg hnone => ?_⟩, fun kind => htally _ _ (hnotifies kind),
    fun kind => htally _ 0 (hmarks kind), hregistered.imp_right fun ⟨hcount, hregisters⟩ => ⟨globals, hknown, hcount,
      pairwise_trackedGlobals made hknown, f, _, body, c₂, hf, hbody, (hset _).trans (if_pos rfl), rfl, hregisters⟩⟩
  · rw [hset]
    split
    · rename_i hname
      subst hname
      cases hf.symm.trans hg
      refine ⟨_, rfl, ?_, hbody ▸ .some hbodies'⟩
      rw [hsame]
    · exact hreports.functions name g hg
  · rw [hset] at hg
    split at hg
    · rename_i hname
      subst hname
      cases hf.symm.trans hnone
    · exact hreports.declared name g hg hnone

/-- Reporting allocations takes nothing away and changes no edge. Each site that is marked now has exactly one new
notification of its kind next to it, which is about its subject; the report counts the marks and the notifications of
each kind; and the globals that it counts are registered under ids from zero on in the order of their names. -/
theorem allocation_reports_only_add (built : p.Built) (numbered : p.Numbered) {report : AllocationReport}
    (h : (p.reportAllocations c).runFrom log = (.ok (report, q), log')) :
    p.Reports c q ∧
    (∀ e ∈ [("allocation", report.allocations), ("free", report.frees), ("escape", report.escapes)],
      q.tally (·.notifies e.1) = p.tally (·.notifies e.1) + e.2 ∧
      q.tally (·.isTracked e.1) = p.tally (·.isTracked e.1) + e.2) ∧
    q.tally (·.notifies "global") = p.tally (·.notifies "global") + report.globals ∧
    (report.globals = 0 ∨ ∃ globals, p.trackedGlobals = .ok globals ∧ report.globals = globals.length ∧
      p.Registers c q globals) := by
  obtain ⟨reports, q₁, hedit, hrest⟩ := reportAllocations_ok h
  obtain ⟨hreports, hcounts⟩ := reports_of_editFunctions numbered hedit
  have hallocations := hcounts _ _ AllocationReport.counts_allocations
  have hfrees := hcounts _ _ AllocationReport.counts_frees
  have hescapes := hcounts _ _ AllocationReport.counts_escapes
  have hglobals := (hcounts _ _ AllocationReport.counts_globals).1
  have hzero := (hcounts _ _ AllocationReport.counts_zero).1
  rcases hrest with ⟨-, count, hregister, rfl⟩ | ⟨-, rfl, rfl⟩
  · obtain ⟨hreports', hnotifies, hmarks, hregistered⟩ := reports_of_registerGlobals ⟨built, numbered⟩ hreports hregister
    refine ⟨hreports', fun e he => ?_, ?_, hregistered⟩
    · simp only [List.mem_cons, List.not_mem_nil, or_false] at he
      rw [hnotifies, hmarks]
      rcases he with rfl | rfl | rfl
      · exact hallocations
      · exact hfrees
      · exact hescapes
    · rw [hnotifies, hzero]
      rfl
  · refine ⟨hreports, fun e he => ?_, hglobals, .inl (by omega)⟩
    simp only [List.mem_cons, List.not_mem_nil, or_false] at he
    rcases he with rfl | rfl | rfl
    · exact hallocations
    · exact hfrees
    · exact hescapes

end Program

/-- Two blocks are allocated back to back; one is stored in the other and freed at once, behind code that was injected
before. -/
def recyclesBlock : Program :=
  let size : Argument := ⟨0, "size", .integer 32⟩
  let block : Variable := ⟨"block", .pointer⟩
  let cells : Variable := ⟨"cells", .pointer⟩
  let plain (o : Operation) : FlowGraph.Draft := ⟨o, none, []⟩
  let main : Function := ⟨"main", [size], .void, .external, (FlowGraph.build
    [[plain (.call (some block) (.direct "malloc") [.argument size]),
      plain (.call (some cells) (.direct "calloc") [.ofWord 4 64, .ofWord 8 64]),
      plain (.store (.variable cells) (.variable block)),
      ⟨.notify "carat_guard_address" [.ofWord 0 64, .ofWord 1 32], none, [(Tag.injected, "guard")]⟩,
      ⟨.notify "carat_notify_free" [.variable block], none, [(Tag.injected, "free")]⟩,
      plain (.call none (.direct "free") [.variable block]), plain (.ret none)]] [] (some 0)).toOption⟩
  ((Program.ofFunctions [main]).addGlobal ⟨"table", .array (.integer 32) 16, .external, true⟩).addGlobal
    ⟨"arena", .array (.integer 8) 4096, .internal, true⟩

/-- Every site is reported beside the others, and a free that was reported before is left alone. -/
theorem only_add_recyclesBlock :
    ∃ report q log, recyclesBlock.Built ∧ recyclesBlock.Numbered ∧
      (recyclesBlock.reportAllocations .default).runFrom [] = (.ok (report, q), log) ∧
      report = ⟨2, 1, 2, 1⟩ ∧ recyclesBlock.Reports .default q ∧ q.tally (·.notifies "allocation") = 2 ∧
      q.tally (·.notifies "free") = 2 ∧ q.tally (·.isTracked "free") = 1 ∧
      recyclesBlock.Registers .default q [("arena", 4096), ("table", 64)] := by
  have made : recyclesBlock.Made := by
    refine .addGlobal (.addGlobal (Program.made_of_ofFunctions fun f hf c hc => ?_))
    cases List.mem_singleton.mp hf
    dsimp only at hc
    exact FlowGraph.made_of_build (toOption_eq_some.mp hc)
  have hreport : ((recyclesBlock.reportAllocations .default).runFrom []).1.toOption.any fun answer =>
      answer.1 = ⟨2, 1, 2, 1⟩ := by
    decide +kernel
  have hbefore : recyclesBlock.tally (·.notifies "allocation") = 0 ∧ recyclesBlock.tally (·.notifies "free") = 1 ∧
      recyclesBlock.tally (·.isTracked "free") = 0 := by
    decide +kernel
  have htracked : recyclesBlock.trackedGlobals.toOption = some [("arena", 4096), ("table", 64)] := by decide +kernel
  obtain ⟨⟨report, q⟩, log, hrun, hcounts⟩ := Stateful.exists_of_any hreport
  have hvalue : report = ⟨2, 1, 2, 1⟩ := of_decide_eq_true hcounts
  obtain ⟨hreports, hcounts, -, hglobals⟩ := Program.allocation_reports_only_add made.built made.numbered hrun
  have hallocations := (hcounts ("allocation", report.allocations) (by simp)).1
  obtain ⟨hfrees, hmarks⟩ := hcounts ("free", report.frees) (by simp)
  rw [hbefore.1, hvalue] at hallocations
  rw [hbefore.2.1, hvalue] at hfrees
  rw [hbefore.2.2, hvalue] at hmarks
  refine ⟨report, q, log, made.built, made.numbered, hrun, hvalue, hreports, hallocations, hfrees, hmarks, ?_⟩
  rcases hglobals with hnone | ⟨globals, hknown, -, hregisters⟩
  · rw [hvalue] at hnone
    cases hnone
  · cases (toOption_eq_some.mp htracked).symm.trans hknown
    exact hregisters

def Function.reportedCode (f : Function) : List (Operation × Bool × Option String) :=
  f.located.map fun e => (e.2.operation, e.2.isInjected, e.2.tag? Tag.tracked)

/-- Of two stores of one number, the first one is marked and has both notifications behind it. Where a store has the
number that the first notification gets, that notification is marked in its place. -/
theorem second_store_unreported :
    (∃ report q log g, (storesUnder [0, 0, 1]).Built ∧
      ((storesUnder [0, 0, 1]).reportAllocations .default).runFrom [] = (.ok (report, q), log) ∧
      report = ⟨0, 0, 0, 2⟩ ∧ q.function? "main" = some g ∧ g.reportedCode =
        [(.store (.argument ⟨0, "p", .pointer⟩) (.argument ⟨0, "p", .pointer⟩), false, some "escape"),
          (.notify "carat_notify_escape" [.argument ⟨0, "p", .pointer⟩], true, none),
          (.notify "carat_notify_escape" [.argument ⟨1, "q", .pointer⟩], true, none),
          (.store (.argument ⟨1, "q", .pointer⟩) (.argument ⟨1, "q", .pointer⟩), false, none),
          (.ret none, false, none)]) ∧
    ∃ report q log g, (storesUnder [0, 3, 1]).Built ∧
      ((storesUnder [0, 3, 1]).reportAllocations .default).runFrom [] = (.ok (report, q), log) ∧
      report = ⟨0, 0, 0, 2⟩ ∧ q.function? "main" = some g ∧ g.reportedCode =
        [(.store (.argument ⟨0, "p", .pointer⟩) (.argument ⟨0, "p", .pointer⟩), false, some "escape"),
          (.notify "carat_notify_escape" [.argument ⟨0, "p", .pointer⟩], true, some "escape"),
          (.notify "carat_notify_escape" [.argument ⟨1, "q", .pointer⟩], true, none),
          (.store (.argument ⟨1, "q", .pointer⟩) (.argument ⟨1, "q", .pointer⟩), false, none),
          (.ret none, false, none)] := by
  have reported : ∀ e ∈ [([0, 0, 1], none), ([0, 3, 1], some "escape")],
      ((storesUnder e.1).reportAllocations .default).runFrom [] |>.1.toOption.any fun answer =>
        answer.1 = ⟨0, 0, 0, 2⟩ ∧ ∃ g ∈ answer.2.function? "main", g.reportedCode =
          [(.store (.argument ⟨0, "p", .pointer⟩) (.argument ⟨0, "p", .pointer⟩), false, some "escape"),
            (.notify "carat_notify_escape" [.argument ⟨0, "p", .pointer⟩], true, e.2),
            (.notify "carat_notify_escape" [.argument ⟨1, "q", .pointer⟩], true, none),
            (.store (.argument ⟨1, "q", .pointer⟩) (.argument ⟨1, "q", .pointer⟩), false, none),
            (.ret none, false, none)] := by
    decide +kernel
  constructor
  · obtain ⟨⟨report, q⟩, log, hrun, h⟩ := Stateful.exists_of_any (reported ([0, 0, 1], none) (by simp))
    obtain ⟨hreport, g, hg, hcode⟩ := of_decide_eq_true h
    exact ⟨report, q, log, g, built_storesUnder _, hrun, hreport, hg, hcode⟩
  · obtain ⟨⟨report, q⟩, log, hrun, h⟩ := Stateful.exists_of_any (reported ([0, 3, 1], some "escape") (by simp))
    obtain ⟨hreport, g, hg, hcode⟩ := of_decide_eq_true h
    exact ⟨report, q, log, g, built_storesUnder _, hrun, hreport, hg, hcode⟩

end RegionGuard

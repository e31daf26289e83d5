import RegionGuard.Proofs.GuardRoutes
set_option autoImplicit false

namespace RegionGuard

open FlowGraph Stateful

namespace FlowGraph

/-- The graphs that instrumentation is made for: their blocks are left as tests leave them, and their phis take
something from every block in front. -/
structure Plain (c : FlowGraph) : Prop extends Clean c where
  numbered : c.Numbered
  complete : c.Complete
  started : ∀ entry ∈ c.entry, ∃ b, c.block entry = .ok b

variable {h : Hooks} {c : FlowGraph}

theorem orderly_of_tidy (numbered : c.Numbered) (wired : c.graph.Wired) (tidy : c.Tidy) : c.Orderly where
  numbered := numbered
  wired := wired
  filed := tidy.filed
  bounded k b hb := tidy.vertices k b (block_eq_ok.mp hb)
  known k b hb i hi := (tidy.code k b (block_eq_ok.mp hb) i hi).known

theorem Plain.carries (hc : c.Plain) (h : Hooks) : ∃ r, Carries h r c c :=
  ⟨_, .refl h (orderly_of_tidy hc.numbered hc.wired hc.tidy) hc.complete fun k b hb i hi =>
    (hc.tidy.code k b (block_eq_ok.mp hb) i hi).avoids⟩

end FlowGraph

structure Function.Overlays (h : Hooks) (f g : Function) : Prop where
  name : g.name = f.name
  arguments : g.arguments = f.arguments
  bodies : f.body = none ∧ g.body = none ∨
    ∃ c c', f.body = some c ∧ g.body = some c' ∧ c.Plain ∧ ∃ r, Carries h r c c'

structure Program.Overlays (h : Hooks) (p q : Program) : Prop where
  functions : ∀ name, Option.Rel (Function.Overlays h) (p.function? name) (q.function? name)
  globals : q.globals = p.globals

namespace Function.Overlays

variable {h : Hooks} {f g : Function}

theorem refl (plain : ∀ c ∈ f.body, c.Plain) : f.Overlays h f := by
  refine ⟨rfl, rfl, ?_⟩
  cases hbody : f.body with
  | none => exact .inl ⟨rfl, rfl⟩
  | some c =>
    have hc := plain c hbody
    exact .inr ⟨c, c, rfl, rfl, hc, hc.carries h⟩

theorem edit (hfg : f.Overlays h g) {α : Type} {e : Edit α} {a : α} {g' : Function}
    (he : ∀ c c' a c'', c.Plain → (∃ r, Carries h r c c') → g.body = some c' → e.run c' = .ok (a, c'') →
      ∃ r, Carries h r c c'') (hedit : g.edit e = .ok (a, g')) : f.Overlays h g' := by
  obtain ⟨c', c'', hc', hrun, rfl⟩ := Function.edit_ok hedit
  rcases hfg.bodies with ⟨-, hnone⟩ | ⟨c, body, hc, hbody, plain, hcarries⟩
  · rw [hc'] at hnone
    cases hnone
  · cases hc'.symm.trans hbody
    exact ⟨hfg.name, hfg.arguments, .inr ⟨c, c'', hc, rfl, plain, he c c' a c'' plain hcarries hc' hrun⟩⟩

end Function.Overlays

namespace Program.Overlays

variable {h : Hooks} {c : Configuration} {p q q' : Program}

theorem refl (plain : ∀ name f, p.function? name = some f → ∀ c ∈ f.body, c.Plain) : p.Overlays h p := by
  refine ⟨fun name => ?_, rfl⟩
  cases hf : p.function? name with
  | none => exact .none
  | some f => exact .some (.refl (plain name f hf))

theorem isSome_eq (hpq : p.Overlays h q) (name : String) : (q.function? name).isSome = (p.function? name).isSome := by
  have := hpq.functions name
  generalize p.function? name = f at this ⊢
  generalize q.function? name = g at this ⊢
  cases this <;> rfl

theorem editFunctions (hpq : p.Overlays h q) {α : Type} {e : Function → Outcome (α × Function)} {answers : List α}
    (he : ∀ (name : String) (f g : Function) (a : α) (g' : Function), q.function? name = some g → f.Overlays h g →
      e g = .ok (a, g') → f.Overlays h g')
    (hedit : q.editFunctions e = .ok (answers, q')) : p.Overlays h q' := by
  obtain ⟨hglobals, hfunctions⟩ := editFunctions_ok hedit
  refine ⟨fun name => ?_, hglobals.trans hpq.globals⟩
  obtain ⟨hnone, hsome⟩ := hfunctions name
  have hrel := hpq.functions name
  generalize hf : p.function? name = f at hrel ⊢
  generalize hg : q.function? name = g at hrel
  cases hrel with
  | none =>
    rw [hnone hg]
    exact .none
  | @some f g hfg =>
    obtain ⟨a, g', hg', hq'⟩ := hsome g hg
    rw [hq']
    exact .some (he name f g a g' hg hfg hg')

theorem setFunction (hpq : p.Overlays h q) {name : String} {g g' : Function} (hg : q.function? name = some g)
    (hg' : ∀ f : Function, f.Overlays h g → f.Overlays h g') : p.Overlays h (q.setFunction name g') := by
  refine ⟨fun name' => ?_, hpq.globals⟩
  have hrel := hpq.functions name'
  unfold function? Program.setFunction at *
  rw [Table.get?_insert]
  split
  · rename_i hname
    subst hname
    rw [hg] at hrel
    generalize p.functions.get? name' = f at hrel ⊢
    cases hrel with
    | some hfg => exact .some (hg' _ hfg)
  · exact hrel

theorem simplifyLoops (hpq : p.Overlays h q) (tidy : q.Tidy) {count : Nat}
    (hrun : q.simplifyLoops c = .ok (count, q')) : p.Overlays h q' := by
  obtain ⟨⟨counts, q''⟩, hedit, hanswer⟩ := bind_eq_ok.mp hrun
  cases hanswer
  refine hpq.editFunctions (fun name f g a g' hg hfg hg' => ?_) hedit
  split at hg'
  · refine hfg.edit (fun c c' a c'' _ hcarries hbody hrun => ?_) hg'
    exact (Preheader.fit_simplify c' a c'' ⟨tidy name g hg c' hbody, hcarries⟩ hrun).carries
  · cases hg'
    exact hfg

theorem reportAllocations (hpq : p.Overlays c.hooks q) {log log' : List LogEntry} {report : AllocationReport}
    (declared : q.declareHooks c.hooks = q)
    (hrun : (q.reportAllocations c).runFrom log = (.ok (report, q'), log')) : p.Overlays c.hooks q' := by
  obtain ⟨reports, q₁, hedit, hrest⟩ := Program.reportAllocations_ok hrun
  rw [declared] at hedit
  have hpq₁ : p.Overlays c.hooks q₁ := by
    refine hpq.editFunctions (fun name f g a g' hg hfg hg' => ?_) hedit
    split at hg'
    · refine hfg.edit (fun c₀ c' a c'' _ hcarries hbody hrun => ?_) hg'
      obtain ⟨r, hr⟩ := hcarries
      obtain ⟨_, c₁, hreports, hanswer⟩ := Edit.bind_ok.mp hrun
      obtain ⟨-, rfl⟩ := Edit.pure_ok.mp hanswer
      rw [Edit.forIn_eq_forM] at hreports
      exact ⟨r, (ReportSite.carries_reports hr
        (fun e he => ReportSite.holds_of_mem hbody hr.orderly.numbered he) hreports).1⟩
    · cases hg'
      exact hfg
  rcases hrest with ⟨-, count, hregister, -⟩ | ⟨-, rfl, -⟩
  · obtain ⟨globals, -, ⟨-, -, rfl⟩ | ⟨-, g, g', hg, hg', rfl⟩⟩ := Program.registerGlobals_ok hregister
    · exact hpq₁
    · refine hpq₁.setFunction hg fun f hfg => hfg.edit (fun c₀ c' a c'' _ hcarries _ hrun => ?_) hg'
      obtain ⟨r, hr⟩ := hcarries
      exact ⟨r, Program.carries_registerIn hr hrun⟩
  · exact hpq₁

end Program.Overlays

namespace Program

variable {h : Hooks} {c : Configuration} {p q : Program}

theorem declareIfMissing_of_some {name : String} (hname : (p.function? name).isSome) (arguments : List (String × Ty)) :
    p.declareIfMissing name arguments = p := by
  obtain ⟨f, hf⟩ := Option.isSome_iff_exists.mp hname
  unfold declareIfMissing
  rw [hf]

theorem function?_declareIfMissing (name : String) (arguments : List (String × Ty)) :
    ((p.declareIfMissing name arguments).function? name).isSome ∧
      ∀ name', (p.function? name').isSome → (p.declareIfMissing name arguments).function? name' = p.function? name' := by
  cases hname : p.function? name with
  | some f =>
    rw [declareIfMissing_of_some (by rw [hname]; rfl)]
    exact ⟨by rw [hname]; rfl, fun _ _ => rfl⟩
  | none =>
    have hadded : ∀ name', (p.declareIfMissing name arguments).function? name' =
        if name' = name then some (.declaration name (arguments.mapIdx fun i a => ⟨i, a.1, a.2⟩) .void)
        else p.function? name' := by
      intro name'
      unfold declareIfMissing
      rw [hname]
      exact Table.get?_insert ..
    refine ⟨by rw [hadded, if_pos rfl]; rfl, fun name' hname' => ?_⟩
    rw [hadded, if_neg]
    rintro rfl
    rw [hname] at hname'
    cases hname'

theorem function?_declareHooks (p : Program) (h : Hooks) :
    (∀ name, (p.function? name).isSome → (p.declareHooks h).function? name = p.function? name) ∧
      ∀ s ∈ h.signatures, ((p.declareHooks h).function? s.1).isSome := by
  unfold declareHooks
  induction h.signatures generalizing p with
  | nil => exact ⟨fun _ _ => rfl, fun s hs => (List.not_mem_nil hs).elim⟩
  | cons s rest ih =>
    obtain ⟨hself, hothers⟩ := function?_declareIfMissing (p := p) s.1 s.2
    obtain ⟨hkeeps, hdeclared⟩ := ih (p.declareIfMissing s.1 s.2)
    refine ⟨fun name hname => ?_, fun s' hs' => ?_⟩
    · rw [List.foldl_cons, hkeeps name (by rw [hothers name hname]; exact hname), hothers name hname]
    · rw [List.foldl_cons]
      rcases List.mem_cons.mp hs' with rfl | hs'
      · rw [hkeeps _ hself]
        exact hself
      · exact hdeclared s' hs'

theorem declareHooks_of_declared (hq : ∀ s ∈ h.signatures, (q.function? s.1).isSome) : q.declareHooks h = q := by
  unfold declareHooks
  generalize h.signatures = l at hq ⊢
  induction l with
  | nil => rfl
  | cons s rest ih =>
    rw [List.foldl_cons, declareIfMissing_of_some (hq s List.mem_cons_self)]
    exact ih fun s' hs' => hq s' (List.mem_cons_of_mem s hs')

theorem Overlays.declared (hpq : (p.declareHooks h).Overlays h q) : q.declareHooks h = q :=
  declareHooks_of_declared fun s hs => by
    rw [hpq.isSome_eq]
    exact (function?_declareHooks p h).2 s hs

theorem overlays_of_instruments (named : p.Numbered)
    (plain : ∀ name f, p.function? name = some f → ∀ body ∈ f.body, body.Plain)
    {report : InstrumentationReport} (hq : p.Instruments c report q) :
    (p.declareHooks c.hooks).Overlays c.hooks q := by
  obtain ⟨log, log', hrun⟩ := hq
  obtain ⟨log₁, p₁, r, counts, hprepare, hdecide, hedit, -, -⟩ := instrument_ok hrun
  have tidy : p.Tidy := fun name f hf body hbody => (plain name f hf body hbody).tidy
  have tidy₁ := tidy_of_prepare tidy hprepare
  have named₁ := numbered_of_prepare named hprepare
  have hp₁ : (p.declareHooks c.hooks).Overlays c.hooks p₁ := by
    obtain ⟨-, hprepare⟩ := guarded_bind_ok.mp hprepare
    obtain ⟨⟨preheaders, p₂⟩, hsimplify, hprepare⟩ := lift_bind_ok.mp hprepare
    obtain ⟨⟨allocation, p₃⟩, log₂, hreport, hprepare⟩ := runFrom_bind_ok.mp hprepare
    simp only [runFrom_pure, Prod.mk.injEq, Except.ok.injEq] at hprepare
    obtain ⟨rfl, -⟩ := hprepare
    have hself : (p.declareHooks c.hooks).Overlays c.hooks (p.declareHooks c.hooks) :=
      .refl (AllBodies.declareHooks plain c.hooks)
    have hp₂ := hself.simplifyLoops (tidy_of_declareHooks tidy c.hooks) hsimplify
    have hp₃ := hp₂.reportAllocations hp₂.declared hreport
    rw [hp₃.declared]
    exact hp₃
  refine hp₁.editFunctions (fun name f g a g' hg hfg hg' => ?_) hedit
  rcases hfg.bodies with ⟨hnone, hbody⟩ | ⟨body, body', hf, hbody, hplain, hcarries⟩
  · rcases Function.guardFunction_ok hg' with ⟨-, rfl, -⟩ | ⟨_, _, _, _, hsome, -⟩
    · exact hfg
    · rw [hbody] at hsome
      cases hsome
  · obtain ⟨body'', rfl, hcarries'⟩ := carries_guardFunction named₁ tidy₁ hdecide hg hbody hplain.toClean hcarries hg'
    exact ⟨hfg.name, hfg.arguments, .inr ⟨body, body'', hf, rfl, hplain, hcarries'⟩⟩

theorem names_of_values (named : ∀ name f, p.function? name = some f → f.name = name) :
    p.functions.values.map Function.name = p.functions.keys := by
  unfold Table.values Table.keys
  rw [List.map_map]
  exact List.map_congr_left fun e he => named e.1 e.2 ((Table.get?_eq_some_iff ..).mpr he)

theorem image_congr (named : ∀ name f, p.function? name = some f → f.name = name)
    (named' : ∀ name g, q.function? name = some g → g.name = name)
    (names : ∀ name, (q.function? name).isSome = (p.function? name).isSome) (globals : q.globals = p.globals) :
    Image.ofProgram q = Image.ofProgram p := by
  have hkeys : q.functions.keys = p.functions.keys := Table.keys_congr names
  have hplaced : ∀ (l : List Function) (x : Image),
      l.foldlM (fun x f => x.placeFunction f.name) x = (l.map Function.name).foldlM Image.placeFunction x :=
    fun l x => (List.foldlM_map ..).symm
  unfold Image.ofProgram
  simp only [hplaced, names_of_values named, names_of_values named', hkeys, globals]

theorem Overlays.image (hpq : p.Overlays h q) (named : ∀ name f, p.function? name = some f → f.name = name) :
    Image.ofProgram q = Image.ofProgram p := by
  refine image_congr named (fun name g hg => ?_) hpq.isSome_eq hpq.globals
  have hrel := hpq.functions name
  rw [hg] at hrel
  generalize hf : p.function? name = f at hrel
  cases hrel with
  | some hfg => exact hfg.name.trans (named name _ hf)

end Program

end RegionGuard

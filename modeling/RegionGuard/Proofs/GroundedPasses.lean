import RegionGuard.Proofs.EscapeReports
import RegionGuard.Proofs.Repetition
set_option autoImplicit false

namespace RegionGuard

open FlowGraph Edit Stateful

namespace FlowGraph

variable {h : Hooks} {n : Nat} {c c' : FlowGraph} {k : Nat} {l : Location}

theorem Grounded.inject_quiet (hc : c.Grounded h n) {position : Block → Nat} {v : String} {tags : List (String × String)}
    {operations : List Operation} (hquiet : ∀ o ∈ operations, o.IsQuiet h n)
    (hm : c.modifyBlock k (fun b => b.inject (position b) ((Tag.injected, v) :: tags) operations) = .ok c') :
    c'.Grounded h n :=
  hc.modifyBlock (fun _ _ _ numbered hb hb' =>
    ⟨Block.numbered_of_inject numbered hb', by rw [Block.inject_ok hb'], hb.inject_quiet hquiet hb'⟩) hm

theorem Grounded.setTag (hc : c.Grounded h n) {key value : String} (hkey : Tag.injected ≠ key)
    (hm : c.modifyInstruction l (·.setTag key value) = .ok c') : c'.Grounded h n := by
  refine hc.modifyBlock (fun b b' _ numbered hb hb' => ?_) hm
  refine ⟨Block.numbered_of_modify (f := (·.setTag key value)) (fun _ => rfl) numbered hb', ?_⟩
  rw [(Block.modify_ok numbered hb').2]
  exact ⟨rfl, hb.map fun i => i.setTag_resembles hkey value _⟩

theorem steadfast_grounded (distinct : h.names.Nodup) : Steadfast h n (·.Grounded h n) where
  bound _ hc := hc.temps
  temps _ _ hnext hc := hc.withTemps hnext
  blocks c c' hc hv _ ht := by
    refine ⟨numbered_of_vertices hc.numbered hv, ht ▸ hc.temps, fun k b hb => hc.blocks k b ?_⟩
    exact (congrArg (Failure.orRaise · _) (congrArg (Table.get? · k) hv)).symm.trans hb
  newBlock c c' k hc hn := by
    refine ⟨numbered_of_newBlock hc.numbered hn, (newBlock_ok hn).2.2.2.1 ▸ hc.temps, fun j b hb => ?_⟩
    obtain ⟨hfresh, hothers⟩ := block_newBlock hn
    by_cases hj : j = k
    · subst hj
      cases hfresh.symm.trans hb
      exact Block.grounded_of_own fun i hi => (List.not_mem_nil hi).elim
    · exact hc.blocks j b ((hothers j hj).symm.trans hb)
  inject c c' k position v tags operations hc hguarding hi :=
    hc.inject_quiet (fun o ho => (hguarding o ho).isQuiet distinct) hi
  guarded c c' l value hc hg := hc.setTag (by decide) hg
  renamed c c' k old new hc hr := hc.modifyBlock (fun b b' _ numbered hb hb' => by
    cases hb'
    exact ⟨Block.numbered_of_map (fun i => (GuardDecision.renameIncoming_fields _ _ i).1) numbered, rfl,
      hb.map fun i => i.renameIncoming_resembles old new⟩) hr

theorem Grounded.own_of_stores (hc : c.Grounded h n) {b : Block} (hb : c.block k = .ok b) {i : Instruction}
    (hi : i ∈ b.instructions) {cell : Value} (hstores : i.operation.StoresPointer cell) : i.isInjected = false := by
  obtain ⟨value, ho, -⟩ := hstores
  have hcode := (hc.blocks k b hb).code
  generalize b.instructions = is at hi hcode
  induction hcode with
  | nil => cases hi
  | own own _ _ ih =>
    rcases List.mem_cons.mp hi with rfl | hi
    · exact own
    · exact ih hi
  | quiet _ quiet _ ih =>
    rcases List.mem_cons.mp hi with rfl | hi
    · rcases quiet with ⟨dst, hdst, -⟩ | ⟨name, -, -, arguments, hcall⟩
      · rw [ho] at hdst
        cases hdst
      · rw [ho] at hcall
        cases hcall
    · exact ih hi
  | report _ reports _ ih =>
    rcases List.mem_cons.mp hi with rfl | hi
    · rw [ho] at reports
      cases reports
    · exact ih hi

end FlowGraph

namespace ReportSite

open Drafting

variable {h : Hooks} {n : Nat} {c c' : FlowGraph} {l : Location} {s : ReportSite} {o : Operation}

def IsAbout (n : Nat) (o : Operation) : ReportSite → Prop
  | .escape cell => o.StoresPointer cell ∧ cell.Avoids n
  | _ => True

theorem quiet_of_collect (distinct : h.names.Nodup) (hs : ∀ cell, s ≠ .escape cell) {u : Unit} {operations : List Operation}
    (hn : n ≤ c.nextTemp) (hcollect : (s.operations h l).collect.run c = .ok ((u, operations), c')) :
    ∀ o ∈ operations, o.IsQuiet h n := by
  have hhook : s.hook h ≠ h.notifyEscape := by
    simp only [Hooks.names, List.nodup_cons, List.mem_cons, not_or] at distinct
    cases s with
    | allocation kind dst arguments =>
      cases kind with
      | malloc => exact distinct.1.2.2.2.2.1
      | calloc => exact distinct.2.1.2.2.2.1
      | realloc => exact distinct.2.2.1.2.2.1
    | free pointer => exact distinct.2.2.2.1.2.1
    | escape cell => exact absurd rfl (hs cell)
  refine (Adds.collect_ok (adds_operations_hook s (fun number kind v hk _ => ?_) (fun arguments => ?_) l) hn hcollect).1
  · exact .inl ⟨_, rfl, Variable.isUpcoming_temporary.mpr hk⟩
  · exact .inr ⟨s.hook h, hook_mem_names h s, hhook, arguments, rfl⟩

theorem grounded_report (distinct : h.names.Nodup) (hc : c.Grounded h n) (hl : c.Holds l o) (hs : s.IsAbout n o) {u : Unit}
    (hrun : (s.report h l).run c = .ok (u, c')) : c'.Grounded h n := by
  obtain ⟨⟨_, operations⟩, c₁, hcollect, hrest⟩ := Edit.bind_ok.mp hrun
  obtain ⟨position, c₂, hask, hmodify⟩ := Edit.bind_ok.mp hrest
  obtain ⟨hposition, rfl⟩ := ask_ok.mp hask
  obtain ⟨-, next, hnext, rfl⟩ := (adds_operations_extra (h := h) l s).collect_ok (Nat.le_refl _) hcollect
  obtain ⟨c₃, hinject, htag⟩ := modifyBlock_bind (Edit.step_ok.mp hmodify)
  have hc₁ := hc.withTemps hnext
  refine Grounded.setTag ?_ (by decide) htag
  by_cases hescape : ∃ cell, s = .escape cell
  · obtain ⟨cell, rfl⟩ := hescape
    obtain rfl : operations = [.escape h cell] := (congrArg (·.1.2) (Except.ok.inj hcollect)).symm
    obtain ⟨hstores, havoids⟩ := hs
    refine hc₁.modifyBlock (fun b b' hb numbered hgrounded hb' => ?_) hinject
    refine ⟨Block.numbered_of_inject numbered hb', by rw [Block.inject_ok hb'], ?_⟩
    obtain ⟨b₀, hb₀, hposition⟩ := bind_eq_ok.mp hposition
    cases hb.symm.trans hb₀
    refine hgrounded.inject_escape hposition havoids (fun i hi hindex => ?_) hb'
    -- The instruction at the location is still the store.
    obtain ⟨b₁, j, hb₁, hj, hj', rfl⟩ := hl
    cases hb₁.symm.trans hb
    cases Block.eq_of_index_eq numbered.2 hi hj (hindex.trans hj'.symm)
    exact ⟨hc.own_of_stores hb₁ hi hstores, hstores⟩
  · have hquiet : ∀ o ∈ operations, o.IsQuiet h n :=
      quiet_of_collect distinct (fun cell heq => hescape ⟨cell, heq⟩) hc.temps hcollect
    exact FlowGraph.Grounded.inject_quiet hc₁ hquiet hinject

theorem grounded_reports (distinct : h.names.Nodup) {sites : List (Location × ReportSite)} (hc : c.Grounded h n)
    (hsites : ∀ e ∈ sites, ∃ o, c.Holds e.1 o ∧ o.isPhi = false ∧ e.2.IsAbout n o) {u : PUnit}
    (hrun : (sites.forM fun e => e.2.report h e.1).run c = .ok (u, c')) : c'.Grounded h n := by
  induction sites generalizing c with
  | nil =>
    obtain ⟨-, rfl⟩ := pure_ok.mp hrun
    exact hc
  | cons e rest ih =>
    obtain ⟨_, c₁, hfirst, hrest⟩ := Edit.bind_ok.mp hrun
    obtain ⟨o, hl, -, hs⟩ := hsites e List.mem_cons_self
    have hretains := retains_report hc.numbered hfirst
    refine ih (grounded_report distinct hc hl hs hfirst) (fun e' he' => ?_) hrest
    obtain ⟨o', hl', ho', hs'⟩ := hsites e' (List.mem_cons_of_mem _ he')
    exact ⟨o', hretains _ _ ho' hl', ho', hs'⟩

end ReportSite

namespace FlowGraph

def Untouched (c : FlowGraph) : Prop := ∀ e ∈ c.graph.vertices.entries, ∀ i ∈ e.2.instructions, i.isInjected = false

instance (c : FlowGraph) : Decidable c.Untouched := inferInstanceAs (Decidable (∀ e ∈ _, _))

def Every (Q : Instruction → Prop) (c : FlowGraph) : Prop := ∀ k b, c.block k = .ok b → ∀ i ∈ b.instructions, Q i

variable {h : Hooks} {n : Nat} {c c' : FlowGraph} {k : Nat} {Q : Instruction → Prop}

theorem every_iff : c.Every Q ↔ ∀ e ∈ c.graph.vertices.entries, ∀ i ∈ e.2.instructions, Q i := by
  simp only [Every, block_eq_ok, Table.get?_eq_some_iff]
  exact ⟨fun h e he => h e.1 e.2 he, fun h k b hb => h (k, b) hb⟩

instance [DecidablePred Q] (c : FlowGraph) : Decidable (c.Every Q) := decidable_of_iff' _ every_iff

theorem untouched_iff : c.Untouched ↔ c.Every (·.isInjected = false) := every_iff.symm

theorem Every.of_vertices (hc : c.Every Q) (h : c'.graph.vertices = c.graph.vertices) : c'.Every Q := fun k b hb =>
  hc k b ((congrArg (Failure.orRaise · _) (congrArg (Table.get? · k) h)).symm.trans hb)

theorem Every.modifyBlock (hc : c.Every Q) {f : Block → Outcome Block}
    (hf : ∀ b b', c.block k = .ok b → f b = .ok b' → (∀ i ∈ b.instructions, Q i) → ∀ i ∈ b'.instructions, Q i)
    (hm : c.modifyBlock k f = .ok c') : c'.Every Q := by
  intro j b' hb'
  rcases block_of_modifyBlock hm hb' with ⟨-, hb⟩ | ⟨rfl, b, hb, hfb⟩
  · exact hc j b' hb
  · exact hf b b' hb hfb (hc _ b hb)

theorem Every.newBlock (hc : c.Every Q) (hn : c.newBlock = .ok (k, c')) : c'.Every Q := by
  intro j b hb
  obtain ⟨hfresh, hothers⟩ := block_newBlock hn
  by_cases hj : j = k
  · subst hj
    cases hfresh.symm.trans hb
    exact fun i hi => (List.not_mem_nil hi).elim
  · exact hc j b ((hothers j hj).symm.trans hb)

structure Pristine (c : FlowGraph) : Prop where
  numbered : c.Numbered
  tidy : c.Tidy
  untouched : c.Untouched

theorem Pristine.grounded (hc : c.Pristine) (h : Hooks) : c.Grounded h c.nextTemp where
  numbered := hc.numbered
  temps := Nat.le_refl _
  blocks k b hb := Block.grounded_of_own (untouched_iff.mp hc.untouched k b hb)

end FlowGraph

namespace Preheader

theorem keeps_every_insert {Q : Instruction → Prop} (hphi : ∀ index dst incoming, Q (.make index (.phi dst incoming)))
    (hset : ∀ i incoming, Q i → Q (setIncoming incoming i)) (header : Nat) (outside : List Nat) :
    Keeps (Every Q) (insert header outside) := by
  have hmerge : ∀ preheader dst arriving, Keeps (Every Q) (merge preheader dst arriving) := by
    intro preheader dst arriving
    unfold merge
    split
    · exact Keeps.answer _
    · refine Keeps.bind (Keeps.eval fun c _ c' hc h => ?_) fun temp => Keeps.bind (Keeps.step fun c c' hc h => ?_) fun _ =>
        Keeps.answer _
      · exact hc.of_vertices (congrArg Graph.vertices (temp_vertices h))
      · refine hc.modifyBlock (fun b b' _ hb' all i hi => ?_) h
        rw [(Block.insertWith_ok hb').2] at hi
        rcases List.mem_append.mp hi with hi | hi
        · exact all i (List.mem_of_mem_take hi)
        · rcases List.mem_cons.mp hi with rfl | hi
          · exact hphi ..
          · exact all i (List.mem_of_mem_drop hi)
  have hreroute : ∀ preheader i, Keeps (Every Q) (reroute header preheader outside i) := by
    intro preheader i
    unfold reroute
    split
    · simp only
      split
      · exact Keeps.answer _
      · refine (hmerge _ _ _).bind fun _ => Keeps.step fun c c' hc h => hc.modifyBlock (fun b b' _ hb' all i hi => ?_) h
        rcases Block.mem_modify hb' hi with hi | ⟨j, hj, rfl⟩
        · exact all i hi
        · exact hset j _ (all j hj)
    · exact Keeps.answer _
  refine Keeps.bind (Keeps.eval fun _ _ _ hc h => hc.newBlock h) fun preheader => ?_
  refine (Keeps.forIn fun head _ c u c' hc h => hc.of_vertices (redirect_vertices h)).bind fun _ => ?_
  refine Keeps.bind (Keeps.step fun _ _ hc h => hc.of_vertices (insertEdge_vertices h)) fun _ => ?_
  exact (Keeps.ask _).bind fun _ => (Keeps.forIn fun i _ => hreroute preheader i).bind fun _ => Keeps.answer _

theorem keeps_untouched_insert (header : Nat) (outside : List Nat) : Keeps Untouched (insert header outside) := by
  have keeps := keeps_every_insert (Q := (·.isInjected = false)) (fun _ _ _ => rfl) (fun i incoming hi => ?_) header outside
  · exact fun c u c' hc hrun => untouched_iff.mpr (keeps c u c' (untouched_iff.mp hc) hrun)
  · unfold setIncoming
    split <;> exact hi

theorem keeps_pristine_simplify : Keeps Pristine simplify := fun c k c' hc hrun =>
  ⟨keeps_simplify c k c' hc.numbered hrun, keeps_tidy_simplify c k c' hc.tidy hrun,
    keeps_simplify_of keeps_untouched_insert c k c' hc.untouched hrun⟩

end Preheader

namespace ReportSite

theorem about_of_mem {c : Configuration} {f : Function} {body : FlowGraph} (hbody : f.body = some body)
    (hc : body.Pristine) {e : Location × ReportSite} (he : e ∈ ofFunction c f) :
    ∃ o, body.Holds e.1 o ∧ o.isPhi = false ∧ e.2.IsAbout body.nextTemp o := by
  have havoids : e.2.Avoids body.nextTemp := avoids_of_mem hbody hc.tidy he
  obtain ⟨⟨l, i⟩, hi, hs⟩ := List.mem_filterMap.mp he
  obtain ⟨s, hsite, rfl⟩ := Option.map_eq_some_iff.mp hs
  refine ⟨i.operation, (Function.grown_sitesOf hc.numbered).holds _ (Function.mem_sitesOf hbody hi), ?_⟩
  simp only [ofInstruction] at hsite
  split at hsite
  · cases hsite
  · split at hsite
    · rename_i dst callee arguments ho
      refine ⟨by rw [ho]; rfl, ?_⟩
      unfold ofCall at hsite
      split at hsite
      · split at hsite
        · obtain ⟨dst', -, rfl⟩ := Option.map_eq_some_iff.mp hsite
          trivial
        · cases hsite
      · split at hsite
        · obtain ⟨pointer, -, rfl⟩ := Option.map_eq_some_iff.mp hsite
          trivial
        · cases hsite
    · rename_i pointer value ho
      refine ⟨by rw [ho]; rfl, ?_⟩
      split at hsite
      · rename_i hpointer
        cases hsite
        exact ⟨⟨value, ho, (Bool.and_eq_true_iff.mp hpointer).2⟩, havoids⟩
      · cases hsite
    · cases hsite

end ReportSite

namespace Program

variable {h : Hooks} {p q : Program} {c : Configuration}

section Bodies

variable {P : FlowGraph → Prop} [DecidablePred P]

theorem allBodies_iff_all : p.AllBodies P ↔ p.functions.values.all fun f => f.body.all fun body => decide (P body) := by
  rw [List.all_eq_true]
  constructor
  · intro hp f hf
    obtain ⟨name, hname⟩ := Table.mem_values_iff.mp hf
    exact (Option.all_eq_true ..).mpr fun body hbody => decide_eq_true (hp name f hname body hbody)
  · intro hp name f hf body hbody
    exact of_decide_eq_true ((Option.all_eq_true ..).mp (hp f (Table.mem_values_of_get? hf)) body hbody)

instance : Decidable (p.AllBodies P) := decidable_of_iff' _ allBodies_iff_all

end Bodies

def Grounded (h : Hooks) (p : Program) : Prop := p.AllBodies fun body => ∃ n, body.Grounded h n

theorem keeps_grounded_registerIn (distinct : h.names.Nodup) (globals : List (String × Word)) :
    Keeps (fun body => ∃ n, body.Grounded h n) (registerIn h globals) := by
  rintro body k body' ⟨n, hbody⟩ hrun
  obtain ⟨entry, b, -, -, ⟨-, -, rfl⟩ | ⟨-, hinject⟩⟩ := registerIn_ok hrun
  · exact ⟨n, hbody⟩
  · refine ⟨n, hbody.inject_quiet (fun o ho => ?_) hinject⟩
    obtain ⟨id, hid, rfl⟩ := List.mem_mapIdx.mp ho
    refine .inr ⟨h.notifyGlobal, by simp [Hooks.names], ?_, _, rfl⟩
    simp only [Hooks.names, List.nodup_cons, List.mem_cons, not_or] at distinct
    exact distinct.2.2.2.2.1.1

theorem grounded_of_instruments (distinct : c.hooks.names.Nodup) (pristine : p.AllBodies FlowGraph.Pristine)
    {report : InstrumentationReport} (hq : p.Instruments c report q) : q.Grounded c.hooks := by
  obtain ⟨log, log', hrun⟩ := hq
  obtain ⟨log₁, p₁, r, counts, hprepare, -, hedit, -, -⟩ := instrument_ok hrun
  have hp₁ : p₁.Grounded c.hooks := by
    refine AllBodies.prepare Preheader.keeps_pristine_simplify (fun f body a f' hbody hpristine hf' => ?_)
      (fun body hpristine => ⟨_, hpristine.grounded c.hooks⟩) (keeps_grounded_registerIn distinct) pristine hprepare
    obtain ⟨body₀, body', hbody₀, hpass, rfl⟩ := Function.edit_ok hf'
    cases hbody.symm.trans hbody₀
    obtain ⟨_, body₁, hreports, hanswer⟩ := Edit.bind_ok.mp hpass
    obtain ⟨-, rfl⟩ := Edit.pure_ok.mp hanswer
    rw [Edit.forIn_eq_forM] at hreports
    rintro _ ⟨⟩
    exact ⟨body.nextTemp, ReportSite.grounded_reports distinct (hpristine.grounded c.hooks)
      (fun e he => ReportSite.about_of_mem hbody hpristine he) hreports⟩
  refine allBodies_of_editFunctions (fun g k g' hg hg' body' hbody' => ?_) hp₁ hedit
  cases hbody : g.body with
  | none =>
    rcases Function.guardFunction_ok hg' with ⟨-, rfl, -⟩ | ⟨_, _, _, _, hsome, -⟩
    · exact hg body' hbody'
    · rw [hbody] at hsome
      cases hsome
  | some body =>
    obtain ⟨n, hgrounded⟩ := hg body hbody
    obtain ⟨body'', hbody'', hgrounded'⟩ := steadfast_guardFunction (steadfast_grounded distinct) hbody hgrounded hg'
    cases hbody''.symm.trans hbody'
    exact ⟨n, hgrounded'⟩

end Program

end RegionGuard

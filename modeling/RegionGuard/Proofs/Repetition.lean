import RegionGuard.Proofs.Constructions
import RegionGuard.Proofs.SettledFunctions
import RegionGuard.Proofs.Instrumented
set_option autoImplicit false

namespace RegionGuard

open FlowGraph Stateful

namespace Program

variable {p q : Program} {c : Configuration}

def Accesses (p : Program) (c : Configuration) (o : Operation) : Prop := MemoryAccess.ofOperation p c o ≠ []

def Escapes (p : Program) (c : Configuration) (o : Operation) : Prop := p.isEscaping c o

theorem isEscaping_congr (h : ∀ name, q.hasBody name = p.hasBody name) : q.isEscaping c = p.isEscaping c := by
  funext o
  unfold isEscaping
  split
  · rfl
  · rw [h]
  · rfl

theorem accesses_congr (h : q.isEscaping c = p.isEscaping c) : q.Accesses c = p.Accesses c := by
  funext o
  unfold Accesses MemoryAccess.ofOperation
  rw [h]

end Program

/-- The code of a function in which no pass finds anything left to do. -/
structure FlowGraph.IsDone (p : Program) (c : Configuration) (root : Nat) (body : FlowGraph) : Prop where
  simple : body.Simple root
  numbered : body.Numbered
  reported : body.Settled Tag.tracked (ReportSite.IsReported c)
  guarded : c.protection → body.Settled Tag.guarded (p.Accesses c)
  stack : c.restriction → (∃ k, body.Marked k "stack-guard") ∨ body.Settled Tag.injected (p.Escapes c)

namespace Function

variable {p : Program} {c : Configuration} {f g : Function} {body : FlowGraph} {root : Nat} {r : GuardReport}

theorem decideAccesses_of_settled {s : Safety} (hbody : f.body = some body) (numbered : body.Numbered)
    (settled : body.Settled Tag.guarded (s.program.Accesses s.configuration)) : s.decideAccesses f = .ok [] := by
  have hnone : MemoryAccess.ofFunction s.program s.configuration f = [] := by
    refine List.flatMap_eq_nil_iff.mpr fun ⟨l, i⟩ hi => ?_
    have hnot := not_isDue_of_settled hbody numbered settled hi
    simp only
    split
    · rfl
    · rename_i hdue
      rw [Bool.or_eq_true, not_or, Bool.not_eq_true, Bool.not_eq_true] at hdue
      exact List.map_eq_nil_iff.mpr (by_contra fun h => hnot ⟨hdue.1, hdue.2, h⟩)
  unfold Safety.decideAccesses
  rw [hnone]
  rfl

theorem decideStackGuards_of_settled (hbody : f.body = some body) (numbered : body.Numbered) (hentry : body.entry = some root)
    (settled : (∃ k, body.Marked k "stack-guard") ∨ body.Settled Tag.injected (p.Escapes c)) :
    f.decideStackGuards p c = .ok [] := by
  refine bind_eq_ok.mpr ⟨body, orRaise_eq_ok.mpr hbody, bind_eq_ok.mpr ⟨root, orRaise_eq_ok.mpr hentry, ?_⟩⟩
  have hdone : (f.hasStackGuard || (f.escapingCalls p c).isEmpty) = true := by
    rw [Bool.or_eq_true]
    rcases settled with ⟨k, b, hb, i, hi, htag⟩ | settled
    · exact .inl (List.any_eq_true.mpr
        ⟨(⟨k, i.index⟩, i), (located_iff hbody numbered.addressable).mpr ⟨b, hb, hi, rfl⟩, decide_eq_true htag⟩)
    · refine .inr (List.isEmpty_iff.mpr (List.filterMap_eq_nil_iff.mpr fun ⟨l, i⟩ hi => ?_))
      have hnot := not_isDue_of_settled hbody numbered settled hi
      simp only
      split
      · rename_i hdue
        rw [Bool.and_eq_true, Bool.not_eq_true'] at hdue
        exact absurd ⟨hdue.1, hdue.1, hdue.2⟩ hnot
      · rfl
  simp only [hdone, if_true]
  rfl

theorem decided_of_isDone (hbody : f.body = some body) (hdone : body.IsDone p c root) : p.decided c f = .ok ([], []) := by
  have hstack : ∀ ds, (do
      let stackGuards ← if c.restriction then f.decideStackGuards p c else pure []
      return (ds, stackGuards) : Outcome (List GuardDecision × List StackGuardDecision)) = .ok (ds, []) := by
    intro ds
    simp only
    split
    · rename_i h
      rw [decideStackGuards_of_settled hbody hdone.numbered hdone.simple.simplified.entry (hdone.stack h)]
      rfl
    · rfl
  unfold Program.decided
  simp only
  split
  · rename_i h
    rw [decideAccesses_of_settled hbody hdone.numbered (hdone.guarded h)]
    exact hstack []
  · exact hstack []

end Function

namespace Program

variable {p q : Program} {c : Configuration} {f g : Function} {body body' : FlowGraph} {root n : Nat} {r : GuardReport}

theorem not_accesses_phi (dst : Variable) (incoming : List (Value × Nat)) : ¬ p.Accesses c (.phi dst incoming) :=
  fun h => h rfl

theorem not_escapes_phi (dst : Variable) (incoming : List (Value × Nat)) : ¬ p.Escapes c (.phi dst incoming) :=
  Bool.false_ne_true

/-- The loops of a function keep their preheaders when it receives the guards of its accesses. -/
theorem simple_injectAll (numbered : p.Numbered) (hr : p.decideGuards c = .ok r) {name : String}
    (hf : p.function? name = some f) (hbody : f.body = some body) (hc : body.Simple root)
    (hrun : (GuardDecision.injectAll c.hooks (r.decisions.filter (·.function = f.name)) ⟨[], ∅⟩).run body =
      .ok (n, body')) : body'.Simple root := by
  obtain ⟨forest, hforest, reports⟩ :=
    LoopForest.ofGraph_total hc.wired hc.simplified.entry hc.simplified.vertex
  have entered : GuardDecision.Entered root forest ⟨[], ∅⟩ body :=
    ⟨hc, fun l hl preheader hpreheader => (reports.entered l hl preheader).mp hpreheader⟩
  refine (entered.injectAll (fun d hd header preheader hplacement => ?_) hrun).elim fun _ h => h.simple
  obtain ⟨hd, hsame⟩ := List.mem_filter.mp hd
  obtain ⟨⟨f', hf', hdecides, -⟩, -⟩ := decides_of_mem hr hd
  obtain rfl := eq_of_name numbered hf hf' (hdecides.function.symm.trans (of_decide_eq_true hsame))
  obtain ⟨-, body₁, forest', hbody₁, hforest', hl⟩ := hdecides.hoists header preheader hplacement
  cases hbody.symm.trans hbody₁
  cases hforest.symm.trans hforest'
  exact hl

/-- No access is left to decide in a function with its guards, since whatever was due has a decision. -/
theorem settled_of_injections (numbered : p.Numbered) (hr : p.decideGuards c = .ok r) {name : String}
    (hf : p.function? name = some f) (instrumented : c.instruments f) (protection : c.protection)
    (hbody : f.body = some body) {middle : FlowGraph} {u : PUnit}
    (hall : (GuardDecision.injectAll c.hooks (r.decisions.filter (·.function = f.name)) ⟨[], ∅⟩).run body =
      .ok (n, middle))
    (hstack : ((r.stackGuards.filter (·.function = f.name)).forM fun d => d.inject c.hooks).run middle =
      .ok (u, body')) : body'.Settled Tag.guarded (p.Accesses c) := by
  have numberedBody := (numbered_iff.mp numbered _ f hf).2 body hbody
  obtain ⟨ds, sds, hdecided, hds, -⟩ := exists_of_decideGuards hr (Table.mem_values_of_get? hf) instrumented
  obtain ⟨haccesses, -⟩ := decided_ok hdecided
  rw [if_pos protection] at haccesses
  have hdue : body.DueOnly Tag.guarded (p.Accesses c) fun l =>
      ∃ d ∈ r.decisions.filter (·.function = f.name), d.location = l := by
    refine Function.dueOnly_of_located hbody numberedBody fun l i hi ⟨hinjected, hguarded, hwants⟩ => ?_
    obtain ⟨⟨v, a⟩, hmem⟩ := List.exists_mem_of_ne_nil _ hwants
    have ha : (⟨l, v, a⟩ : MemoryAccess) ∈ MemoryAccess.ofFunction p c f := by
      refine List.mem_flatMap.mpr ⟨(l, i), hi, ?_⟩
      simp only [hinjected, hguarded, Bool.or_self, Bool.false_eq_true, if_false]
      exact List.mem_map.mpr ⟨(v, a), hmem, rfl⟩
    obtain ⟨d, hd, hfunction, hlocation⟩ := Safety.exists_of_decideAccesses haccesses ha
    exact ⟨d, List.mem_filter.mpr ⟨hds hd, decide_eq_true hfunction⟩, hlocation⟩
  have hmiddle : middle.Settled Tag.guarded (p.Accesses c) := by
    intro k b hb i hi hi'
    obtain ⟨⟨d, hd, hlocation⟩, hne⟩ :=
      GuardDecision.dueOnly_injectAll not_accesses_phi ⟨numberedBody, hdue⟩ hall k b hb i hi hi'
    exact hne d hd hlocation.symm
  have hnumbered := GuardDecision.indifferent_injectAll indifferent_numbered numberedBody hall
  exact (StackGuardDecision.indifferent_forM (indifferent_settled not_accesses_phi) ⟨hnumbered, hmiddle⟩ hstack).2

theorem isDone_guardFunction (numbered : p.Numbered) (hr : p.decideGuards c = .ok r) {name : String}
    (hf : p.function? name = some f) (instrumented : c.instruments f) (hbody : f.body = some body)
    (hc : body.Simple root) (reported : body.Settled Tag.tracked (ReportSite.IsReported c))
    (hg : guardFunction c r f = .ok (n, g)) : ∃ body', g = { f with body := some body' } ∧ body'.IsDone p c root := by
  have numberedBody := (numbered_iff.mp numbered _ f hf).2 body hbody
  obtain ⟨ds, sds, hdecided, hds, hsds⟩ := exists_of_decideGuards hr (Table.mem_values_of_get? hf) instrumented
  obtain ⟨-, hstacks⟩ := decided_ok hdecided
  rcases Function.guardFunction_ok hg with ⟨hnone, -⟩ | ⟨body₁, k, middle, body', hbody₁, rfl, -, hall, hstack⟩
  · rw [hbody] at hnone
    cases hnone
  cases hbody.symm.trans hbody₁
  have hsimple := simple_injectAll numbered hr hf hbody hc hall
  have hnumbered := GuardDecision.indifferent_injectAll indifferent_numbered numberedBody hall
  refine ⟨body', rfl, ?_, ?_, ?_, fun protection => ?_, fun restriction => ?_⟩
  · exact StackGuardDecision.keeps_forM (fun _ _ _ _ _ hc hinject => hc.modifyBlock hinject) hsimple hstack
  · exact StackGuardDecision.indifferent_forM indifferent_numbered hnumbered hstack
  · have keeps : Indifferent fun b => b.Numbered ∧ b.Settled Tag.tracked (ReportSite.IsReported c) :=
      indifferent_settled ReportSite.not_isReported_phi
    exact (StackGuardDecision.indifferent_forM keeps
      (GuardDecision.indifferent_injectAll keeps ⟨numberedBody, reported⟩ hall) hstack).2
  · exact settled_of_injections numbered hr hf instrumented protection hbody hall hstack
  · rw [if_pos restriction] at hstacks
    rcases Function.decideStackGuards_cases hstacks with hguard | hcalls | hne
    · obtain ⟨⟨l, i⟩, hi, htag⟩ := List.any_eq_true.mp hguard
      obtain ⟨b, hb, hi, -⟩ := (Function.located_iff hbody numberedBody.addressable).mp hi
      have keeps := indifferent_marked l.block "stack-guard"
      exact .inl ⟨l.block, (StackGuardDecision.indifferent_forM keeps (GuardDecision.indifferent_injectAll keeps
        ⟨numberedBody, b, hb, i, hi, of_decide_eq_true htag⟩ hall) hstack).2⟩
    · have keeps : Indifferent fun b => b.Numbered ∧ b.Settled Tag.injected (p.Escapes c) :=
        indifferent_settled not_escapes_phi
      have hbefore : body.Settled Tag.injected (p.Escapes c) := by
        refine Function.dueOnly_of_located hbody numberedBody fun l i hi hdue => ?_
        have hmem : l ∈ f.escapingCalls p c := by
          refine List.mem_filterMap.mpr ⟨(l, i), hi, ?_⟩
          have hescapes : p.isEscaping c i.operation = true := hdue.2.2
          simp only [hdue.1, hescapes, Bool.not_false, Bool.and_self, if_true]
        rw [hcalls] at hmem
        cases hmem
      exact .inr (StackGuardDecision.indifferent_forM keeps
        (GuardDecision.indifferent_injectAll keeps ⟨numberedBody, hbefore⟩ hall) hstack).2
    · obtain ⟨d, hd⟩ := List.exists_mem_of_ne_nil _ hne
      have hfunction : d.function = f.name := (Function.mem_decideStackGuards hstacks hd).1
      exact .inl (StackGuardDecision.marked_forM hnumbered
        (List.ne_nil_of_mem (List.mem_filter.mpr ⟨hsds hd, decide_eq_true hfunction⟩)) hstack)

end Program

structure Function.IsVersion (f g : Function) : Prop where
  name : g.name = f.name
  declared : g.isDeclaration = f.isDeclaration

theorem Function.isVersion_edit {f g : Function} {α : Type} {e : Edit α} {a : α} (h : f.edit e = .ok (a, g)) :
    f.IsVersion g := by
  obtain ⟨body, body', hbody, -, rfl⟩ := Function.edit_ok h
  exact ⟨rfl, by unfold Function.isDeclaration; rw [hbody]; rfl⟩

theorem Function.IsVersion.instruments {f g : Function} (h : f.IsVersion g) (c : Configuration) :
    c.instruments g = c.instruments f := by
  unfold Configuration.instruments
  rw [h.name, h.declared]

namespace Program

variable {p q q' : Program} {c : Configuration} {f g : Function} {α : Type} {answers : List α}

structure IsVersion (p q : Program) : Prop where
  functions : ∀ name, Option.Rel Function.IsVersion (p.function? name) (q.function? name)
  globals : q.globals = p.globals

theorem IsVersion.hasBody (h : p.IsVersion q) (name : String) : q.hasBody name = p.hasBody name := by
  have hrel := h.functions name
  unfold Program.hasBody
  generalize p.function? name = f at hrel ⊢
  generalize q.function? name = g at hrel ⊢
  cases hrel with
  | none => rfl
  | some hfg => simp only [hfg.declared]

theorem IsVersion.isSome (h : p.IsVersion q) (name : String) : (q.function? name).isSome = (p.function? name).isSome := by
  have hrel := h.functions name
  generalize p.function? name = f at hrel ⊢
  generalize q.function? name = g at hrel ⊢
  cases hrel <;> rfl

theorem IsVersion.declared (hpq : p.IsVersion q) {h : Hooks} (hp : ∀ s ∈ h.signatures, (p.function? s.1).isSome) :
    q.declareHooks h = q :=
  declareHooks_of_declared fun s hs => (hpq.isSome s.1).trans (hp s hs)

theorem IsVersion.trackedGlobals (h : p.IsVersion q) : q.trackedGlobals = p.trackedGlobals := by
  unfold Program.trackedGlobals
  rw [h.globals]

theorem IsVersion.trans (h : p.IsVersion q) (h' : q.IsVersion q') : p.IsVersion q' := by
  refine ⟨fun name => ?_, h'.globals.trans h.globals⟩
  have hrel := h.functions name
  have hrel' := h'.functions name
  generalize p.function? name = f at hrel ⊢
  generalize q.function? name = g at hrel hrel'
  generalize q'.function? name = g' at hrel' ⊢
  cases hrel with
  | none =>
    cases hrel'
    exact .none
  | some hfg =>
    cases hrel' with
    | some hgg' => exact .some ⟨hgg'.name.trans hfg.name, hgg'.declared.trans hfg.declared⟩

def Bodies (c : Configuration) (P : Nat → FlowGraph → Prop) (p : Program) : Prop :=
  ∀ name f, p.function? name = some f → c.instruments f → ∃ body root, f.body = some body ∧ P root body

section Edits

variable {e : Function → Outcome (α × Function)}

theorem isVersion_editFunctions (hedit : p.editFunctions e = .ok (answers, q))
    (he : ∀ f a g, e f = .ok (a, g) → f.IsVersion g) : p.IsVersion q := by
  obtain ⟨hglobals, hfunctions⟩ := editFunctions_ok hedit
  refine ⟨fun name => ?_, hglobals⟩
  obtain ⟨hnone, hsome⟩ := hfunctions name
  cases hf : p.function? name with
  | none =>
    rw [hnone hf]
    exact .none
  | some f =>
    obtain ⟨a, g, hg, hq⟩ := hsome f hf
    rw [hq]
    exact .some (he f a g hg)

theorem bodies_editFunctions {P : Nat → FlowGraph → Prop} (hedit : p.editFunctions e = .ok (answers, q))
    (he : ∀ f a g, e f = .ok (a, g) → f.IsVersion g)
    (hP : ∀ name f a g, p.function? name = some f → c.instruments f → e f = .ok (a, g) →
      ∃ body root, g.body = some body ∧ P root body) : q.Bodies c P := by
  intro name g hg instrumented
  obtain ⟨hnone, hsome⟩ := (editFunctions_ok hedit).2 name
  cases hf : p.function? name with
  | none =>
    rw [hnone hf] at hg
    cases hg
  | some f =>
    obtain ⟨a, g', hg', hq⟩ := hsome f hf
    cases hg.symm.trans hq
    exact hP name f a _ hf (((he f a _ hg').instruments c).symm.trans instrumented) hg'

theorem editFunctions_of_forall {a : α} (h : ∀ name f, p.function? name = some f → e f = .ok (a, f)) :
    ∃ answers, p.editFunctions e = .ok (answers, p) ∧ ∀ b ∈ answers, b = a := by
  let step (x : List α × Table String Function) (entry : String × Function) :
      Outcome (List α × Table String Function) := do
    let edited ← e entry.2
    return (edited.1 :: x.1, x.2.insert entry.1 edited.2)
  have hstep : ∀ r, ∀ entry ∈ p.functions.entries, step (r, p.functions) entry = .ok (a :: r, p.functions) := by
    intro r entry hentry
    have hget : p.functions.get? entry.1 = some entry.2 := (Table.get?_eq_some_iff ..).mpr hentry
    refine bind_eq_ok.mpr ⟨(a, entry.2), h _ _ hget, ?_⟩
    change (pure (a :: r, p.functions.insert entry.1 entry.2) : Outcome _) = _
    rw [Table.insert_of_get? hget]
    rfl
  have hfold : ∀ (l : List (String × Function)) (r : List α), l ⊆ p.functions.entries → (∀ b ∈ r, b = a) →
      ∃ r', l.foldlM step (r, p.functions) = .ok (r', p.functions) ∧ ∀ b ∈ r', b = a := by
    intro l
    induction l with
    | nil => exact fun r _ hr => ⟨r, rfl, hr⟩
    | cons entry rest ih =>
      intro r hsub hr
      obtain ⟨r', hr', hall⟩ := ih (a :: r) (fun x hx => hsub (List.mem_cons_of_mem _ hx))
        (fun b hb => (List.mem_cons.mp hb).elim id (hr b))
      refine ⟨r', ?_, hall⟩
      rw [List.foldlM_cons]
      exact bind_eq_ok.mpr ⟨_, hstep r entry (hsub List.mem_cons_self), hr'⟩
  obtain ⟨r, hr, hall⟩ := hfold p.functions.entries [] (fun _ h => h) (fun b hb => (List.not_mem_nil hb).elim)
  exact ⟨r.reverse, bind_eq_ok.mpr ⟨_, hr, rfl⟩, fun b hb => hall b (List.mem_reverse.mp hb)⟩

theorem foldl_eq_of_forall {β : Type} {op : β → α → β} {b : β} {l : List α} (h : ∀ a ∈ l, op b a = b) :
    l.foldl op b = b := by
  induction l with
  | nil => rfl
  | cons a rest ih =>
    rw [List.foldl_cons, h a List.mem_cons_self]
    exact ih fun a ha => h a (List.mem_cons_of_mem _ ha)

end Edits

end Program

def Program.Registered (c : Configuration) (p : Program) : Prop :=
  ∃ globals, p.trackedGlobals = .ok globals ∧ (globals ≠ [] →
    ∃ f body entry, p.function? c.globalInitFunction = some f ∧ f.body = some body ∧ body.entry = some entry ∧
      body.Marked entry "global")

structure Program.IsDone (c : Configuration) (q : Program) : Prop where
  declared : q.declareHooks c.hooks = q
  verified : c.verification → q.verify = .ok ()
  bodies : q.Bodies c fun root body => body.IsDone q c root
  registered : c.globals → q.Registered c

namespace Program.IsDone

variable {c : Configuration} {q : Program}

theorem decideGuards (h : q.IsDone c) : q.decideGuards c = .ok ⟨[], [], 0⟩ := by
  have hall : (q.functions.values.filter c.instruments).mapM (q.decided c) =
      .ok ((q.functions.values.filter c.instruments).map fun _ => ([], [])) := by
    refine mapM_eq_ok.mpr (List.forall₂_map_right_iff.mpr (List.forall₂_same.mpr fun f hf => ?_))
    obtain ⟨hvalue, instrumented⟩ := List.mem_filter.mp hf
    obtain ⟨name, hname⟩ := Table.mem_values_iff.mp hvalue
    obtain ⟨body, root, hbody, hdone⟩ := h.bodies name f hname instrumented
    exact Function.decided_of_isDone hbody hdone
  refine bind_eq_ok.mpr ⟨_, hall, ?_⟩
  simp only [List.flatMap_map, List.flatMap_eq_nil_iff.mpr fun _ _ => rfl]
  rfl

theorem simplifyLoops (h : q.IsDone c) : q.simplifyLoops c = .ok (0, q) := by
  obtain ⟨counts, hedit, hall⟩ := editFunctions_of_forall
    (p := q) (e := fun f => if c.instruments f then f.simplifyLoops else pure (0, f)) (a := 0) fun name f hf => by
      split
      · rename_i instrumented
        obtain ⟨body, root, hbody, hdone⟩ := h.bodies name f hf instrumented
        exact Function.edit_eq_ok hbody
          (Preheader.simplify_of_isSimplified hdone.simple.wired hdone.simple.simplified)
      · rfl
  have hcount : counts.foldl (· + ·) 0 = 0 := foldl_eq_of_forall fun n hn => by rw [hall n hn]
  refine bind_eq_ok.mpr ⟨_, hedit, ?_⟩
  simp only [hcount]
  rfl

theorem registerGlobals (h : q.IsDone c) (globals : c.globals) (log : List LogEntry) :
    (q.registerGlobals c).runFrom log = (.ok (0, q), log) := by
  obtain ⟨tracked, htracked, hregistered⟩ := h.registered globals
  unfold Program.registerGlobals
  refine lift_bind_ok.mpr ⟨tracked, htracked, ?_⟩
  by_cases hempty : tracked = []
  · rw [hempty]
    rfl
  · obtain ⟨f, body, entry, hf, hbody, hentry, hmarked⟩ := hregistered hempty
    rw [show tracked.isEmpty = false by rw [← Bool.not_eq_true, List.isEmpty_iff]; exact hempty]
    refine present_bind_ok.mpr ⟨f, hf, lift_bind_ok.mpr ⟨(0, f), ?_, ?_⟩⟩
    · exact Function.edit_eq_ok hbody (registerIn_of_marked hentry hmarked)
    · have hset : q.setFunction c.globalInitFunction f = q := by
        unfold setFunction
        rw [Table.insert_of_get? hf]
      simp only [if_true, hset]
      rfl

theorem reportAllocations (h : q.IsDone c) (log : List LogEntry) :
    (q.reportAllocations c).runFrom log = (.ok (.empty, q), log) := by
  obtain ⟨reports, hedit, hall⟩ := editFunctions_of_forall
    (p := q) (e := fun f => if c.instruments f then f.reportAllocations c else pure (.empty, f)) (a := .empty)
    fun name f hf => by
      split
      · rename_i instrumented
        obtain ⟨body, root, hbody, hdone⟩ := h.bodies name f hf instrumented
        exact ReportSite.reportAllocations_of_settled hbody hdone.numbered hdone.reported
      · rfl
  have hreport : reports.foldl AllocationReport.add .empty = .empty := foldl_eq_of_forall fun r hr => by
    rw [hall r hr]
    rfl
  unfold Program.reportAllocations
  rw [h.declared]
  refine lift_bind_ok.mpr ⟨_, hedit, ?_⟩
  simp only [hreport]
  split
  · rename_i globals
    exact runFrom_bind_ok.mpr ⟨_, log, h.registerGlobals globals log, rfl⟩
  · rfl

theorem placeGuards (h : q.IsDone c) (log : List LogEntry) :
    ∃ log', (q.placeGuards c).runFrom log = (.ok (⟨[], [], 0⟩, q), log') := by
  obtain ⟨counts, hedit, hall⟩ := editFunctions_of_forall
    (p := q) (e := guardFunction c ⟨[], [], 0⟩) (a := 0) fun _ _ _ => rfl
  have hcount : counts.foldl (· + ·) 0 = 0 := foldl_eq_of_forall fun n hn => by rw [hall n hn]
  unfold Program.placeGuards
  rw [h.declared]
  have hlast : ∀ (message : String) (r : GuardReport × Program), ∃ log', (do
      Logged.write .info message
      return r : Logged _).runFrom log = (.ok r, log') := fun _ _ => ⟨_, rfl⟩
  obtain ⟨log', hlast⟩ := hlast _ (⟨[], [], counts.foldl (· + ·) 0⟩, q)
  refine ⟨log', lift_bind_ok.mpr ⟨_, h.decideGuards, lift_bind_ok.mpr ⟨_, hedit, ?_⟩⟩⟩
  rw [hcount] at hlast
  simp only [hcount]
  exact hlast

theorem instrument (h : q.IsDone c) (log : List LogEntry) :
    ∃ log', (q.instrument c).runFrom log = (.ok (⟨0, .empty, ⟨[], [], 0⟩⟩, q), log') := by
  obtain ⟨log', hplace⟩ := h.placeGuards log
  refine ⟨log' ++ [⟨.info, InstrumentationReport.summary ⟨0, .empty, ⟨[], [], 0⟩⟩ q⟩], ?_⟩
  refine guarded_bind_ok.mpr ⟨h.verified, ?_⟩
  rw [h.declared]
  refine lift_bind_ok.mpr ⟨_, h.simplifyLoops, runFrom_bind_ok.mpr ⟨_, log, h.reportAllocations log, ?_⟩⟩
  refine runFrom_bind_ok.mpr ⟨_, log', hplace, ?_⟩
  simp only
  split
  · rename_i verification
    unfold verifyResult
    rw [h.verified verification]
    exact runFrom_bind_ok.mpr ⟨(), log', rfl, runFrom_bind_ok.mpr ⟨_, _, rfl, rfl⟩⟩
  · exact runFrom_bind_ok.mpr ⟨_, _, rfl, rfl⟩

end Program.IsDone

namespace Program

variable {p q q' : Program} {c : Configuration} {log log' : List LogEntry}

theorem Made.declareHooks (made : p.Made) (h : Hooks) : (p.declareHooks h).Made :=
  declareHooks_induction made fun _ _ _ made _ => .addFunction (fun body hbody => by cases hbody) made

theorem IsVersion.refl (p : Program) : p.IsVersion p := by
  refine ⟨fun name => ?_, rfl⟩
  cases p.function? name with
  | none => exact .none
  | some f => exact .some ⟨rfl, rfl⟩

theorem isVersion_setFunction {name : String} {f g : Function} (hf : p.function? name = some f) (hfg : f.IsVersion g) :
    p.IsVersion (p.setFunction name g) := by
  refine ⟨fun name' => ?_, rfl⟩
  have hrefl := (IsVersion.refl p).functions name'
  unfold function? setFunction at *
  rw [Table.get?_insert]
  split
  · rename_i hname
    subst hname
    rw [hf]
    exact .some hfg
  · exact hrefl

theorem simple_of_simplifyLoops (made : p.Made) {count : Nat} (hrun : p.simplifyLoops c = .ok (count, q)) :
    p.IsVersion q ∧ q.Bodies c fun root body => body.Simple root := by
  obtain ⟨⟨counts, q'⟩, hedit, hanswer⟩ := bind_eq_ok.mp hrun
  cases hanswer
  have versions : ∀ (f : Function) a g, (if c.instruments f then f.simplifyLoops else pure (0, f)) = .ok (a, g) →
      f.IsVersion g := by
    intro f a g hg
    split at hg
    · exact Function.isVersion_edit hg
    · cases hg
      exact ⟨rfl, rfl⟩
  refine ⟨isVersion_editFunctions hedit versions, bodies_editFunctions hedit versions fun name f a g hf instrumented hg => ?_⟩
  rw [if_pos instrumented] at hg
  obtain ⟨body, body', hbody, hsimplify, rfl⟩ := Function.edit_ok hg
  have hmade := made.body hf body hbody
  obtain ⟨root, hsimplified, wired⟩ := Preheader.isSimplified_of_simplify hmade.wired (fun entry hentry => by
    obtain ⟨b, hb⟩ := hmade.started entry hentry
    exact Option.isSome_iff_exists.mpr ⟨b, block_eq_ok.mp hb⟩) hsimplify
  exact ⟨body', root, rfl, wired, hsimplified⟩

theorem registered_of_registerGlobals {count : Nat} (hrun : (p.registerGlobals c).runFrom log = (.ok (count, q), log'))
    (hp : p.Bodies c fun root body => body.Simple root ∧ body.Settled Tag.tracked (ReportSite.IsReported c)) :
    p.IsVersion q ∧ q.Bodies c (fun root body => body.Simple root ∧ body.Settled Tag.tracked (ReportSite.IsReported c)) ∧
      q.Registered c := by
  obtain ⟨globals, htracked, ⟨rfl, -, rfl⟩ | ⟨hnonempty, f, f', hf, hf', hq⟩⟩ := registerGlobals_ok hrun
  · exact ⟨.refl _, hp, [], htracked, fun hne => absurd rfl hne⟩
  · have version := Function.isVersion_edit hf'
    obtain ⟨body, body', hbody, hregister, rfl⟩ := Function.edit_ok hf'
    have hversion := isVersion_setFunction hf version
    rw [← hq] at hversion
    have hset : ∀ name, q.function? name =
        if name = c.globalInitFunction then some { f with body := some body' } else p.function? name := by
      intro name
      rw [hq]
      exact Table.get?_insert ..
    obtain ⟨entry, hentry, hmarked⟩ := marked_registerIn hnonempty hregister
    refine ⟨hversion, fun name g hg instrumented => ?_, globals, hversion.trackedGlobals.trans htracked,
      fun _ => ⟨_, body', entry, (hset _).trans (if_pos rfl), rfl, hentry, hmarked⟩⟩
    rw [hset] at hg
    split at hg
    · cases hg
      obtain ⟨body₀, root, hbody₀, hsimple, hsettled⟩ := hp _ f hf ((version.instruments c).symm.trans instrumented)
      cases hbody.symm.trans hbody₀
      refine ⟨body', root, rfl, ?_⟩
      obtain ⟨_, _, -, -, ⟨-, -, rfl⟩ | ⟨-, hinject⟩⟩ := registerIn_ok hregister
      · exact ⟨hsimple, hsettled⟩
      · exact ⟨hsimple.modifyBlock hinject, DueOnly.inject hsettled hinject⟩
    · exact hp name g hg instrumented

theorem settled_of_reportAllocations (numbered : p.Numbered) (declared : p.declareHooks c.hooks = p)
    (hp : p.Bodies c fun root body => body.Simple root) {report : AllocationReport}
    (hrun : (p.reportAllocations c).runFrom log = (.ok (report, q), log')) :
    p.IsVersion q ∧ q.Bodies c (fun root body => body.Simple root ∧ body.Settled Tag.tracked (ReportSite.IsReported c)) ∧
      (c.globals → q.Registered c) := by
  obtain ⟨reports, q₁, hedit, hrest⟩ := reportAllocations_ok hrun
  rw [declared] at hedit
  have versions : ∀ (f : Function) a g, (if c.instruments f then f.reportAllocations c else pure (.empty, f)) = .ok (a, g) →
      f.IsVersion g := by
    intro f a g hg
    split at hg
    · exact Function.isVersion_edit hg
    · cases hg
      exact ⟨rfl, rfl⟩
  have hversion := isVersion_editFunctions hedit versions
  have hbodies : q₁.Bodies c fun root body => body.Simple root ∧ body.Settled Tag.tracked (ReportSite.IsReported c) := by
    refine bodies_editFunctions hedit versions fun name f a g hf instrumented hg => ?_
    rw [if_pos instrumented] at hg
    obtain ⟨body, root, hbody, hsimple⟩ := hp name f hf instrumented
    obtain ⟨body', rfl, hsimple', -, hsettled⟩ :=
      ReportSite.settled_reportAllocations hbody hsimple ((numbered_iff.mp numbered _ f hf).2 body hbody) hg
    exact ⟨body', root, rfl, hsimple', hsettled⟩
  rcases hrest with ⟨-, count, hglobals, -⟩ | ⟨hglobals, rfl, -⟩
  · obtain ⟨hversion', hbodies', hregistered⟩ := registered_of_registerGlobals hglobals hbodies
    exact ⟨hversion.trans hversion', hbodies', fun _ => hregistered⟩
  · exact ⟨hversion, hbodies, fun h => by rw [hglobals] at h; cases h⟩

end Program

theorem FlowGraph.IsDone.congr {p q : Program} {c : Configuration} {root : Nat} {body : FlowGraph} (h : body.IsDone p c root)
    (version : p.IsVersion q) : body.IsDone q c root := by
  have hescaping := Program.isEscaping_congr (c := c) version.hasBody
  refine ⟨h.simple, h.numbered, h.reported, ?_, ?_⟩
  · rw [Program.accesses_congr hescaping]
    exact h.guarded
  · unfold Program.Escapes
    rw [hescaping]
    exact h.stack

namespace Program

variable {p q : Program} {c : Configuration} {log log' : List LogEntry} {report : InstrumentationReport}

theorem verified_of_instrument (hrun : (p.instrument c).runFrom log = (.ok (report, q), log')) :
    c.verification → q.verify = .ok () := by
  intro verification
  obtain ⟨-, hrun⟩ := guarded_bind_ok.mp hrun
  obtain ⟨⟨preheaders, p₁⟩, -, hrun⟩ := lift_bind_ok.mp hrun
  obtain ⟨⟨allocation, p₂⟩, log₁, -, hrun⟩ := runFrom_bind_ok.mp hrun
  obtain ⟨⟨guards, p₃⟩, log₂, -, hrun⟩ := runFrom_bind_ok.mp hrun
  simp only [verification, if_true] at hrun
  obtain ⟨_, log₃, hverify, hrun⟩ := runFrom_bind_ok.mp hrun
  obtain ⟨_, log₄, -, hrun⟩ := runFrom_bind_ok.mp hrun
  cases hrun
  unfold verifyResult at hverify
  split at hverify
  · obtain ⟨_, log₅, -, hraise⟩ := runFrom_bind_ok.mp hverify
    cases hraise
  · exact congrArg Prod.fst hverify

theorem settled_of_prepare (made : p.Made) (hrun : (p.prepare c).runFrom log = (.ok q, log')) :
    q.declareHooks c.hooks = q ∧ (∀ s ∈ c.hooks.signatures, (q.function? s.1).isSome) ∧
      q.Bodies c (fun root body => body.Simple root ∧ body.Settled Tag.tracked (ReportSite.IsReported c)) ∧
      (c.globals → q.Registered c) := by
  have made₀ := made.declareHooks c.hooks
  have declared₀ := (function?_declareHooks p c.hooks).2
  obtain ⟨-, hrun⟩ := guarded_bind_ok.mp hrun
  obtain ⟨⟨preheaders, p₁⟩, hsimplify, hrun⟩ := lift_bind_ok.mp hrun
  obtain ⟨⟨allocation, p₂⟩, log₁, hreport, hrun⟩ := runFrom_bind_ok.mp hrun
  obtain ⟨version₁, simple₁⟩ := simple_of_simplifyLoops made₀ hsimplify
  have numbered₁ := numbered_of_simplifyLoops made₀.numbered hsimplify
  obtain ⟨version₂, settled₂, registered₂⟩ :=
    settled_of_reportAllocations numbered₁ (version₁.declared declared₀) simple₁ hreport
  have declared₂ := (version₁.trans version₂).declared declared₀
  simp only [declared₂, runFrom_pure, Prod.mk.injEq, Except.ok.injEq] at hrun
  obtain ⟨rfl, -⟩ := hrun
  exact ⟨declared₂, fun s hs => ((version₁.trans version₂).isSome s.1).trans (declared₀ s hs), settled₂, registered₂⟩

section Guards

variable {f g : Function} {n : Nat} {r : GuardReport}

theorem isVersion_guardFunction (hg : guardFunction c r f = .ok (n, g)) : f.IsVersion g := by
  rcases Function.guardFunction_ok hg with ⟨-, rfl, -⟩ | ⟨body, _, _, body', hbody, rfl, -⟩
  · exact ⟨rfl, rfl⟩
  · exact ⟨rfl, by unfold Function.isDeclaration; rw [hbody]; rfl⟩

theorem steadfast_guardFunction {k : Nat} {P : FlowGraph → Prop} (hP : Steadfast c.hooks k P) {body : FlowGraph}
    (hbody : f.body = some body) (hc : P body) (hg : guardFunction c r f = .ok (n, g)) :
    ∃ body', g.body = some body' ∧ P body' := by
  rcases Function.guardFunction_ok hg with ⟨hnone, -⟩ | ⟨body₁, _, _, body', hbody₁, rfl, -, hall, hstack⟩
  · rw [hbody] at hnone
    cases hnone
  · cases hbody.symm.trans hbody₁
    exact ⟨body', rfl, StackGuardDecision.steadfast_forM hP (GuardDecision.steadfast_injectAll hP hc hall) hstack⟩

theorem indifferent_guardFunction {P : FlowGraph → Prop} (hP : Indifferent P) {body : FlowGraph} (hbody : f.body = some body)
    (hc : P body) (hg : guardFunction c r f = .ok (n, g)) : ∃ body', g.body = some body' ∧ P body' :=
  steadfast_guardFunction (hP.steadfast c.hooks) hbody hc hg

end Guards

theorem isDone_of_instruments (made : p.Made) (hq : p.Instruments c report q) : q.IsDone c := by
  obtain ⟨log, log', hrun⟩ := hq
  obtain ⟨log₁, p₁, r, counts, hprepare, hdecide, hedit, -, -⟩ := instrument_ok hrun
  obtain ⟨-, declared₁, settled₁, registered₁⟩ := settled_of_prepare made hprepare
  have numbered₁ := numbered_of_prepare made.numbered hprepare
  have versions : ∀ f a g, guardFunction c r f = .ok (a, g) → f.IsVersion g := fun _ _ _ => isVersion_guardFunction
  have version := isVersion_editFunctions hedit versions
  refine ⟨version.declared declared₁, verified_of_instrument hrun, ?_, fun globals => ?_⟩
  · refine bodies_editFunctions hedit versions fun name f a g hf instrumented hg => ?_
    obtain ⟨body, root, hbody, hsimple, hsettled⟩ := settled₁ name f hf instrumented
    obtain ⟨body', rfl, hdone⟩ := isDone_guardFunction numbered₁ hdecide hf instrumented hbody hsimple hsettled hg
    exact ⟨body', root, rfl, hdone.congr version⟩
  · obtain ⟨tracked, htracked, hmarked⟩ := registered₁ globals
    refine ⟨tracked, version.trackedGlobals.trans htracked, fun hne => ?_⟩
    obtain ⟨f, body, entry, hf, hbody, hentry, hmarked⟩ := hmarked hne
    obtain ⟨a, g, hg, hq⟩ := ((editFunctions_ok hedit).2 _).2 f hf
    obtain ⟨body', hbody', hentry', -, hmarked'⟩ :=
      indifferent_guardFunction (indifferent_and (indifferent_entry entry) (indifferent_marked entry "global")) hbody
        ⟨hentry, (numbered_iff.mp numbered₁ _ f hf).2 body hbody, hmarked⟩ hg
    exact ⟨g, body', entry, hq, hbody', hentry', hmarked'⟩

/-- Whatever instrumentation answers with, instrumenting that again with the same configuration succeeds, finds nothing to
do, and gives the same program. -/
theorem instrument_again (built : p.Built) (numbered : p.Numbered) (hq : p.Instruments c report q) (log : List LogEntry) :
    ((q.instrument c).runFrom log).1 = .ok (⟨0, .empty, ⟨[], [], 0⟩⟩, q) := by
  obtain ⟨log', hrun⟩ := (isDone_of_instruments ⟨built, numbered⟩ hq).instrument log
  rw [hrun]

end Program

/-- A loop that may not run at all, in front of it a branch, and calls of an allocator and of code out of sight; a global
is there to be registered. -/
def fillsBlock : Program :=
  let word := fun name => (⟨name, .integer 64⟩ : Variable)
  let pointer := fun name => (⟨name, .pointer⟩ : Variable)
  let n : Value := .argument ⟨0, "n", .integer 64⟩
  let wanted : Variable := ⟨"wanted", .integer 1⟩
  let again : Variable := ⟨"again", .integer 1⟩
  (Program.ofFunctions [
    .ofCode "main" [⟨0, "n", .integer 64⟩]
      [[.call (some (pointer "p")) (.direct "malloc") [n],
        .store (.global "latest") (.variable (pointer "p")),
        .compare wanted .ult (.ofWord 4 64) n],
        [.phi (word "i") [(.ofWord 0 64, 0), (.variable (word "next"), 2)],
          .compare again .ult (.variable (word "i")) n],
        [.elementPtr (pointer "q") (.variable (pointer "p")) (.integer 8) [.variable (word "i")] false,
          .store (.variable (pointer "q")) (.ofWord 7 8),
          .binary (word "next") .add (.variable (word "i")) (.ofWord 1 64)],
        [.call none (.direct "publish") [.variable (pointer "p")],
          .ret none]]
      [(0, 1, some (.isTrue (.variable wanted))), (0, 3, some (.isFalse (.variable wanted))),
        (1, 2, some (.isTrue (.variable again))), (1, 3, some (.isFalse (.variable again))), (2, 1, none)],
    .declaration "malloc" [⟨0, "size", .integer 64⟩] .pointer,
    .declaration "publish" [⟨0, "p", .pointer⟩] .void]).addGlobal ⟨"latest", .pointer, .external, true⟩

namespace Trial

def reports (x : Trial) (P : InstrumentationReport → Bool) : Bool := x.instrumented?.any fun (report, _) => P report

theorem exists_of_reports {x : Trial} {P : InstrumentationReport → Bool} (h : x.reports P) :
    ∃ report q, x.program.Instruments x.configuration report q ∧ P report := by
  obtain ⟨⟨report, q⟩, hq, h⟩ := (Option.any_eq_true ..).mp h
  exact ⟨report, q, instruments_of_instrumented? hq, h⟩

end Trial

/-- A preheader, reports, a registration, the guards of a range and a guard of the stack are all found the second time. -/
theorem instrument_again_fillsBlock :
    ∃ report q, fillsBlock.Built ∧ fillsBlock.Numbered ∧ fillsBlock.Instruments .default report q ∧
      (report.preheaders = 1 ∧ report.allocation = ⟨1, 0, 1, 1⟩ ∧ report.guards.injected = 3 ∧
        report.guards.count .inductionHoist = 1 ∧ report.guards.stackGuards.length = 1) ∧
      ((q.instrument .default).runFrom []).1 = .ok (⟨0, .empty, ⟨[], [], 0⟩⟩, q) := by
  have made : fillsBlock.Made := by
    refine .addGlobal (Program.made_of_ofFunctions fun f hf => ?_)
    rcases List.mem_cons.mp hf with rfl | hf
    · exact Function.made_of_ofCode
    · rcases List.mem_cons.mp hf with rfl | hf
      · rintro _ ⟨⟩
      · cases List.mem_singleton.mp hf
        rintro _ ⟨⟩
  have hreports : (Trial.mk fillsBlock .default "main" []).reports fun report =>
      report.preheaders = 1 ∧ report.allocation = ⟨1, 0, 1, 1⟩ ∧ report.guards.injected = 3 ∧
        report.guards.count .inductionHoist = 1 ∧ report.guards.stackGuards.length = 1 := by
    decide +kernel
  obtain ⟨report, q, hq, hreport⟩ := Trial.exists_of_reports hreports
  exact ⟨report, q, made.built, made.numbered, hq, of_decide_eq_true hreport,
    Program.instrument_again made.built made.numbered hq []⟩

/-- Where two stores share a number, or where one has the number that the report of the other gets, the second run reports a
store that the first one has reported already. -/
theorem instrument_again_reports :
    ((storesUnder [2, 2, 3]).Built ∧ ∃ report q report' q', (storesUnder [2, 2, 3]).Instruments .default report q ∧
      ((q.instrument .default).runFrom []).1 = .ok (report', q') ∧ report'.allocation.escapes = 1 ∧ q' ≠ q) ∧
    ((storesUnder [0, 3, 1]).Built ∧ ∃ report q report' q', (storesUnder [0, 3, 1]).Instruments .default report q ∧
      ((q.instrument .default).runFrom []).1 = .ok (report', q') ∧ report'.allocation.escapes = 1 ∧ q' ≠ q) := by
  have again : ∀ numbers ∈ [[2, 2, 3], [0, 3, 1]],
      (Trial.mk (storesUnder numbers) .default "main" []).instrumented?.any fun (_, q) =>
        ((q.instrument .default).runFrom []).1.toOption.any fun (report', q') =>
          report'.allocation.escapes = 1 ∧ q' ≠ q := by
    decide +kernel
  have found : ∀ numbers ∈ [[2, 2, 3], [0, 3, 1]], (storesUnder numbers).Built ∧
      ∃ report q report' q', (storesUnder numbers).Instruments .default report q ∧
        ((q.instrument .default).runFrom []).1 = .ok (report', q') ∧ report'.allocation.escapes = 1 ∧ q' ≠ q := by
    intro numbers hnumbers
    obtain ⟨⟨report, q⟩, hq, hagain⟩ := (Option.any_eq_true ..).mp (again numbers hnumbers)
    obtain ⟨⟨report', q'⟩, hq', hagain⟩ := (Option.any_eq_true ..).mp hagain
    exact ⟨built_storesUnder numbers, report, q, report', q', Trial.instruments_of_instrumented? hq,
      toOption_eq_some.mp hq', of_decide_eq_true hagain⟩
  exact ⟨found _ (by simp), found _ (by simp)⟩

def namesTemporary : Program :=
  let pointer := fun name => (⟨name, .pointer⟩ : Variable)
  .ofFunctions [
    .ofCode "main" []
      [[.binary (.temporary 0 (.integer 64)) .add (.ofWord 1 64) (.ofWord 2 64),
        .call (some (pointer "p")) (.direct "malloc") [.ofWord 16 64],
        .elementPtr (pointer "q") (.variable (pointer "p")) (.integer 8) [.ofWord 3 64] false,
        .store (.variable (pointer "q")) (.ofWord 7 8),
        .ret none]]
      [],
    .declaration "malloc" [⟨0, "size", .integer 64⟩] .pointer]

theorem instrumented_program_rejected :
    namesTemporary.verify = .ok () ∧ Configuration.default.verification = true ∧
      ((namesTemporary.instrument .default).runFrom []).1 =
        .error (.error (.verification "main" (.duplicateDefinition (.temporary 0 (.integer 64)) "main"))) := by
  decide +kernel

end RegionGuard

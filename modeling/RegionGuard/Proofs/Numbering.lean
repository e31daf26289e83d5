import RegionGuard.Instrument.Pipeline
import RegionGuard.Proofs.Drafts
import RegionGuard.Proofs.Related
import RegionGuard.Proofs.Temporaries
set_option autoImplicit false

namespace RegionGuard

namespace Graph

variable {ν ε : Type} [Arc ε] {g g' : Graph ν ε} {e : ε}

theorem vertices_of_insertEdge (h : g.insertEdge e = .ok g') : g'.vertices = g.vertices := by
  unfold insertEdge at h
  simp only at h
  split at h
  · cases h
  · split at h
    · cases h
    · split at h
      · cases h
      · cases h
        rfl

omit [Arc ε] in
theorem vertices_of_removeEdge {head tail : Nat} (h : g.removeEdge head tail = .ok (e, g')) :
    g'.vertices = g.vertices := by
  obtain ⟨e', -, h⟩ := bind_eq_ok.mp h
  cases h
  rfl

end Graph

namespace FlowGraph

variable {c c' : FlowGraph}

theorem numbered_of_vertices (hc : c.Numbered) (h : c'.graph.vertices = c.graph.vertices) : c'.Numbered := by
  unfold Numbered
  rw [h]
  exact hc

theorem temp_vertices {ty : Ty} {v : Variable} (h : c.temp ty = .ok (v, c')) : c'.graph = c.graph := by
  obtain ⟨next, -, h⟩ := bind_eq_ok.mp h
  cases h
  rfl

theorem insertEdge_vertices {head tail : Nat} {condition : Option Condition}
    (h : c.insertEdge head tail condition = .ok c') : c'.graph.vertices = c.graph.vertices := by
  obtain ⟨g, hg, h⟩ := bind_eq_ok.mp h
  cases h
  exact Graph.vertices_of_insertEdge hg

theorem removeEdge_vertices {head tail : Nat} {e : Edge} (h : c.removeEdge head tail = .ok (e, c')) :
    c'.graph.vertices = c.graph.vertices := by
  obtain ⟨⟨e', g⟩, hg, h⟩ := bind_eq_ok.mp h
  cases h
  exact Graph.vertices_of_removeEdge hg

theorem numbered_of_newBlock {k : Nat} (hc : c.Numbered) (h : c.newBlock = .ok (k, c')) : c'.Numbered := by
  obtain ⟨next, -, h⟩ := bind_eq_ok.mp h
  obtain ⟨g, hg, h⟩ := bind_eq_ok.mp h
  cases h
  unfold Graph.insertVertex at hg
  simp only at hg
  split at hg
  · cases hg
  · cases hg
    refine numbered_of_vertices
      (numbered_of_setVertex (k := c.nextBlock) (b := .make c.nextBlock) hc rfl ?_) rfl
    exact ⟨fun i hi => (List.not_mem_nil hi).elim, List.nodup_nil⟩

theorem numbered_of_appendDraft {k : Nat} {d : Draft} (hc : c.Numbered)
    (h : appendDraft k c d = .ok c') : c'.Numbered := by
  refine numbered_of_modifyBlock (fun b b' hb hb' => ⟨?_, ?_⟩) hc h
  · exact Block.numbered_of_insertWith (Instruction.setTags_index _ _) hb hb'
  · rw [(Block.insertWith_ok hb').2]

theorem numbered_of_build {blocks : List (List Draft)} {edges : List (Nat × Nat × Option Condition)}
    {entry : Option Nat} (h : build blocks edges entry = .ok c) : c.Numbered := by
  obtain ⟨c₁, hblocks, h⟩ := bind_eq_ok.mp h
  obtain ⟨c₂, hedges, h⟩ := bind_eq_ok.mp h
  have hempty : empty.Numbered := fun e he => (List.not_mem_nil he).elim
  have h₁ : c₁.Numbered := by
    refine foldlM_induction (P := FlowGraph.Numbered) (fun c drafts c' hc hdrafts => ?_) hempty hblocks
    obtain ⟨⟨k, c₀⟩, hnew, hdrafts⟩ := bind_eq_ok.mp hdrafts
    exact foldlM_induction (fun _ _ _ hc hd => numbered_of_appendDraft hc hd)
      (numbered_of_newBlock hc hnew) hdrafts
  have h₂ : c₂.Numbered := foldlM_induction
    (fun c e c' hc he => numbered_of_vertices hc (insertEdge_vertices he)) h₁ hedges
  cases entry with
  | none =>
    cases h
    exact h₂
  | some e =>
    change c₂.setEntry e = .ok c at h
    unfold setEntry at h
    split at h
    · cases h
      exact h₂
    · cases h

end FlowGraph

namespace Edit

open FlowGraph

theorem keeps_temp (ty : Ty) : Keeps Numbered (eval (·.temp ty)) :=
  Keeps.eval fun _ _ _ hc h => numbered_of_vertices hc (congrArg Graph.vertices (temp_vertices h))

theorem keeps_newBlock : Keeps Numbered (eval FlowGraph.newBlock) :=
  Keeps.eval fun _ _ _ hc h => numbered_of_newBlock hc h

theorem keeps_insertEdge (head tail : Nat) (condition : Option Condition) :
    Keeps Numbered (step (·.insertEdge head tail condition)) :=
  Keeps.step fun _ _ hc h => numbered_of_vertices hc (insertEdge_vertices h)

theorem keeps_modifyBlock (k : Nat) {f : Block → Outcome Block}
    (hf : ∀ b b', b.Numbered → f b = .ok b' → b'.Numbered ∧ b'.index = b.index) :
    Keeps Numbered (step (·.modifyBlock k f)) :=
  Keeps.step fun _ _ hc h => numbered_of_modifyBlock hf hc h

theorem keeps_modifyInstruction (l : Location) {f : Instruction → Instruction}
    (hf : ∀ i, (f i).index = i.index) : Keeps Numbered (step (·.modifyInstruction l f)) :=
  keeps_modifyBlock l.block fun b b' hb h =>
    ⟨Block.numbered_of_modify hf hb h, by rw [(Block.modify_ok hb h).2]⟩

theorem keeps_setTag (l : Location) (key value : String) :
    Keeps Numbered (step (·.modifyInstruction l (·.setTag key value))) :=
  keeps_modifyInstruction (f := (·.setTag key value)) l fun _ => rfl

theorem keeps_inject (k : Nat) (position : Block → Nat) (tags : List (String × String))
    (operations : List Operation) :
    Keeps Numbered (step (·.modifyBlock k fun b => b.inject (position b) tags operations)) :=
  keeps_modifyBlock k fun b b' hb h =>
    ⟨Block.numbered_of_inject hb h, by rw [Block.inject_ok h]⟩

end Edit

namespace Block

theorem insertOperation_eq_inject (b : Block) (position : Nat) (o : Operation) :
    b.insertOperation position o = b.inject position [] [o] := by
  unfold insertOperation inject inject
  exact (bind_pure _).symm

end Block

namespace Preheader

open FlowGraph Edit

theorem redirect_vertices {head oldTail newTail : Nat} {c c' : FlowGraph} {u : Unit}
    (hrun : (redirect head oldTail newTail).run c = .ok (u, c')) : c'.graph.vertices = c.graph.vertices := by
  have h := Edit.step_ok.mp hrun
  unfold redirectEdge at h
  cases hr : c.graph.removeEdge head oldTail with
  | error e =>
    rw [hr] at h
    cases h
  | ok removed =>
    rw [hr] at h
    simp only at h
    split at h
    · cases h
    · rename_i g' hg'
      cases h
      exact (Graph.vertices_of_insertEdge hg').trans (Graph.vertices_of_removeEdge hr)

theorem keeps_redirect (head oldTail newTail : Nat) : Keeps Numbered (redirect head oldTail newTail) :=
  fun _ _ _ hc hrun => numbered_of_vertices hc (redirect_vertices hrun)

theorem keeps_merge (preheader : Nat) (dst : Variable) (arriving : List (Value × Nat)) :
    Keeps Numbered (merge preheader dst arriving) := by
  unfold merge
  split
  · exact Keeps.answer _
  · refine (keeps_temp dst.ty).bind fun temp => Keeps.bind ?_ fun _ => Keeps.answer _
    simp only [Block.insertOperation_eq_inject]
    exact keeps_inject _ _ _ _

theorem setIncoming_index (incoming : List (Value × Nat)) (i : Instruction) :
    (setIncoming incoming i).index = i.index := by
  unfold setIncoming
  split <;> rfl

theorem keeps_reroute (header preheader : Nat) (outside : List Nat) (i : Instruction) :
    Keeps Numbered (reroute header preheader outside i) := by
  unfold reroute
  split
  · simp only
    split
    · exact Keeps.answer _
    · exact (keeps_merge _ _ _).bind fun _ => keeps_modifyInstruction _ (setIncoming_index _)
  · exact Keeps.answer _

theorem keeps_insert (header : Nat) (outside : List Nat) : Keeps Numbered (insert header outside) :=
  keeps_newBlock.bind fun preheader =>
    (Keeps.forIn fun head _ => keeps_redirect head header preheader).bind fun _ =>
      (keeps_insertEdge _ _ _).bind fun _ => (Keeps.ask _).bind fun _ =>
        (Keeps.forIn fun i _ => keeps_reroute header preheader outside i).bind fun _ => Keeps.answer _

theorem keeps_simplify_of {P : FlowGraph → Prop} (hinsert : ∀ header outside, Keeps P (insert header outside)) :
    Keeps P simplify := by
  suffices hall : ∀ rounds skipped, Keeps P (insertAll rounds skipped) by
    unfold simplify
    exact Keeps.read.bind fun c => hall _ _
  intro rounds
  induction rounds with
  | zero => exact fun _ => Keeps.fail _
  | succ rounds ih =>
    intro skipped
    refine (Keeps.ask _).bind fun forest => ?_
    split
    · exact Keeps.answer _
    · refine (Keeps.ask _).bind fun predecessors => ?_
      simp only
      split
      · exact ih _
      · exact (hinsert _ _).bind fun _ => (ih skipped).bind fun _ => Keeps.answer _

theorem keeps_simplify : Keeps Numbered simplify := keeps_simplify_of keeps_insert

end Preheader

theorem Edit.keeps_collect {α : Type} {Q : Operation → Prop} {x : Drafting α} (hx : x.Adds 0 Q) :
    Edit.Keeps FlowGraph.Numbered x.collect := by
  intro c r c' hc h
  obtain ⟨a, operations⟩ := r
  obtain ⟨-, next, -, rfl⟩ := hx.collect_ok (Nat.zero_le _) h
  exact FlowGraph.numbered_of_vertices hc rfl

namespace ReportSite

open FlowGraph Edit Drafting

section Reports

variable {n : Nat} {Q : Operation → Prop}

theorem adds_argument (l : Location) (arguments : List Value) (index : Nat) : Adds n Q (argument l arguments index) := by
  unfold argument
  cases arguments[index]? with
  | none => exact Adds.fail _
  | some v => exact Adds.answer v

theorem adds_widen
    (casts : ∀ number kind v, n ≤ number → kind ≠ .bitcast → Q (.cast (.temporary number (.integer 64)) kind v))
    (v : Value) : Adds n Q (widen v) := by
  unfold widen
  split
  · exact Adds.answer _
  · split
    · exact Adds.compute fun _ hk => casts _ _ _ hk (by decide)
    · split
      · exact Adds.compute fun _ hk => casts _ _ _ hk (by decide)
      · exact Adds.answer _
  · exact Adds.answer _

def hook (h : Hooks) : ReportSite → String
  | .allocation .malloc .. => h.notifyMalloc
  | .allocation .calloc .. => h.notifyCalloc
  | .allocation .realloc .. => h.notifyRealloc
  | .free _ => h.notifyFree
  | .escape _ => h.notifyEscape

theorem hook_mem_names (h : Hooks) (s : ReportSite) : s.hook h ∈ h.names := by
  cases s with
  | allocation kind dst arguments => cases kind <;> simp [hook, Hooks.names]
  | free pointer => simp [hook, Hooks.names]
  | escape destination => simp [hook, Hooks.names]

theorem adds_operations_hook {h : Hooks} (s : ReportSite)
    (casts : ∀ number kind v, n ≤ number → kind ≠ .bitcast → Q (.cast (.temporary number (.integer 64)) kind v))
    (calls : ∀ arguments, Q (.notify (s.hook h) arguments)) (l : Location) : Adds n Q (s.operations h l) := by
  have notifies : ∀ arguments, Adds n Q (perform (.notify (s.hook h) arguments)) :=
    fun arguments => Adds.perform (calls arguments)
  have widens := adds_widen casts
  have arg := fun arguments index => adds_argument (n := n) (Q := Q) l arguments index
  cases s with
  | allocation kind dst arguments =>
    cases kind with
    | malloc => exact (arg _ _).bind fun _ => (widens _).bind fun _ => notifies _
    | calloc =>
      exact (arg _ _).bind fun _ => (widens _).bind fun _ => (arg _ _).bind fun _ =>
        (widens _).bind fun _ => notifies _
    | realloc =>
      exact (arg _ _).bind fun _ => (arg _ _).bind fun _ => (widens _).bind fun _ => notifies _
  | free pointer => exact notifies _
  | escape destination => exact notifies _

theorem adds_operations {h : Hooks}
    (casts : ∀ number kind v, n ≤ number → kind ≠ .bitcast → Q (.cast (.temporary number (.integer 64)) kind v))
    (calls : ∀ name ∈ h.names, ∀ arguments, Q (.notify name arguments)) (l : Location) (s : ReportSite) :
    Adds n Q (s.operations h l) :=
  adds_operations_hook s casts (calls _ (hook_mem_names h s)) l

end Reports

theorem keeps_report (h : Hooks) (l : Location) (s : ReportSite) : Keeps Numbered (s.report h l) := by
  have hoperations : Adds 0 (fun _ => True) (s.operations h l) :=
    adds_operations (fun _ _ _ _ _ => trivial) (fun _ _ _ => trivial) l s
  refine (keeps_collect hoperations).bind fun _ => (Keeps.ask _).bind fun position =>
    keeps_modifyBlock l.block fun b b' hb hb' => ?_
  obtain ⟨injected, hinjected, hb'⟩ := bind_eq_ok.mp hb'
  have hnumbered := Block.numbered_of_inject hb hinjected
  refine ⟨Block.numbered_of_modify (f := (·.setTag Tag.tracked s.tag)) (fun _ => rfl) hnumbered hb', ?_⟩
  rw [(Block.modify_ok hnumbered hb').2, Block.inject_ok hinjected]

end ReportSite

namespace Program

variable {p q : Program}

/-- Functions stand under their names, and their bodies are numbered. -/
def Numbered (p : Program) : Prop :=
  ∀ e ∈ p.functions.entries, e.2.name = e.1 ∧ ∀ c ∈ e.2.body, c.Numbered

instance (p : Program) : Decidable p.Numbered := inferInstanceAs (Decidable (∀ e ∈ _, _))

theorem numbered_iff :
    p.Numbered ↔ ∀ name f, p.function? name = some f → f.name = name ∧ ∀ c ∈ f.body, c.Numbered := by
  simp only [function?, Table.get?_eq_some_iff]
  exact ⟨fun h name f hf => h (name, f) hf, fun h e he => h e.1 e.2 he⟩

/-- Editing entries one after the other leaves the result of each under its key. -/
theorem foldlM_edit {α : Type} {f : Function → Outcome (α × Function)} (name : String)
    {entries : List (String × Function)} (sorted : entries.Pairwise fun a b => compare a.1 b.1 = .lt)
    {r r' : List α} {t t' : Table String Function}
    (h : entries.foldlM (fun (r, t) (name, g) => do
      let (a, g') ← f g
      return (a :: r, t.insert name g')) (r, t) = (.ok (r', t') : Outcome _)) :
    (entries.lookup name = none → t'.get? name = t.get? name) ∧
      ∀ g, entries.lookup name = some g → ∃ a g', f g = .ok (a, g') ∧ t'.get? name = some g' := by
  induction entries generalizing r t with
  | nil =>
    cases h
    refine ⟨fun _ => rfl, fun g hg => ?_⟩
    cases hg
  | cons e rest ih =>
    rw [List.pairwise_cons] at sorted
    rw [List.foldlM_cons] at h
    obtain ⟨⟨r₁, t₁⟩, hfirst, h⟩ := bind_eq_ok.mp h
    obtain ⟨⟨a, g'⟩, hg', hfirst⟩ := bind_eq_ok.mp hfirst
    cases hfirst
    obtain ⟨hnone, hsome⟩ := ih sorted.2 h
    rw [Table.lookup_cons_if]
    by_cases hname : name = e.1
    · have hrest : rest.lookup name = none := by
        cases hl : rest.lookup name with
        | none => rfl
        | some g =>
          have lt := sorted.1 _ ((Table.lookup_eq_some_iff sorted.2 name g).mp hl)
          rw [hname] at lt
          simp at lt
      rw [if_pos hname]
      refine ⟨fun hn => (by cases hn), fun g hg => ?_⟩
      cases hg
      exact ⟨a, g', hg', by rw [hnone hrest, Table.get?_insert, if_pos hname]⟩
    · rw [if_neg hname]
      refine ⟨fun hn => ?_, hsome⟩
      rw [hnone hn, Table.get?_insert, if_neg hname]

theorem editFunctions_ok {α : Type} {f : Function → Outcome (α × Function)} {answers : List α}
    (h : p.editFunctions f = .ok (answers, q)) :
    q.globals = p.globals ∧ ∀ name,
      (p.function? name = none → q.function? name = none) ∧
        ∀ g, p.function? name = some g → ∃ a g', f g = .ok (a, g') ∧ q.function? name = some g' := by
  obtain ⟨⟨reversed, t⟩, hfold, h⟩ := bind_eq_ok.mp h
  cases h
  refine ⟨rfl, fun name => ?_⟩
  obtain ⟨hnone, hsome⟩ := foldlM_edit name p.functions.sorted hfold
  exact ⟨fun hn => (hnone hn).trans hn, hsome⟩

theorem numbered_of_editFunctions {α : Type} {f : Function → Outcome (α × Function)} {answers : List α}
    (hf : ∀ g a g', (∀ c ∈ g.body, c.Numbered) → f g = .ok (a, g') →
      g'.name = g.name ∧ ∀ c ∈ g'.body, c.Numbered)
    (hp : p.Numbered) (h : p.editFunctions f = .ok (answers, q)) : q.Numbered := by
  rw [numbered_iff] at hp ⊢
  intro name g' hg'
  obtain ⟨hnone, hsome⟩ := (editFunctions_ok h).2 name
  cases hg : p.function? name with
  | none =>
    rw [hnone hg] at hg'
    cases hg'
  | some g =>
    obtain ⟨a, k, hk, hq⟩ := hsome g hg
    rw [hg'] at hq
    cases hq
    obtain ⟨hname, hbody⟩ := hp name g hg
    obtain ⟨hname', hbody'⟩ := hf g a g' hbody hk
    exact ⟨hname'.trans hname, hbody'⟩

end Program

namespace Function

theorem edit_ok {α : Type} {f g : Function} {e : Edit α} {a : α} (h : f.edit e = .ok (a, g)) :
    ∃ c c', f.body = some c ∧ e.run c = .ok (a, c') ∧ g = { f with body := some c' } := by
  obtain ⟨c, hc, h⟩ := bind_eq_ok.mp h
  obtain ⟨⟨a', c'⟩, he, h⟩ := bind_eq_ok.mp h
  cases h
  exact ⟨c, c', orRaise_eq_ok.mp hc, he, rfl⟩

theorem numbered_of_edit {α : Type} {f g : Function} {e : Edit α} {a : α}
    (he : Edit.Keeps FlowGraph.Numbered e) (hf : ∀ c ∈ f.body, c.Numbered) (h : f.edit e = .ok (a, g)) :
    g.name = f.name ∧ ∀ c ∈ g.body, c.Numbered := by
  obtain ⟨c, c', hc, hrun, rfl⟩ := edit_ok h
  refine ⟨rfl, ?_⟩
  rintro _ ⟨⟩
  exact he c a c' (hf c hc) hrun

end Function

namespace Program

variable {p q : Program} {c : Configuration}

theorem numbered_of_addFunction (hp : p.Numbered) {f : Function} (hf : ∀ c ∈ f.body, c.Numbered) :
    (p.addFunction f).Numbered := by
  rw [numbered_iff] at hp ⊢
  intro name g hg
  unfold function? addFunction setFunction at hg
  rw [Table.get?_insert] at hg
  split at hg
  · cases hg
    exact ⟨(by assumption : name = f.name).symm, hf⟩
  · exact hp name g hg

theorem declareHooks_induction {P : Program → Prop} {h : Hooks} (hp : P p)
    (hadd : ∀ (q : Program) name arguments, P q → q.function? name = none →
      P (q.addFunction (.declaration name arguments .void))) : P (p.declareHooks h) := by
  unfold declareHooks
  induction h.signatures generalizing p with
  | nil => exact hp
  | cons s rest ih =>
    apply ih
    change P (p.declareIfMissing s.1 s.2)
    unfold declareIfMissing
    split
    · exact hp
    · rename_i hmissing
      exact hadd p s.1 _ hp hmissing

theorem numbered_of_declareHooks (hp : p.Numbered) (h : Hooks) : (p.declareHooks h).Numbered :=
  declareHooks_induction hp fun _ _ _ hp _ => numbered_of_addFunction hp (by rintro _ ⟨⟩)

theorem numbered_of_simplifyLoops {count : Nat} (hp : p.Numbered)
    (h : p.simplifyLoops c = .ok (count, q)) : q.Numbered := by
  obtain ⟨⟨counts, q'⟩, hedit, h⟩ := bind_eq_ok.mp h
  cases h
  refine numbered_of_editFunctions (fun g a g' hg hg' => ?_) hp hedit
  split at hg'
  · exact Function.numbered_of_edit Preheader.keeps_simplify hg hg'
  · cases hg'
    exact ⟨rfl, hg⟩

theorem numbered_of_setFunction {name : String} (hp : p.Numbered) {f : Function} (hname : f.name = name)
    (hf : ∀ c ∈ f.body, c.Numbered) : (p.setFunction name f).Numbered := by
  subst hname
  exact numbered_of_addFunction hp hf

theorem keeps_registerIn (h : Hooks) (globals : List (String × Word)) :
    Edit.Keeps FlowGraph.Numbered (registerIn h globals) := by
  refine (Edit.Keeps.ask _).bind fun entry => (Edit.Keeps.ask _).bind fun b => ?_
  split
  · exact Edit.Keeps.answer _
  · exact (Edit.keeps_inject _ _ _ _).bind fun _ => Edit.Keeps.answer _

theorem registerGlobals_ok {log log' : List LogEntry} {count : Nat}
    (h : (p.registerGlobals c).runFrom log = (.ok (count, q), log')) : ∃ globals, p.trackedGlobals = .ok globals ∧
      (globals = [] ∧ count = 0 ∧ q = p ∨ globals ≠ [] ∧ ∃ f f', p.function? c.globalInitFunction = some f ∧
        f.edit (registerIn c.hooks globals) = .ok (count, f') ∧ q = p.setFunction c.globalInitFunction f') := by
  unfold registerGlobals at h
  obtain ⟨globals, htracked, h⟩ := Stateful.lift_bind_ok.mp h
  refine ⟨globals, htracked, ?_⟩
  split at h
  · rename_i hempty
    cases h
    exact .inl ⟨List.isEmpty_iff.mp hempty, rfl, rfl⟩
  · rename_i hnonempty
    obtain ⟨f, hf, h⟩ := Stateful.present_bind_ok.mp h
    obtain ⟨⟨count', f'⟩, hf', h⟩ := Stateful.lift_bind_ok.mp h
    refine .inr ⟨fun hempty => hnonempty (List.isEmpty_iff.mpr hempty), f, f', hf, ?_⟩
    simp only at h
    split at h
    · cases h
      exact ⟨hf', rfl⟩
    · obtain ⟨_, log₁, -, h⟩ := Stateful.runFrom_bind_ok.mp h
      cases h
      exact ⟨hf', rfl⟩

theorem reportAllocations_ok {log log' : List LogEntry} {report : AllocationReport}
    (h : (p.reportAllocations c).runFrom log = (.ok (report, q), log')) :
    ∃ reports q₁, (p.declareHooks c.hooks).editFunctions (fun f =>
        if c.instruments f then f.reportAllocations c else pure (AllocationReport.empty, f)) = .ok (reports, q₁) ∧
      (c.globals = true ∧ (∃ count, (q₁.registerGlobals c).runFrom log = (.ok (count, q), log') ∧
          report = { reports.foldl AllocationReport.add .empty with globals := count }) ∨
        c.globals = false ∧ q = q₁ ∧ report = reports.foldl AllocationReport.add .empty) := by
  unfold reportAllocations at h
  obtain ⟨⟨reports, q₁⟩, hedit, h⟩ := Stateful.lift_bind_ok.mp h
  refine ⟨reports, q₁, hedit, ?_⟩
  simp only at h
  split at h
  · rename_i hglobals
    obtain ⟨⟨count, q'⟩, log₁, hregister, h⟩ := Stateful.runFrom_bind_ok.mp h
    cases h
    exact .inl ⟨hglobals, count, hregister, rfl⟩
  · rename_i hglobals
    cases h
    exact .inr ⟨Bool.eq_false_iff.mpr hglobals, rfl, rfl⟩

theorem numbered_of_registerGlobals {log log' : List LogEntry} {count : Nat} (hp : p.Numbered)
    (h : (p.registerGlobals c).runFrom log = (.ok (count, q), log')) : q.Numbered := by
  obtain ⟨globals, -, ⟨-, -, rfl⟩ | ⟨-, f, f', hf, hf', rfl⟩⟩ := registerGlobals_ok h
  · exact hp
  · obtain ⟨hname, hbody⟩ := numbered_iff.mp hp _ f hf
    obtain ⟨hname', hbody'⟩ := Function.numbered_of_edit (keeps_registerIn _ _) hbody hf'
    exact numbered_of_setFunction hp (hname'.trans hname) hbody'

theorem numbered_of_reportAllocations {log log' : List LogEntry} {report : AllocationReport}
    (hp : p.Numbered) (h : (p.reportAllocations c).runFrom log = (.ok (report, q), log')) : q.Numbered := by
  obtain ⟨reports, q₁, hedit, hrest⟩ := reportAllocations_ok h
  have hq₁ : q₁.Numbered := by
    refine numbered_of_editFunctions (fun g a g' hg hg' => ?_) (numbered_of_declareHooks hp c.hooks) hedit
    split at hg'
    · have keeps := fun (s : Location × ReportSite) => ReportSite.keeps_report c.hooks s.1 s.2
      exact Function.numbered_of_edit
        ((Edit.Keeps.forIn fun s _ => keeps s).bind fun _ => Edit.Keeps.answer _) hg hg'
    · cases hg'
      exact ⟨rfl, hg⟩
  rcases hrest with ⟨-, count, hregister, -⟩ | ⟨-, rfl, -⟩
  · exact numbered_of_registerGlobals hq₁ hregister
  · exact hq₁

end Program

end RegionGuard

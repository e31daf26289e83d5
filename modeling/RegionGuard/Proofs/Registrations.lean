import RegionGuard.Proofs.GroundedPasses
import RegionGuard.Proofs.PlacedGuards
import RegionGuard.Proofs.ReportedAllocations
import RegionGuard.Proofs.ShieldedAccesses
set_option autoImplicit false

namespace RegionGuard

open FlowGraph Edit Stateful

theorem Operation.exists_call_of_callee? {o : Operation} {name : String} (h : o.callee? = some name) :
    ∃ dst target arguments, o = .call dst target arguments := by
  cases o with
  | call dst target arguments => exact ⟨dst, target, arguments, rfl⟩
  | _ => cases h

def Instruction.Registers (h : Hooks) (i : Instruction) : Prop :=
  i.isInjected = true ∧ i.operation.callee? = some h.notifyGlobal

instance (h : Hooks) (i : Instruction) : Decidable (i.Registers h) := inferInstanceAs (Decidable (_ ∧ _))

/-- An instruction that neither registers a global nor looks as if it did. -/
def Instruction.IsPlain (h : Hooks) (i : Instruction) : Prop :=
  ¬ i.Registers h ∧ i.tag? Tag.injected ≠ some "global"

instance (h : Hooks) (i : Instruction) : Decidable (i.IsPlain h) := inferInstanceAs (Decidable (_ ∧ _))

def GlobalVariable.registrations (h : Hooks) (globals : List (String × Word)) : List Operation :=
  globals.mapIdx fun id e => registration h id e.1 e.2

namespace Instruction

variable {h : Hooks} {i j : Instruction}

theorem Registers.of_resembles (hj : j.Registers h) (injected : j.isInjected = i.isInjected) (hij : i.Resembles j) :
    i.Registers h := by
  rcases hij with heq | ⟨-, hphi⟩
  · exact ⟨injected ▸ hj.1, heq ▸ hj.2⟩
  · obtain ⟨dst, target, arguments, ho⟩ := Operation.exists_call_of_callee? hj.2
    rw [ho] at hphi
    cases hphi

theorem not_registers_of_isGuarding (distinct : h.names.Nodup) {n : Nat} (hi : i.operation.IsGuarding h n) :
    ¬ i.Registers h := by
  rintro ⟨-, hcallee⟩
  rcases hi with ⟨dst, hdst, -⟩ | ⟨name, hname, arguments, ho⟩
  · obtain ⟨_, target, arguments, ho⟩ := Operation.exists_call_of_callee? hcallee
    rw [ho] at hdst
    cases hdst
  · rw [ho] at hcallee
    obtain rfl : name = h.notifyGlobal := Option.some.inj hcallee
    simp only [Hooks.names, List.nodup_cons, List.mem_cons, not_or] at distinct
    rcases hname with heq | heq
    · exact distinct.2.2.2.2.1.2.1 heq
    · exact distinct.2.2.2.2.1.2.2.1 heq

end Instruction

namespace Instruction

variable {h : Hooks} {i : Instruction}

theorem IsPlain.setTag (hi : i.IsPlain h) {key : String} (hkey : Tag.injected ≠ key) (value : String) :
    (i.setTag key value).IsPlain h := by
  refine ⟨fun hj => hi.1 (hj.of_resembles (i.isInjected_setTag hkey value) (.inl rfl)), ?_⟩
  rw [tag?_setTag, if_neg hkey]
  exact hi.2

theorem isPlain_of_own (own : i.isInjected = false) : i.IsPlain h := by
  refine ⟨fun hi => ?_, fun htag => ?_⟩
  · rw [hi.1] at own
    cases own
  · have hinjected : i.isInjected = (i.tag? Tag.injected).isSome := rfl
    rw [hinjected, htag] at own
    cases own

theorem isPlain_phi (index : Nat) (dst : Variable) (incoming : List (Value × Nat)) :
    (Instruction.make index (.phi dst incoming)).IsPlain h :=
  ⟨fun ⟨_, hcallee⟩ => (nomatch hcallee), fun htag => nomatch htag⟩

theorem IsPlain.setIncoming (hi : i.IsPlain h) (incoming : List (Value × Nat)) :
    (Preheader.setIncoming incoming i).IsPlain h := by
  unfold Preheader.setIncoming
  split
  · exact ⟨fun ⟨_, hcallee⟩ => (nomatch hcallee), hi.2⟩
  · exact hi

end Instruction

structure FlowGraph.Unregistered (h : Hooks) (c : FlowGraph) : Prop where
  numbered : c.Numbered
  plain : c.Every (·.IsPlain h)

namespace ReportSite

variable {h : Hooks} {c c' : FlowGraph}

theorem unregistered_report (distinct : h.names.Nodup) {l : Location} {s : ReportSite} (hc : c.Unregistered h) {u : Unit}
    (hrun : (s.report h l).run c = .ok (u, c')) : c'.Unregistered h := by
  refine ⟨keeps_report h l s _ _ _ hc.numbered hrun, ?_⟩
  obtain ⟨next, position, operations, arguments, c₁, -, hcalls, hinject, htag⟩ := report_ok hrun
  have hhook : s.hook h ≠ h.notifyGlobal := by
    simp only [Hooks.names, List.nodup_cons, List.mem_cons, not_or] at distinct
    cases s with
    | allocation kind dst arguments =>
      cases kind with
      | malloc => exact distinct.1.2.2.2.1
      | calloc => exact distinct.2.1.2.2.1
      | realloc => exact distinct.2.2.1.2.1
    | free pointer => exact distinct.2.2.2.1.1
    | escape cell => exact fun heq => distinct.2.2.2.2.1.1 heq.symm
  have hkind : s.tag ≠ "global" := by cases s <;> simp [ReportSite.tag]
  have hold : (c.withTemps next).Every (·.IsPlain h) := hc.plain
  have hnew : c₁.Every (·.IsPlain h) := by
    refine hold.modifyBlock (fun b b' _ hb' all i hi => ?_) hinject
    rw [Block.inject_ok hb'] at hi
    rcases List.mem_append.mp hi with hi | hi
    · exact all i (List.mem_of_mem_take hi)
    rcases List.mem_append.mp hi with hi | hi
    · refine ⟨fun hregisters => ?_, fun htag => hkind ?_⟩
      · have hcallee := hregisters.2
        have hmem : i.operation ∈ operations.filter (·.callee?.isSome) :=
          List.mem_filter.mpr ⟨Instruction.mem_operations_of_mem_drafted hi, by rw [hcallee]; rfl⟩
        rw [hcalls, List.mem_singleton] at hmem
        rw [hmem] at hcallee
        exact hhook (Option.some.inj hcallee)
      · rw [Instruction.tag?_of_mem_drafted hi] at htag
        exact Option.some.inj htag
    · exact all i (List.mem_of_mem_drop hi)
  have numbered₁ : c₁.Numbered :=
    indifferent_numbered.inject (c.withTemps next) c₁ l.block (fun _ => position) _ _ _ hc.numbered hinject
  refine hnew.modifyBlock (fun b b' hb hb' all i hi => ?_) htag
  obtain ⟨-, rfl⟩ := Block.modify_ok (numbered_iff.mp numbered₁ _ b hb).2 hb'
  obtain ⟨j, hj, rfl⟩ := List.mem_map.mp hi
  unfold Block.changeAt
  split
  · exact (all j hj).setTag (by decide) _
  · exact all j hj

theorem unregistered_reports (distinct : h.names.Nodup) {sites : List (Location × ReportSite)} (hc : c.Unregistered h)
    {u : PUnit} (hrun : (sites.forM fun e => e.2.report h e.1).run c = .ok (u, c')) : c'.Unregistered h := by
  induction sites generalizing c with
  | nil =>
    obtain ⟨-, rfl⟩ := pure_ok.mp hrun
    exact hc
  | cons e rest ih =>
    obtain ⟨_, c₁, hfirst, hrest⟩ := Edit.bind_ok.mp hrun
    exact ih (unregistered_report distinct hc hfirst) hrest

end ReportSite

/-- Injected code performs some operations behind phis and guards only, one directly after the other, and nothing else
registers a global. -/
def Opens (h : Hooks) (operations : List Operation) (l : List Instruction) : Prop :=
  ∃ front new back, l = front ++ (new ++ back) ∧
    (∀ i ∈ front, i.operation.isPhi = true ∨ i.isInjected = true ∧ i.operation.IsGuarding h 0) ∧
    (∀ i ∈ new, i.isInjected = true) ∧ new.map (·.operation) = operations ∧ ∀ i ∈ back, ¬ i.Registers h

namespace Block

def Opens (h : Hooks) (operations : List Operation) (b : Block) : Prop := RegionGuard.Opens h operations b.instructions

variable {h : Hooks} {globals : List (String × Word)} {b b' : Block} {position : Nat} {v : String}
  {tags : List (String × String)} {operations : List Operation}

theorem opens_inject (fresh : ∀ i ∈ b.instructions, i.IsPlain h)
    (hb' : b.inject b.firstNonPhi [(Tag.injected, "global")] operations = .ok b') : b'.Opens h operations := by
  refine ⟨_, _, _, congrArg Block.instructions (inject_ok hb'), fun i hi => .inl ?_, fun i hi =>
    Instruction.isInjected_of_mem_drafted hi, Instruction.drafted_operations .., fun i hi =>
    (fresh i (List.mem_of_mem_drop hi)).1⟩
  unfold firstNonPhi at hi
  rw [← List.prefix_iff_eq_take.mp (List.takeWhile_prefix _)] at hi
  exact List.mem_takeWhile_imp (p := fun i : Instruction => i.operation.isPhi) hi

theorem isInner_of_calls {registrations : List Operation} (calls : ∀ o ∈ registrations, o.callee? = some h.notifyGlobal) :
    ∀ o ∈ registrations, o.IsInner := fun o ho => by
  obtain ⟨_, _, _, rfl⟩ := Operation.exists_call_of_callee? (calls o ho)
  exact ⟨rfl, rfl, rfl⟩

theorem Opens.inject (distinct : h.names.Nodup) {registrations : List Operation} (hb : b.Opens h registrations)
    (calls : ∀ o ∈ registrations, o.callee? = some h.notifyGlobal) (hguarding : ∀ o ∈ operations, o.IsGuarding h 0)
    (hseam : b.IsSeam position) (hb' : b.inject position ((Tag.injected, v) :: tags) operations = .ok b') :
    b'.Opens h registrations := by
  refine Frames.inject hb (isInner_of_calls calls) (fun i hi => ?_) hseam hb'
  have hi' := hguarding _ (Instruction.mem_operations_of_mem_drafted hi)
  exact ⟨.inr ⟨Instruction.isInjected_of_mem_drafted hi, hi'⟩, Instruction.not_registers_of_isGuarding distinct hi'⟩

/-- Changes of phis and of tags other than that of injected code leave registrations alone. -/
theorem Opens.map {registrations : List Operation} (hb : b.Opens h registrations)
    (calls : ∀ o ∈ registrations, o.callee? = some h.notifyGlobal) {f : Instruction → Instruction}
    (hf : ∀ i, (f i).isInjected = i.isInjected ∧ i.Resembles (f i)) :
    ({ b with instructions := b.instructions.map f } : Block).Opens h registrations := by
  have hsame : ∀ i, i.operation.isPhi = false → (f i).operation = i.operation := fun i hi =>
    (hf i).2.resolve_right fun hphi => by
      rw [hi] at hphi
      cases hphi.1
  refine Frames.map hb (isInner_of_calls calls) (fun i => ⟨(hf i).1, hsame i⟩) (fun i hi => ?_)
    fun i hi hregisters => hi (hregisters.of_resembles (hf i).1 (hf i).2)
  rcases hi with hphi | ⟨injected, hguarding⟩
  · exact .inl ((hf i).2.elim (fun heq => by rw [heq, hphi]) And.right)
  · exact .inr ⟨(hf i).1.trans injected, hsame i hguarding.isInner.2.2 ▸ hguarding⟩

end Block

namespace FlowGraph

structure RegistersAt (h : Hooks) (registrations : List Operation) (place : Option Nat) (c : FlowGraph) : Prop where
  numbered : c.Numbered
  housed : ∀ k, place = some k → c.HasBlock k fun _ => True
  opens : ∀ k b, c.block k = .ok b → place = some k → b.Opens h registrations
  silent : ∀ k b, c.block k = .ok b → place ≠ some k → ∀ i ∈ b.instructions, ¬ i.Registers h

variable {h : Hooks} {registrations : List Operation} {place : Option Nat} {k : Nat} {c c' : FlowGraph}

namespace RegistersAt

theorem of_blocks (hc : c.RegistersAt h registrations place) (hv : c'.graph.vertices = c.graph.vertices) :
    c'.RegistersAt h registrations place := by
  have hblock : ∀ k, c'.block k = c.block k := fun k =>
    congrArg (Failure.orRaise · _) (congrArg (Table.get? · k) hv)
  refine ⟨numbered_of_vertices hc.numbered hv, fun k hk => (hc.housed k hk).of_vertices hv, fun k b hb => ?_, fun k b hb => ?_⟩
  · exact hc.opens k b ((hblock k).symm.trans hb)
  · exact hc.silent k b ((hblock k).symm.trans hb)

theorem newBlock (hc : c.RegistersAt h registrations place) (hn : c.newBlock = .ok (k, c')) :
    c'.RegistersAt h registrations place := by
  obtain ⟨hfresh, hothers⟩ := block_newBlock hn
  refine ⟨numbered_of_newBlock hc.numbered hn, fun j hj => (hc.housed j hj).newBlock hn, fun j b hb hj => ?_,
    fun j b hb hj => ?_⟩
  · by_cases hjk : j = k
    · subst hjk
      obtain ⟨b₀, hb₀, -⟩ := hc.housed j hj
      cases (block_eq_ok.mp hb₀).symm.trans (Graph.insertVertex_ok (newBlock_ok hn).2.2.2.2).1
    · exact hc.opens j b ((hothers j hjk).symm.trans hb) hj
  · by_cases hjk : j = k
    · subst hjk
      cases hfresh.symm.trans hb
      exact fun i hi => absurd hi List.not_mem_nil
    · exact hc.silent j b ((hothers j hjk).symm.trans hb) hj

theorem modifyBlock (hc : c.RegistersAt h registrations place) {f : Block → Outcome Block} (numbered : c'.Numbered)
    (hopens : ∀ b b', c.block k = .ok b → f b = .ok b' → b.Opens h registrations → b'.Opens h registrations)
    (hsilent : ∀ b b', c.block k = .ok b → f b = .ok b' → (∀ i ∈ b.instructions, ¬ i.Registers h) →
      ∀ i ∈ b'.instructions, ¬ i.Registers h)
    (hm : c.modifyBlock k f = .ok c') : c'.RegistersAt h registrations place := by
  refine ⟨numbered, fun j hj => (hc.housed j hj).modifyBlock hm fun _ _ _ _ _ => trivial, fun j b' hb' hj => ?_,
    fun j b' hb' hj => ?_⟩
  · rcases block_of_modifyBlock hm hb' with ⟨-, hb⟩ | ⟨rfl, b, hb, hfb⟩
    · exact hc.opens j b' hb hj
    · exact hopens b b' hb hfb (hc.opens _ b hb hj)
  · rcases block_of_modifyBlock hm hb' with ⟨-, hb⟩ | ⟨rfl, b, hb, hfb⟩
    · exact hc.silent j b' hb hj
    · exact hsilent b b' hb hfb (hc.silent _ b hb hj)

theorem map (hc : c.RegistersAt h registrations place) (calls : ∀ o ∈ registrations, o.callee? = some h.notifyGlobal)
    (numbered : c'.Numbered) {f : Block → Outcome Block}
    (hf : ∀ b b', c.block k = .ok b → f b = .ok b' → ∃ g : Instruction → Instruction,
      b' = { b with instructions := b.instructions.map g } ∧ ∀ i, (g i).isInjected = i.isInjected ∧ i.Resembles (g i))
    (hm : c.modifyBlock k f = .ok c') : c'.RegistersAt h registrations place := by
  refine hc.modifyBlock numbered (fun b b' hb hb' hopens => ?_) (fun b b' hb hb' hsilent i hi => ?_) hm
  · obtain ⟨g, rfl, hg⟩ := hf b b' hb hb'
    exact hopens.map calls hg
  · obtain ⟨g, rfl, hg⟩ := hf b b' hb hb'
    obtain ⟨j, hj, rfl⟩ := List.mem_map.mp hi
    exact fun hregisters => hsilent j hj (hregisters.of_resembles (hg j).1 (hg j).2)

end RegistersAt

theorem tallied_registersAt (distinct : h.names.Nodup) (calls : ∀ o ∈ registrations, o.callee? = some h.notifyGlobal)
    (place : Option Nat) : Tallied h 0 Block.IsSeam fun _ c => c.RegistersAt h registrations place where
  start := Block.isSeam_zero
  terminator := Block.isSeam_terminatorPosition
  bound _ _ _ := Nat.zero_le _
  temps _ _ _ _ hc := hc.of_blocks rfl
  blocks _ _ _ hc hv _ _ := hc.of_blocks hv
  newBlock _ _ _ _ hc hn := hc.newBlock hn
  inject _ c c' k position v tags operations hc hguarding hfits hi := by
    refine hc.modifyBlock (indifferent_numbered.inject c c' k position v tags operations hc.numbered hi)
      (fun b b' hb hb' hopens => hopens.inject distinct calls hguarding (hfits b hb) hb') (fun b b' hb hb' hsilent i hmem => ?_)
      hi
    rw [Block.inject_ok hb'] at hmem
    rcases List.mem_append.mp hmem with hmem | hmem
    · exact hsilent i (List.mem_of_mem_take hmem)
    rcases List.mem_append.mp hmem with hmem | hmem
    · exact Instruction.not_registers_of_isGuarding distinct
        (hguarding _ (Instruction.mem_operations_of_mem_drafted hmem))
    · exact hsilent i (List.mem_of_mem_drop hmem)
  guarded _ c c' l value hc hg := by
    refine hc.map calls (indifferent_numbered.guarded c c' l value hc.numbered hg) (fun b b' hb hb' => ?_) hg
    exact ⟨_, (Block.modify_ok (numbered_iff.mp hc.numbered _ b hb).2 hb').2,
      fun i => i.setTag_resembles (by decide) value l.instruction⟩
  renamed _ c c' k old new hc hr := by
    refine hc.map calls (indifferent_numbered.renamed c c' k old new hc.numbered hr) (fun b b' _ hb' => ?_) hr
    cases hb'
    exact ⟨_, rfl, fun i => i.renameIncoming_resembles old new⟩

end FlowGraph

namespace Program

variable {h : Hooks} {p q : Program} {c : Configuration} {globals : List (String × Word)}

structure RegistersIn (h : Hooks) (registrations : List Operation) (name : String) (p : Program) : Prop where
  starts : ∃ f body entry, p.function? name = some f ∧ f.body = some body ∧ body.entry = some entry ∧
    body.RegistersAt h registrations (some entry)
  silent : ∀ other f, p.function? other = some f → other ≠ name → ∀ body ∈ f.body, body.RegistersAt h registrations none

/-- No instruction of a program registers a global or looks as if it did. -/
def IsPlain (h : Hooks) (p : Program) : Prop := p.AllBodies (FlowGraph.Every (·.IsPlain h))

theorem isPlain_of_untouched (h : p.AllBodies FlowGraph.Untouched) (hooks : Hooks) : p.IsPlain hooks :=
  fun name f hf body hbody k b hb i hi => Instruction.isPlain_of_own (untouched_iff.mp (h name f hf body hbody) k b hb i hi)

theorem callee?_of_mem_registrations {o : Operation} (ho : o ∈ GlobalVariable.registrations h globals) :
    o.callee? = some h.notifyGlobal := by
  obtain ⟨id, hid, rfl⟩ := List.mem_mapIdx.mp ho
  rfl

theorem unregistered_of_simplifyLoops {count : Nat} (hp : p.AllBodies (FlowGraph.Unregistered h))
    (hq : p.simplifyLoops c = .ok (count, q)) : q.AllBodies (FlowGraph.Unregistered h) := by
  refine AllBodies.simplifyLoops (fun body k body' hbody hrun => ?_) hp hq
  refine ⟨Preheader.keeps_simplify _ _ _ hbody.numbered hrun, Preheader.keeps_simplify_of
    (Preheader.keeps_every_insert Instruction.isPlain_phi fun i incoming hi => hi.setIncoming incoming) _ _ _ hbody.plain hrun⟩

theorem registersIn_of_registerGlobals {log log' : List LogEntry} {count : Nat}
    (hp : p.AllBodies (FlowGraph.Unregistered c.hooks)) (hglobals : p.trackedGlobals = .ok globals) (hne : globals ≠ [])
    (hrun : (p.registerGlobals c).runFrom log = (.ok (count, q), log')) :
    q.RegistersIn c.hooks (GlobalVariable.registrations c.hooks globals) c.globalInitFunction ∧ q.globals = p.globals := by
  obtain ⟨globals', hglobals', ⟨rfl, -⟩ | ⟨-, f, f', hf, hf', rfl⟩⟩ := registerGlobals_ok hrun
  · cases hglobals.symm.trans hglobals'
    exact absurd rfl hne
  cases hglobals.symm.trans hglobals'
  obtain ⟨body, body', hbody, hregister, rfl⟩ := Function.edit_ok hf'
  obtain ⟨numbered, plain⟩ := hp _ f hf body hbody
  obtain ⟨entry, b, hentry, hb, ⟨hregisters, -⟩ | ⟨-, hinject⟩⟩ := registerIn_ok hregister
  · obtain ⟨i, hi, htag⟩ := registersGlobals_iff.mp hregisters
    exact absurd htag (plain _ b hb i hi).2
  have hset : ∀ name, (p.setFunction c.globalInitFunction { f with body := some body' }).function? name =
      if name = c.globalInitFunction then some { f with body := some body' } else p.function? name := fun name =>
    Table.get?_insert ..
  have numbered' : body'.Numbered := keeps_registerIn _ _ _ _ _ numbered hregister
  refine ⟨⟨⟨_, body', entry, (hset _).trans (if_pos rfl), rfl, by rw [(modifyBlock_fields hinject).1]; exact hentry,
    numbered', ?_, fun k b' hb' hk => ?_, fun k b' hb' hk => ?_⟩, fun other g hg hother body₀ hbody₀ => ?_⟩, rfl⟩
  · rintro _ ⟨⟩
    exact HasBlock.modifyBlock ⟨b, hb, trivial⟩ hinject fun _ _ _ _ _ => trivial
  · cases hk
    rcases block_of_modifyBlock hinject hb' with ⟨hne', -⟩ | ⟨-, b₀, hb₀, hinjected⟩
    · exact absurd rfl hne'
    · exact Block.opens_inject (plain _ b₀ hb₀) hinjected
  · rcases block_of_modifyBlock hinject hb' with ⟨-, hb₀⟩ | ⟨rfl, -⟩
    · exact fun i hi => (plain k b' hb₀ i hi).1
    · exact absurd rfl hk
  · rw [hset, if_neg hother] at hg
    obtain ⟨numbered₀, plain₀⟩ := hp other g hg body₀ hbody₀
    exact ⟨numbered₀, nofun, nofun, fun k b' hb' _ i hi => (plain₀ k b' hb' i hi).1⟩

theorem RegistersIn.declareHooks {registrations : List Operation} {name : String}
    (hp : p.RegistersIn h registrations name) (h' : Hooks) : (p.declareHooks h').RegistersIn h registrations name := by
  obtain ⟨f, body, entry, hf, hrest⟩ := hp.starts
  refine ⟨⟨f, body, entry, ((function?_declareHooks p h').1 name (by rw [hf]; rfl)).trans hf, hrest⟩,
    fun other g hg hother body' hbody' => ?_⟩
  rcases (declareHooks_bodies p h' fun _ => false).1 other g hg with hold | ⟨-, hnone⟩
  · exact hp.silent other g hold hother body' hbody'
  · rw [hnone] at hbody'
    cases hbody'

theorem RegistersIn.guarded {r : GuardReport} {counts : List Nat} {name : String} (distinct : c.hooks.names.Nodup)
    (numbered : p.Numbered) (hr : p.decideGuards c = .ok r)
    (hp : p.RegistersIn c.hooks (GlobalVariable.registrations c.hooks globals) name)
    (hedit : p.editFunctions (guardFunction c r) = .ok (counts, q)) :
    q.RegistersIn c.hooks (GlobalVariable.registrations c.hooks globals) name := by
  have hfunctions := (editFunctions_ok hedit).2
  have calls : ∀ o ∈ GlobalVariable.registrations c.hooks globals, o.callee? = some c.hooks.notifyGlobal := fun o ho =>
    callee?_of_mem_registrations ho
  have htallied := tallied_registersAt distinct calls
  obtain ⟨f, body, entry, hf, hbody, hentry, hregisters⟩ := hp.starts
  refine ⟨?_, fun other g' hg' hother body' hbody' => ?_⟩
  · obtain ⟨n, g, hg, hq⟩ := (hfunctions name).2 f hf
    obtain ⟨body', rfl, hregisters', hentry'⟩ := tallied_guardFunction numbered hr hf hbody
      ((htallied (some entry)).and (indifferent_entry entry)) (m := 0) ⟨hregisters, hentry⟩ hg
    exact ⟨_, body', entry, hq, rfl, hentry', hregisters'⟩
  · cases hg : p.function? other with
    | none => cases ((hfunctions other).1 hg).symm.trans hg'
    | some g =>
      obtain ⟨n, g₁, hg₁, hq⟩ := (hfunctions other).2 g hg
      cases hg'.symm.trans hq
      cases hgbody : g.body with
      | none =>
        rcases Function.guardFunction_ok hg₁ with ⟨-, rfl, -⟩ | ⟨_, _, _, _, hsome, -⟩
        · rw [hgbody] at hbody'
          cases hbody'
        · cases hgbody.symm.trans hsome
      | some body₀ =>
        obtain ⟨body₁, rfl, hregisters'⟩ := tallied_guardFunction numbered hr hg hgbody (htallied none) (m := 0)
          (hp.silent other g hg hother body₀ hgbody) hg₁
        cases hbody'
        exact hregisters'

theorem registersIn_of_instruments (distinct : c.hooks.names.Nodup) (numbered : p.Numbered) (plain : p.IsPlain c.hooks)
    (on : c.globals = true) (hglobals : p.trackedGlobals = .ok globals) (hne : globals ≠ []) {report : InstrumentationReport}
    (hq : p.Instruments c report q) :
    q.RegistersIn c.hooks (GlobalVariable.registrations c.hooks globals) c.globalInitFunction ∧ q.globals = p.globals := by
  have hdeclared : ∀ p : Program, (p.declareHooks c.hooks).globals = p.globals := fun p =>
    declareHooks_induction (P := fun q => q.globals = p.globals) rfl fun _ _ _ h _ => h
  obtain ⟨log, log', hrun⟩ := hq
  obtain ⟨log₁, p₁, r, counts, hprepare, hdecide, hedit, -, -⟩ := instrument_ok hrun
  have numbered₁ := numbered_of_prepare numbered hprepare
  obtain ⟨preheaders, p₂, allocation, p₃, hsimplify, hreport, rfl⟩ := prepare_ok hprepare
  have hp : p.AllBodies (FlowGraph.Unregistered c.hooks) := fun name f hf body hbody =>
    ⟨(numbered_iff.mp numbered name f hf).2 body hbody, plain name f hf body hbody⟩
  have hp₂ := unregistered_of_simplifyLoops (hp.declareHooks c.hooks) hsimplify
  have hglobals₂ : p₂.globals = p.globals := by
    obtain ⟨⟨counts', p₂'⟩, hedit', h⟩ := bind_eq_ok.mp hsimplify
    cases h
    exact (editFunctions_ok hedit').1.trans (hdeclared p)
  obtain ⟨reports, p₄, hreports, ⟨-, count, hregister, -⟩ | ⟨hoff, -⟩⟩ := reportAllocations_ok hreport
  · have hp₄ : p₄.AllBodies (FlowGraph.Unregistered c.hooks) := by
      refine allBodies_of_editFunctions (fun g a g' hg hg' => ?_) (hp₂.declareHooks c.hooks) hreports
      split at hg'
      · obtain ⟨body, body', hbody, hreports', rfl⟩ := Function.edit_ok hg'
        obtain ⟨_, body₁, hforM, hanswer⟩ := Edit.bind_ok.mp hreports'
        obtain ⟨-, rfl⟩ := Edit.pure_ok.mp hanswer
        rw [Edit.forIn_eq_forM] at hforM
        rintro _ ⟨⟩
        exact ReportSite.unregistered_reports distinct (hg body hbody) hforM
      · cases hg'
        exact hg
    have hglobals₄ : p₄.globals = p.globals := ((editFunctions_ok hreports).1.trans (hdeclared p₂)).trans hglobals₂
    obtain ⟨hregisters, hsame⟩ := registersIn_of_registerGlobals hp₄
      (by rw [← hglobals]; unfold trackedGlobals; rw [hglobals₄]) hne hregister
    refine ⟨(hregisters.declareHooks c.hooks).guarded distinct numbered₁ hdecide hedit, ?_⟩
    rw [(editFunctions_ok hedit).1, hdeclared, hsame, hglobals₄]
  · rw [on] at hoff
    cases hoff

end Program

end RegionGuard

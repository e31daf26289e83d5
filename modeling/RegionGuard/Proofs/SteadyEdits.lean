import RegionGuard.Proofs.ConsistentGraphs
set_option autoImplicit false

namespace RegionGuard

open FlowGraph Edit

variable {R : Fatal → Prop} {K : Operation → Prop}

def Block.Coded (K : Operation → Prop) (b : Block) : Prop := b.Numbered ∧ ∀ i ∈ b.instructions, K i.operation

structure FlowGraph.Coded (K : Operation → Prop) (c : FlowGraph) : Prop extends c.Consistent where
  code : ∀ k b, c.block k = .ok b → ∀ i ∈ b.instructions, K i.operation

namespace Block

variable {b b' : Block}

theorem stops_insertWith (overflow : R .overflow) (b : Block) (position : Nat) (make : Nat → Instruction) :
    Outcome.Stops R (b.insertWith position make) := by
  unfold insertWith
  exact .refuse (.raise _) (.bind (.successor overflow) fun _ => .answer _)

theorem stops_inject (overflow : R .overflow) (b : Block) (position : Nat) (tags : List (String × String))
    (operations : List Operation) : Outcome.Stops R (b.inject position tags operations) := by
  induction operations generalizing b position with
  | nil => exact .answer b
  | cons o rest ih => exact .bind (stops_insertWith overflow _ _ _) fun inserted => ih inserted (position + 1)

theorem stops_modify (b : Block) (index : Nat) (f : Instruction → Instruction) :
    Outcome.Stops R (b.modify index f) := .bind .orRaise fun _ => .answer _

theorem Coded.inject (hb : b.Coded K) {position : Nat} {tags : List (String × String)} {operations : List Operation}
    (hoperations : ∀ o ∈ operations, K o) (h : b.inject position tags operations = .ok b') :
    b'.Coded K ∧ b'.index = b.index := by
  refine ⟨⟨numbered_of_inject hb.1 h, ?_⟩, by rw [inject_ok h]⟩
  rw [inject_ok h]
  intro i hi
  rcases List.mem_append.mp hi with hi | hi
  · exact hb.2 i (List.mem_of_mem_take hi)
  · rcases List.mem_append.mp hi with hi | hi
    · refine hoperations _ ?_
      rw [← Instruction.drafted_operations tags b.nextIndex operations]
      exact List.mem_map_of_mem hi
    · exact hb.2 i (List.mem_of_mem_drop hi)

theorem Coded.map (hb : b.Coded K) {f : Instruction → Instruction} (hindex : ∀ i, (f i).index = i.index)
    (hcode : ∀ i, K i.operation → K (f i).operation) : Coded K { b with instructions := b.instructions.map f } := by
  refine ⟨numbered_of_map hindex hb.1, fun i hi => ?_⟩
  obtain ⟨j, hj, rfl⟩ := List.mem_map.mp hi
  exact hcode j (hb.2 j hj)

theorem Coded.modify (hb : b.Coded K) {index : Nat} {f : Instruction → Instruction}
    (hindex : ∀ i, (f i).index = i.index) (hcode : ∀ i, K i.operation → K (f i).operation)
    (h : b.modify index f = .ok b') : b'.Coded K ∧ b'.index = b.index := by
  rw [(modify_ok hb.1 h).2]
  refine ⟨hb.map (changeAt_index hindex) fun i hi => ?_, rfl⟩
  unfold changeAt
  split
  · exact hcode i hi
  · exact hi

end Block

namespace Graph

variable {ν ε : Type} {g : Graph ν ε}

theorem stops_insertEdge [Arc ε] (g : Graph ν ε) (e : ε) : Outcome.Stops R (g.insertEdge e) :=
  .branch (fun _ => .raise _) fun _ => .branch (fun _ => .raise _) fun _ => .branch (fun _ => .raise _) fun _ => .answer _

theorem stops_removeEdge (g : Graph ν ε) (head tail : Nat) : Outcome.Stops R (g.removeEdge head tail) :=
  .bind .orRaise fun _ => .answer _

end Graph

namespace FlowGraph

variable {c c' : FlowGraph}

theorem Consistent.coded (h : c.Consistent) : c.Coded fun _ => True := ⟨h, fun _ _ _ _ _ => trivial⟩

theorem Coded.block (hc : c.Coded K) {k : Nat} {b : Block} (hb : c.block k = .ok b) : b.Coded K :=
  ⟨(numbered_iff.mp hc.numbered k b hb).2, hc.code k b hb⟩

theorem Coded.of_vertices (hc : c.Coded K) (wired : c'.graph.Wired) (h : c'.graph.vertices = c.graph.vertices) :
    c'.Coded K where
  wired := wired
  numbered := numbered_of_vertices hc.numbered h
  code k b hb := hc.code k b (block_eq_ok.mpr (h ▸ block_eq_ok.mp hb))

theorem Coded.modifyBlock (hc : c.Coded K) {k : Nat} {f : Block → Outcome Block}
    (hf : ∀ b b', b.Coded K → f b = .ok b' → b'.Coded K ∧ b'.index = b.index) (h : c.modifyBlock k f = .ok c') :
    c'.Coded K := by
  have hwired := wires_modifyBlock k f c () c' hc.wired (step_ok.mpr h)
  obtain ⟨b, b', hb, hb', rfl⟩ := modifyBlock_ok h
  obtain ⟨hcoded, hindex⟩ := hf b b' (hc.block hb) hb'
  refine ⟨⟨hwired, ?_⟩, fun j x hx => ?_⟩
  · exact numbered_of_setVertex hc.numbered (hindex.trans (numbered_iff.mp hc.numbered k b hb).1) hcoded.1
  · rw [block_setVertex] at hx
    split at hx
    · cases hx
      exact hcoded.2
    · exact hc.code j x hx

end FlowGraph

namespace Edit

theorem stays_insertEdge (head tail : Nat) (condition : Option Condition) :
    Stays (Coded K) R (step (·.insertEdge head tail condition)) := by
  refine .step (fun c _ => .bind (c.graph.stops_insertEdge _) fun _ => .answer _) fun _ _ hc h => ?_
  exact hc.of_vertices (hc.wired.insertEdge (insertEdge_ok h).1) (insertEdge_vertices h)

theorem stays_removeEdge (head tail : Nat) : Stays (Coded K) R (eval (·.removeEdge head tail)) := by
  refine .eval (fun c _ => .bind (c.graph.stops_removeEdge _ _) fun _ => .answer _) fun _ _ _ hc h => ?_
  exact hc.of_vertices (hc.wired.removeEdge (removeEdge_ok h).1) (removeEdge_vertices h)

theorem stays_modifyBlock (k : Nat) {f : Block → Outcome Block} (hstops : ∀ b, Outcome.Stops R (f b))
    (hf : ∀ b b', b.Coded K → f b = .ok b' → b'.Coded K ∧ b'.index = b.index) :
    Stays (Coded K) R (step (·.modifyBlock k f)) :=
  .step (fun _ _ => .bind .orRaise fun b => .bind (hstops b) fun _ => .answer _) fun _ _ hc h => hc.modifyBlock hf h

theorem stays_modifyInstruction (l : Location) {f : Instruction → Instruction} (hindex : ∀ i, (f i).index = i.index)
    (hcode : ∀ i, K i.operation → K (f i).operation) : Stays (Coded K) R (step (·.modifyInstruction l f)) :=
  stays_modifyBlock l.block (fun b => b.stops_modify _ _) fun _ _ hb h => hb.modify hindex hcode h

theorem stays_setTag (l : Location) (key value : String) :
    Stays (Coded K) R (step (·.modifyInstruction l (·.setTag key value))) :=
  stays_modifyInstruction (f := (·.setTag key value)) l (fun _ => rfl) fun _ h => h

variable (overflow : R .overflow)

include overflow

theorem stays_temp (ty : Ty) : Stays (Coded K) R (eval (·.temp ty)) :=
  .eval (fun _ _ => .bind (.successor overflow) fun _ => .answer _) fun _ _ _ hc h =>
    hc.of_vertices (temp_vertices h ▸ hc.wired) (congrArg Graph.vertices (temp_vertices h))

theorem stays_newBlock : Stays (Coded K) R (eval FlowGraph.newBlock) := by
  refine .eval (fun _ _ => .bind (.successor overflow) fun _ => .bind ?_ fun _ => .answer _) fun _ k _ hc h => ?_
  · exact .branch (fun _ => .raise _) fun _ => .answer _
  · refine ⟨⟨wires_newBlock _ k _ hc.wired (eval_ok.mpr h), numbered_of_newBlock hc.numbered h⟩, fun j b hb => ?_⟩
    obtain ⟨hnew, hother⟩ := block_newBlock h
    by_cases hj : j = k
    · rw [hj, hnew] at hb
      cases hb
      exact fun i hi => (List.not_mem_nil hi).elim
    · rw [hother j hj] at hb
      exact hc.code j b hb

theorem stays_inject (k : Nat) (position : Block → Nat) (tags : List (String × String)) {operations : List Operation}
    (hoperations : ∀ o ∈ operations, K o) :
    Stays (Coded K) R (step (·.modifyBlock k fun b => b.inject (position b) tags operations)) :=
  stays_modifyBlock k (fun b => b.stops_inject overflow _ _ _) fun _ _ hb h => hb.inject hoperations h

end Edit

namespace Preheader

/-- An edge arrives at another block when it is taken out and put in again. -/
theorem redirect_eq (head oldTail newTail : Nat) : redirect head oldTail newTail = Edit.step fun c => do
    let (e, g) ← c.graph.removeEdge head oldTail
    let g' ← g.insertEdge { e with head := head, tail := newTail }
    return { c with graph := g' } := by
  unfold redirect
  congr 1
  funext c
  unfold redirectEdge
  cases c.graph.removeEdge head oldTail with
  | error f => rfl
  | ok removed =>
    obtain ⟨e, g⟩ := removed
    dsimp only [bind, Except.bind]
    cases g.insertEdge { e with head := head, tail := newTail } <;> rfl

theorem stays_redirect (head oldTail newTail : Nat) : Stays (Coded K) R (redirect head oldTail newTail) := by
  rw [redirect_eq]
  refine .step (fun c _ => ?_) fun c c' hc h => ?_
  · exact .bind (c.graph.stops_removeEdge _ _) fun r => .bind (r.2.stops_insertEdge _) fun _ => .answer _
  · obtain ⟨⟨e, g⟩, hremoved, h⟩ := bind_eq_ok.mp h
    obtain ⟨g', hinserted, h⟩ := bind_eq_ok.mp h
    cases h
    exact hc.of_vertices ((hc.wired.removeEdge hremoved).insertEdge hinserted)
      ((Graph.vertices_of_insertEdge hinserted).trans (Graph.vertices_of_removeEdge hremoved))

variable (overflow : R .overflow) (phis : ∀ dst incoming, K (.phi dst incoming))

include overflow phis

theorem stays_merge (preheader : Nat) (dst : Variable) (arriving : List (Value × Nat)) :
    Stays (Coded K) R (merge preheader dst arriving) := by
  unfold merge
  split
  · exact .answer _
  · refine (stays_temp overflow dst.ty).bind fun temp => .bind ?_ fun _ => .answer _
    simp only [Block.insertOperation_eq_inject]
    exact stays_inject overflow _ _ _ fun o ho => List.mem_singleton.mp ho ▸ phis _ _

theorem stays_reroute (header preheader : Nat) (outside : List Nat) (i : Instruction) :
    Stays (Coded K) R (reroute header preheader outside i) := by
  unfold reroute
  split
  · refine .branch (.answer _) ((stays_merge overflow phis _ _ _).bind fun merged => ?_)
    refine stays_modifyInstruction _ (setIncoming_index _) fun j hj => ?_
    unfold setIncoming
    split
    · exact phis _ _
    · exact hj
  · exact .answer _

theorem stays_insert (header : Nat) (outside : List Nat) : Stays (Coded K) R (insert header outside) :=
  (stays_newBlock overflow).bind fun preheader =>
    (Stays.forIn fun head _ => stays_redirect head header preheader).bind fun _ =>
      (stays_insertEdge _ _ _).bind fun _ => (Stays.ask fun _ _ => .orRaise).bind fun _ =>
        (Stays.forIn fun i _ => stays_reroute overflow phis header preheader outside i).bind fun _ => .answer _

end Preheader

variable {R : Fatal → Prop} {K : Operation → Prop} (overflow : R .overflow)

include overflow

namespace ReportSite

open Drafting

theorem stays_widen (v : Value) : Drafting.Stays (Coded K) R (widen v) := by
  have hcast : ∀ kind, Drafting.Stays (Coded K) R (compute (.integer 64) (.cast · kind v)) := fun kind =>
    .compute (stays_temp overflow _) _
  unfold widen
  split
  · exact .answer _
  · split
    · exact hcast _
    · split
      · exact hcast _
      · exact .answer _
  · exact .answer _

theorem stays_operations (h : Hooks) (l : Location) (s : ReportSite) :
    Drafting.Stays (Coded K) R (s.operations h l) := by
  have widens := fun v => stays_widen (K := K) overflow v
  have arg : ∀ arguments index, Drafting.Stays (Coded K) R (argument l arguments index) := fun _ _ => .orRaise
  cases s with
  | allocation kind dst arguments =>
    cases kind with
    | malloc => exact (arg _ _).bind fun _ => (widens _).bind fun _ => .perform _
    | calloc =>
      exact (arg _ _).bind fun _ => (widens _).bind fun _ => (arg _ _).bind fun _ => (widens _).bind fun _ => .perform _
    | realloc => exact (arg _ _).bind fun _ => (arg _ _).bind fun _ => (widens _).bind fun _ => .perform _
  | free pointer => exact .perform _
  | escape destination => exact .perform _

omit overflow in
theorem stops_position (s : ReportSite) (c : FlowGraph) (l : Location) : Outcome.Stops R (s.position c l) := by
  unfold position
  split
  · exact .bind .orRaise fun _ => .orRaise
  · exact .bind .orRaise fun _ => .bind .orRaise fun _ => .answer _

theorem stays_report (casts : ∀ dst kind v, kind ≠ .bitcast → K (.cast dst kind v))
    (calls : ∀ name arguments, K (.notify name arguments)) (h : Hooks) (l : Location) (s : ReportSite) :
    Edit.Stays (Coded K) R (s.report h l) := by
  refine (stays_operations overflow h l s).collect.proceed fun c r c' _ hcollect => ?_
  have hadds : Adds 0 K (s.operations h l) :=
    adds_operations (fun _ _ _ _ => casts _ _ _) (fun name _ => calls name) l s
  have hoperations := (hadds.collect_ok (Nat.zero_le _) hcollect).1
  refine (Stays.ask fun _ _ => stops_position s _ _).bind fun position => ?_
  refine stays_modifyBlock l.block (fun b => .bind (b.stops_inject overflow _ _ _) fun _ => Block.stops_modify _ _ _)
    fun b b' hb hb' => ?_
  obtain ⟨injected, hinjected, hb'⟩ := bind_eq_ok.mp hb'
  obtain ⟨hcoded, hindex⟩ := hb.inject hoperations hinjected
  obtain ⟨hcoded', hindex'⟩ := hcoded.modify (f := (·.setTag Tag.tracked s.tag)) (fun _ => rfl) (fun _ h => h) hb'
  exact ⟨hcoded', hindex'.trans hindex⟩

end ReportSite

theorem Program.stays_registerIn (calls : ∀ name arguments, K (.notify name arguments)) (h : Hooks)
    (globals : List (String × Word)) : Edit.Stays (Coded K) R (registerIn h globals) := by
  refine (Stays.ask fun _ _ => .orRaise).bind fun entry => (Stays.ask fun _ _ => .orRaise).bind fun b => ?_
  split
  · exact .answer _
  · refine (stays_inject overflow _ _ _ fun o ho => ?_).bind fun _ => .answer _
    obtain ⟨k, hk, rfl⟩ := List.mem_mapIdx.mp ho
    exact calls _ _

namespace GuardCode

open Drafting

theorem stays_guardPointer (h : Hooks) (pointer : Value) (access : Access) :
    Drafting.Stays (Coded K) R (guardPointer h pointer access) :=
  (Drafting.Stays.compute (stays_temp overflow _) _).bind fun _ => .perform _

theorem stays_span (plan : RangePlan) (ty : Ty) (bits : Nat) : Drafting.Stays (Coded K) R (span plan ty bits) := by
  refine (Drafting.Stays.compute (stays_temp overflow _) _).bind fun _ => ?_
  split
  · exact .compute (stays_temp overflow _) _
  · exact .answer _

theorem stays_wholeSteps (plan : RangePlan) (ty : Ty) (step distance : Value) :
    Drafting.Stays (Coded K) R (wholeSteps plan ty step distance) := by
  unfold wholeSteps
  split
  · exact .answer _
  · exact (Drafting.Stays.compute (stays_temp overflow _) _).bind fun _ => .compute (stays_temp overflow _) _

theorem stays_lastIteration (plan : RangePlan) : Drafting.Stays (Coded K) R (lastIteration plan) := by
  have hpast : ∀ last : Value, Drafting.Stays (Coded K) R (if plan.overshoot = 0 then pure last else do
      let past := Value.ofWord (.ofInt (plan.step * plan.overshoot)) (plan.start.ty.bits.getD 64)
      compute plan.start.ty (.binary · .add last past)) := by
    intro last
    split
    · exact .answer _
    · exact .compute (stays_temp overflow _) _
  unfold lastIteration
  simp only
  split
  · exact (Drafting.Stays.compute (stays_temp overflow _) _).bind hpast
  · exact (stays_span overflow _ _ _).bind fun _ => (stays_wholeSteps overflow _ _ _ _).bind fun _ =>
      (Drafting.Stays.compute (stays_temp overflow _) _).bind hpast

theorem stays_rebuildPointer (plan : RangePlan) (value : Value) :
    Drafting.Stays (Coded K) R (rebuildPointer plan value) := by
  unfold rebuildPointer
  split
  · exact (Drafting.Stays.compute (stays_temp overflow _) _).bind fun _ => .compute (stays_temp overflow _) _
  · exact (Drafting.Stays.answer _).bind fun _ => .compute (stays_temp overflow _) _

theorem stays_entersLoop (plan : RangePlan) : Drafting.Stays (Coded K) R (entersLoop plan) :=
  .compute (stays_temp overflow _) _

theorem stays_guardRange (h : Hooks) (plan : RangePlan) (access : Access) (enters : Option Value) :
    Drafting.Stays (Coded K) R (guardRange h plan access enters) := by
  refine (stays_rebuildPointer overflow _ _).bind fun first => (stays_lastIteration overflow _).bind fun counted => ?_
  have hguards : ∀ value, Drafting.Stays (Coded K) R (do
      let last ← rebuildPointer plan value
      guardPointer h first access
      guardPointer h last access) := fun value =>
    (stays_rebuildPointer overflow _ _).bind fun last => (stays_guardPointer overflow _ _ _).bind fun _ =>
      stays_guardPointer overflow _ _ _
  cases enters with
  | some test => exact (Drafting.Stays.compute (stays_temp overflow _) _).bind hguards
  | none => exact (Drafting.Stays.answer _).bind hguards

end GuardCode

namespace GuardDecision

variable (all : ∀ o, K o)

include all

theorem stays_injectGuards (block : Nat) (position : Block → Nat) (rule : GuardRule) (operations : List Operation) :
    Edit.Stays (Coded K) R (step (·.injectGuards block position rule operations)) :=
  stays_inject overflow _ _ _ fun o _ => all o

theorem stays_injectRange (h : Hooks) (d : GuardDecision) (plan : RangePlan) (entering header : Nat) :
    Edit.Stays (Coded K) R (d.injectRange h plan entering header) := by
  have guards := stays_injectGuards (K := K) overflow all
  unfold injectRange
  split
  · refine Edit.Stays.bind (Drafting.Stays.collect ?_) fun r => (guards _ _ _ _).bind fun _ => .answer _
    exact (GuardCode.stays_entersLoop overflow plan).bind fun _ => GuardCode.stays_guardRange overflow _ _ _ _
  · refine (GuardCode.stays_entersLoop overflow plan).collect.bind fun _ => (guards _ _ _ _).bind fun _ =>
      (GuardCode.stays_guardRange overflow _ _ _ _).collect.bind fun _ => (stays_newBlock overflow).bind fun _ =>
      (guards _ _ _ _).bind fun _ => (stays_newBlock overflow).bind fun _ => (stays_removeEdge _ _).bind fun _ =>
      (stays_insertEdge _ _ _).bind fun _ => (stays_insertEdge _ _ _).bind fun _ => (stays_insertEdge _ _ _).bind fun _ =>
      (stays_insertEdge _ _ _).bind fun _ => Edit.Stays.bind ?_ fun _ => .answer _
    refine stays_modifyBlock header (fun _ => .answer _) fun b b' hb hb' => ?_
    cases hb'
    exact ⟨hb.map (fun i => (renameIncoming_fields _ _ i).1) fun i _ => all _, rfl⟩

theorem stays_injectSingle (h : Hooks) (d : GuardDecision) (block : Nat) (position : Block → Nat) :
    Edit.Stays (Coded K) R (d.injectSingle h block position) :=
  (GuardCode.stays_guardPointer overflow h d.pointer d.access).collect.bind fun _ =>
    (stays_injectGuards overflow all _ _ _ _).bind fun _ => .answer _

theorem stays_injectHoisted (h : Hooks) (d : GuardDecision) (hoisted : Hoisted) (header preheader : Nat) :
    Edit.Stays (Coded K) R (d.injectHoisted h hoisted header preheader) := by
  unfold injectHoisted
  simp only
  split
  · exact .answer _
  · refine (Stays.ask fun _ _ => .orRaise).bind fun _ => ?_
    split
    · exact (stays_injectSingle overflow all _ _ _ _).bind fun _ => .answer _
    · exact (stays_injectRange overflow all _ _ _ _ _).bind fun _ => .answer _

theorem stays_inject (h : Hooks) (d : GuardDecision) (hoisted : Hoisted) :
    Edit.Stays (Coded K) R (d.inject h hoisted) := by
  refine (stays_setTag _ _ _).bind fun _ => ?_
  split
  · exact .answer _
  · exact stays_injectHoisted overflow all _ _ _ _ _
  · rename_i l _
    refine (Stays.ask fun _ _ => .bind .orRaise fun _ => .orRaise).bind fun position => ?_
    have hinject := (stays_injectSingle overflow all h d l.block fun _ => position).bind fun n => .answer (n, hoisted)
    split
    · exact (Stays.raise _).bind fun _ => hinject
    · exact hinject

theorem stays_injectAll (h : Hooks) (decisions : List GuardDecision) (hoisted : Hoisted) :
    Edit.Stays (Coded K) R (injectAll h decisions hoisted) := by
  induction decisions generalizing hoisted with
  | nil => exact .answer _
  | cons d rest ih => exact (stays_inject overflow all h d hoisted).bind fun r => (ih r.2).bind fun _ => .answer _

end GuardDecision

theorem StackGuardDecision.stays_inject (calls : ∀ name arguments, K (.notify name arguments)) (h : Hooks)
    (d : StackGuardDecision) : Edit.Stays (Coded K) R (d.inject h) := by
  refine (Stays.ask fun c _ => ?_).bind fun place => ?_
  · unfold place
    split
    · exact .bind .orRaise fun _ => .bind .orRaise fun _ => .answer _
    · exact .bind (.bind .orRaise fun _ => .orRaise) fun _ => .answer _
  · exact Edit.stays_inject overflow place.1 (fun _ => place.2) _ fun o ho => List.mem_singleton.mp ho ▸ calls _ _

end RegionGuard

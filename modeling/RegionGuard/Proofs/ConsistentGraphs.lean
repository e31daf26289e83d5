import RegionGuard.Proofs.CustodyPaths
import RegionGuard.Proofs.OverlaidCalls
import RegionGuard.Proofs.SimplifiedLoops
import RegionGuard.Proofs.Stops
set_option autoImplicit false

namespace RegionGuard

variable {R : Fatal → Prop}

/-- A graph whose neighbors agree with its edges, and whose blocks and instructions have numbers of their own. -/
structure FlowGraph.Consistent (c : FlowGraph) : Prop where
  wired : c.graph.Wired
  numbered : c.Numbered

theorem FlowGraph.Made.consistent {c : FlowGraph} (h : c.Made) : c.Consistent := ⟨h.wired, h.numbered⟩

namespace Graph

variable {ν ε : Type} {g : Graph ν ε} {root v : Nat}

theorem Wired.stops_reversePostOrder (wired : g.Wired) : Outcome.Stops R (g.reversePostOrder root) := by
  cases hroot : g.hasVertex root with
  | true => exact .of_ok (wired.reversePostOrder_ok hroot)
  | false =>
    rw [reversePostOrder_of_absent hroot]
    exact .raise _

theorem Wired.stops_dominators (wired : g.Wired) : Outcome.Stops R (g.dominators root) := by
  refine .bind ?_ fun _ => .answer _
  refine wired.stops_reversePostOrder.proceed fun order horder => ?_
  have hok := wired.immediateDominators_ok (hasVertex_of_reversePostOrder horder)
  obtain ⟨order', horder', hrest⟩ := bind_eq_ok.mp hok
  cases horder.symm.trans horder'
  exact .of_ok hrest

theorem Wired.stops_edgesOut (wired : g.Wired) : Outcome.Stops R (g.edgesOut v) := by
  cases hv : g.hasVertex v with
  | true =>
    obtain ⟨es, hes⟩ := wired.exists_edgesOut hv
    exact .of_ok hes
  | false =>
    rw [wired.edgesOut_of_absent hv]
    exact .raise _

end Graph

namespace FlowGraph

variable {c : FlowGraph}

theorem Consistent.stops_dominators (h : c.Consistent) : Outcome.Stops R c.dominators :=
  .bind .orRaise fun _ => h.wired.stops_dominators

theorem Consistent.stops_loopForest (h : c.Consistent) : Outcome.Stops R (LoopForest.ofGraph c) := by
  refine Outcome.Stops.orRaise.proceed fun entry hentry => ?_
  have hentry := orRaise_eq_ok.mp hentry
  by_cases hroot : c.graph.hasVertex entry
  · obtain ⟨f, hf, -⟩ := LoopForest.ofGraph_total h.wired hentry hroot
    obtain ⟨entry', hentry', hrest⟩ := bind_eq_ok.mp hf
    cases hentry.symm.trans (orRaise_eq_ok.mp hentry')
    exact .of_ok hrest
  · have hloops : ∀ loops, c.graph.naturalLoops entry ≠ .ok loops := fun loops h => by
      obtain ⟨order, horder, -⟩ := bind_eq_ok.mp h
      exact hroot (Graph.hasVertex_of_reversePostOrder horder)
    have htree : ∀ tree, c.graph.loopTree entry ≠ .ok tree := fun tree h => by
      obtain ⟨loops, h, -⟩ := bind_eq_ok.mp h
      exact hloops loops h
    refine Outcome.Stops.proceed ?_ fun tree h => absurd h (htree tree)
    refine Outcome.Stops.proceed ?_ fun loops h => absurd h (hloops loops)
    exact h.wired.stops_reversePostOrder.proceed fun order h =>
      absurd (Graph.hasVertex_of_reversePostOrder h) hroot

end FlowGraph

namespace DefUse

theorem stops_ofFunction (f : Function) : Outcome.Stops R (ofFunction f) := by
  refine .bind .orRaise fun _ => .bind (.fold fun ds e _ => ?_) fun _ => .answer _
  obtain ⟨l, i⟩ := e
  dsimp only
  cases i.operation.written? with
  | none => exact .answer _
  | some v => exact .branch (fun _ => .raise _) fun _ => .answer _

end DefUse

namespace WellFormed.Context

variable (x : Context)

theorem stops_refuse {α : Type} (d : Defect) : Outcome.Stops R (x.refuse d : Outcome α) := .raise _

theorem stops_definition (v : Variable) (l : Location) : Outcome.Stops R (x.definition v l) := by
  unfold definition
  split
  · exact .answer _
  · exact x.stops_refuse _

theorem stops_checkIncoming (predecessors : List Nat) (l : Location) (v : Value) (block : Nat) :
    Outcome.Stops R (x.checkIncoming predecessors l v block) := by
  refine .require (x.stops_refuse _) ?_
  cases v with
  | «variable» v =>
    exact .bind (x.stops_definition v l) fun place => .bind .orRaise fun b =>
      .branch (fun _ => .answer _) fun _ => x.stops_refuse _
  | _ => exact .answer _

theorem stops_checkRead (l : Location) (position : Nat) (v : Value) : Outcome.Stops R (x.checkRead l position v) := by
  cases v with
  | «variable» v =>
    exact .bind (x.stops_definition v l) fun place => .branch (fun _ => .answer _) fun _ => x.stops_refuse _
  | argument a => exact .branch (fun _ => .answer _) fun _ => x.stops_refuse _
  | global name => exact .branch (fun _ => .answer _) fun _ => x.stops_refuse _
  | _ => exact .answer _

theorem stops_checkOperation (l : Location) (isLast : Bool) (o : Operation) :
    Outcome.Stops R (x.checkOperation l isLast o) := by
  unfold checkOperation
  split
  · exact .branch (fun _ => .answer _) fun _ => x.stops_refuse _
  · exact .branch (fun _ => .answer _) fun _ => x.stops_refuse _
  · exact .answer _

theorem stops_checkFrom (b : Block) (predecessors successors : List Nat) (position : Nat) (afterOther : Bool)
    (l : List Instruction) : Outcome.Stops R (x.checkFrom b predecessors successors position afterOther l) := by
  induction l generalizing position afterOther with
  | nil => exact .answer _
  | cons i rest ih =>
    unfold checkFrom
    simp only
    split
    · refine .refuse (x.stops_refuse _) (.bind (.each fun e _ => ?_) fun _ => ih _ _)
      exact .bind (x.stops_checkIncoming _ _ _ _) fun _ => .answer _
    · refine .bind (x.stops_checkOperation _ _ _) fun _ => .bind (.each fun v _ => ?_) fun _ => ih _ _
      exact .bind (x.stops_checkRead _ _ _) fun _ => .answer _

theorem stops_checkBlock (b : Block) : Outcome.Stops R (x.checkBlock b) :=
  .bind .orRaise fun _ => .bind .orRaise fun _ => x.stops_checkFrom _ _ _ _ _ _

end WellFormed.Context

section Analyses

variable {f : Function} (consistent : ∀ c ∈ f.body, c.Consistent)

include consistent

theorem FunctionFacts.stops_ofFunction : Outcome.Stops R (FunctionFacts.ofFunction f) :=
  .bind (DefUse.stops_ofFunction f) fun _ => Outcome.Stops.orRaise.proceed fun c hc =>
    .bind (consistent c (orRaise_eq_ok.mp hc)).stops_dominators fun _ => .answer _

/-- The custody analysis comes to an end, and misses no state. -/
theorem Custody.stops_ofDefUse {d : DefUse} (hd : d.function = f) : Outcome.Stops R (Custody.ofDefUse d) := by
  refine Outcome.Stops.orRaise.proceed fun c hc => .bind ?_ fun _ => .answer _
  have hbody := orRaise_eq_ok.mp hc
  have hconsistent := consistent c (hd ▸ hbody)
  refine Outcome.Stops.orRaise.proceed fun entry hentry => ?_
  refine hconsistent.wired.stops_reversePostOrder.proceed fun order horder => ?_
  obtain ⟨hnodup, hmem⟩ := Graph.reversePostOrder_ok horder
  have hordered : Ordered d c entry order :=
    { body := hbody
      wired := hconsistent.wired
      addressable := hconsistent.numbered.addressable
      starts := orRaise_eq_ok.mp hentry
      vertex := Graph.hasVertex_of_reversePostOrder horder
      nodup := hnodup
      mem := hmem }
  obtain ⟨solution, hsolution, -⟩ := solve_ok hordered horder
  obtain ⟨entry', hentry', hsolution⟩ := bind_eq_ok.mp hsolution
  cases hentry.symm.trans hentry'
  obtain ⟨order', horder', hsolution⟩ := bind_eq_ok.mp hsolution
  cases horder.symm.trans horder'
  exact .of_ok hsolution

theorem Program.stops_verifyFunction (p : Program) : Outcome.Stops R (p.verifyFunction f) := by
  refine Outcome.Stops.orRaise.proceed fun c hc => .bind .orRaise fun entry => ?_
  have hconsistent := consistent c (orRaise_eq_ok.mp hc)
  refine .bind ?_ fun d => .bind hconsistent.stops_dominators fun dominators =>
    .bind hconsistent.wired.stops_reversePostOrder fun order => .forM fun b _ => WellFormed.Context.stops_checkBlock _ b
  · unfold WellFormed.definitions
    split
    · exact .raise _
    · exact DefUse.stops_ofFunction f

end Analyses

end RegionGuard

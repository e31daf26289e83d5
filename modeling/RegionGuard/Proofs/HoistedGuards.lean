import RegionGuard.Proofs.Approaches
import RegionGuard.Proofs.GuardedLoops
import RegionGuard.Proofs.LastIterations
import RegionGuard.Proofs.PlacedGuards
import RegionGuard.Proofs.ShieldedAccesses
set_option autoImplicit false

namespace RegionGuard

namespace GuardCode

variable {h : Hooks} {a : Access} {plan : RangePlan} {enters : Option Value} {c c' : FlowGraph}
  {before after operations : List Operation} {u : Unit} {n : Nat}

def endsAfter (plan : RangePlan) (enters : Option Value) : Drafting (Value × Value) := do
  let first ← rebuildPointer plan plan.start
  let value ← chosenLast plan enters
  let last ← rebuildPointer plan value
  return (first, last)

/-- The first and the last address of a range, as code in front of the loop reckons them. -/
def ends (plan : RangePlan) : Drafting (Value × Value) :=
  if plan.topTested then endsAfter plan none
  else do
    let enters ← entersLoop plan
    endsAfter plan (some enters)

theorem adds_chosenLast (plan : RangePlan) (enters : Option Value) : Drafting.Adds n (·.Computes n) (chosenLast plan enters) := by
  refine (adds_lastIteration plan).bind fun counted => ?_
  cases enters with
  | some test => exact adds_compute fun _ => rfl
  | none => exact .answer _

theorem adds_ends (plan : RangePlan) : Drafting.Adds n (·.Computes n) (ends plan) := by
  have hafter : ∀ enters, Drafting.Adds n (·.Computes n) (endsAfter plan enters) := fun enters =>
    (adds_rebuildPointer plan _).bind fun _ => (adds_chosenLast plan enters).bind fun _ =>
      (adds_rebuildPointer plan _).bind fun _ => .answer _
  unfold ends
  split
  · exact hafter none
  · exact (adds_compute fun _ => rfl).bind fun _ => hafter _

/-- A rebuilt pointer is a temporary that has just been given out. -/
theorem avoids_rebuildPointer {value v : Value} (hrun : ((rebuildPointer plan value).run before).run c = .ok ((v, after), c')) :
    v.Avoids c'.nextTemp := by
  unfold rebuildPointer at hrun
  split at hrun
  all_goals
    obtain ⟨index, middle, c₁, -, hrun⟩ := Drafting.bind_ok.mp hrun
    obtain ⟨rfl, -, rfl⟩ := Drafting.compute_ok hrun
    exact Value.avoids_temporary _ (Nat.lt_succ_self _)

def GuardsEnds (h : Hooks) (plan : RangePlan) (a : Access) (operations : List Operation) : Prop :=
  ∃ c c' first last code, (ends plan).collect.run c = .ok (((first, last), code), c') ∧ first.Avoids c'.nextTemp ∧
    last.Avoids c'.nextTemp ∧
    operations = code ++ (guards h first a c'.nextTemp ++ guards h last a (c'.nextTemp + 1))

theorem guardRange_ok (hrun : ((guardRange h plan a enters).run before).run c = .ok ((u, after), c')) :
    ∃ first last middle c₁, ((endsAfter plan enters).run before).run c = .ok (((first, last), middle), c₁) ∧
      first.Avoids c₁.nextTemp ∧ last.Avoids c₁.nextTemp ∧
      after = middle ++ (guards h first a c₁.nextTemp ++ guards h last a (c₁.nextTemp + 1)) ∧
      c' = c₁.withTemps (c₁.nextTemp + 2) := by
  rw [guardRange_eq] at hrun
  obtain ⟨first, front, c₁, hfirst, hrun⟩ := Drafting.bind_ok.mp hrun
  obtain ⟨value, middle, c₂, hvalue, hrun⟩ := Drafting.bind_ok.mp hrun
  obtain ⟨last, code, c₃, hlast, hrun⟩ := Drafting.bind_ok.mp hrun
  obtain ⟨_, guarded, c₄, hguard, hrun⟩ := Drafting.bind_ok.mp hrun
  obtain ⟨rfl, rfl⟩ := guardPointer_ok hguard
  obtain ⟨rfl, rfl⟩ := guardPointer_ok hrun
  obtain ⟨-, next, hnext, rfl⟩ := adds_chosenLast (n := c₁.nextTemp) plan enters _ _ _ _ _ (Nat.le_refl _) hvalue
  obtain ⟨-, next', hnext', rfl⟩ := adds_rebuildPointer (n := next) plan value _ _ _ _ _ (Nat.le_refl _) hlast
  refine ⟨first, last, code, _, Drafting.bind_ok.mpr ⟨_, _, _, hfirst, Drafting.bind_ok.mpr ⟨_, _, _, hvalue,
    Drafting.bind_ok.mpr ⟨_, _, _, hlast, rfl⟩⟩⟩, (avoids_rebuildPointer hfirst).mono (Nat.le_trans hnext hnext'),
    avoids_rebuildPointer hlast, ?_, rfl⟩
  rw [List.append_assoc]
  rfl

theorem guardsEnds_of_collect (tested : plan.topTested = false)
    (hrun : (Drafting.collect do
      let enters ← entersLoop plan
      guardRange h plan a (some enters)).run c = .ok ((u, operations), c')) : GuardsEnds h plan a operations := by
  obtain ⟨enters, test, c₁, htest, hrun⟩ := Drafting.bind_ok.mp hrun
  obtain ⟨first, last, code, c₂, hcode, hfirst, hlast, rfl, -⟩ := guardRange_ok hrun
  refine ⟨c, c₂, first, last, code, ?_, hfirst, hlast, rfl⟩
  unfold ends
  rw [tested, if_neg Bool.false_ne_true]
  exact Drafting.bind_ok.mpr ⟨enters, test, c₁, htest, hcode⟩

theorem guardsEnds_of_collect_none (tested : plan.topTested = true)
    (hrun : (guardRange h plan a none).collect.run c = .ok ((u, operations), c')) : GuardsEnds h plan a operations := by
  obtain ⟨first, last, code, c₁, hcode, hfirst, hlast, rfl, -⟩ := guardRange_ok hrun
  refine ⟨c, c₁, first, last, code, ?_, hfirst, hlast, rfl⟩
  unfold ends
  rw [tested, if_pos rfl]
  exact hcode

end GuardCode

namespace FlowGraph

variable {c c' : FlowGraph} {n entering : Nat} {exits : Nat → Edge → Prop}

/-- New blocks that control comes to over certain edges only, among them the block that enters a loop, unless each edge from
that is one of those itself. -/
structure IsScreened (c : FlowGraph) (n : Nat) (exits : Nat → Edge → Prop) (entering : Nat) (behind : Nat → Prop) : Prop where
  new : ∀ k, behind k → n ≤ k ∧ c.graph.hasVertex k
  closed : ∀ y k e, c.graph.edges.get? (y, k) = some e → behind k → behind y ∨ exits y e
  opens : behind entering ∨ ∀ e, exits entering e

def Screens (c : FlowGraph) (n : Nat) (exits : Nat → Edge → Prop) (entering : Nat) : Prop :=
  ∃ behind, c.IsScreened n exits entering behind

theorem screens_self (c : FlowGraph) (n entering : Nat) : c.Screens n (fun y _ => y = entering) entering :=
  ⟨fun _ => False, fun _ hk => hk.elim, fun _ _ _ _ hk => hk.elim, .inr fun _ => rfl⟩

theorem Screens.congr (hc : c.Screens n exits entering) (hedges : c'.graph.edges = c.graph.edges)
    (hvertex : ∀ k, c.graph.hasVertex k → c'.graph.hasVertex k) : c'.Screens n exits entering := by
  obtain ⟨behind, new, closed, opens⟩ := hc
  exact ⟨behind, fun k hk => (new k hk).imp_right (hvertex k), fun y k e he => closed y k e (hedges ▸ he), opens⟩

/-- Two new blocks take the place of an edge: one is passed through or not, and both ways meet in the other one. -/
structure Detours (c : FlowGraph) (y x guards join : Nat) (test : Value) (c' : FlowGraph) : Prop where
  numbers : c.nextBlock ≤ guards ∧ guards < join ∧ c.nextBlock ≤ c'.nextBlock
  fresh : ¬ c.graph.hasVertex guards ∧ ¬ c.graph.hasVertex join
  vertices : ∀ k, c.graph.hasVertex k ∨ k = guards ∨ k = join → c'.graph.hasVertex k
  edges : ∀ a b, c'.graph.edges.get? (a, b) =
    if (a, b) = (join, x) then some (.make join x none)
    else if (a, b) = (guards, join) then some (.make guards join none)
    else if (a, b) = (y, join) then some (.make y join (some (.isFalse test)))
    else if (a, b) = (y, guards) then some (.make y guards (some (.isTrue test)))
    else if (a, b) = (y, x) then none else c.graph.edges.get? (a, b)

namespace Detours

variable {y x guards join : Nat} {test : Value}

theorem edge_old (d : c.Detours y x guards join test c') {a b : Nat} {e : Edge} (he : c'.graph.edges.get? (a, b) = some e)
    (hb : c.graph.hasVertex b) (hne : b ≠ x) : c.graph.edges.get? (a, b) = some e := by
  have hguards : b ≠ guards := fun heq => d.fresh.1 (heq ▸ hb)
  have hjoin : b ≠ join := fun heq => d.fresh.2 (heq ▸ hb)
  rw [d.edges] at he
  simpa only [Prod.mk.injEq, hne, hguards, hjoin, and_false, if_false] using he

theorem edge_guards (d : c.Detours y x guards join test c') (wired : c.graph.Wired) (hx : x < c.nextBlock) {a : Nat}
    {e : Edge} (he : c'.graph.edges.get? (a, guards) = some e) : a = y := by
  by_contra hne
  have hjoin : guards ≠ join := Nat.ne_of_lt d.numbers.2.1
  have hheader : guards ≠ x := Nat.ne_of_gt (Nat.lt_of_lt_of_le hx d.numbers.1)
  rw [d.edges] at he
  simp only [Prod.mk.injEq, hne, hjoin, hheader, and_false, false_and, if_false] at he
  exact d.fresh.1 (wired.ends _ _ (by rw [he]; rfl)).2

theorem edge_join (d : c.Detours y x guards join test c') (wired : c.graph.Wired) (hx : x < c.nextBlock) {a : Nat}
    {e : Edge} (he : c'.graph.edges.get? (a, join) = some e) :
    a = guards ∨ a = y ∧ e.condition = some (.isFalse test) := by
  have hheader : join ≠ x := by
    have := d.numbers
    omega
  rw [d.edges] at he
  simp only [Prod.mk.injEq, hheader, and_false, and_true, if_false] at he
  split at he
  · rename_i heq
    exact .inl heq
  · split at he
    · rename_i heq
      cases he
      exact .inr ⟨heq, rfl⟩
    · rw [if_neg fun h => Nat.ne_of_gt d.numbers.2.1 h.2] at he
      exact absurd (wired.ends _ _ (by rw [he]; rfl)).2 d.fresh.2

theorem filed (d : c.Detours y x guards join test c') (hc : c.graph.Filed) : c'.graph.Filed := by
  intro a b e he
  rw [d.edges] at he
  split_ifs at he with hjoin hguards hpast hthrough
  · cases hjoin
    cases he
    exact ⟨rfl, rfl⟩
  · cases hguards
    cases he
    exact ⟨rfl, rfl⟩
  · cases hpast
    cases he
    exact ⟨rfl, rfl⟩
  · cases hthrough
    cases he
    exact ⟨rfl, rfl⟩
  · exact hc a b e he

theorem screens_other (d : c.Detours y x guards join test c') (hx : x < n) (hc : c.Screens n exits entering) :
    c'.Screens n exits entering := by
  obtain ⟨behind, new, closed, opens⟩ := hc
  refine ⟨behind, fun k hk => ⟨(new k hk).1, d.vertices k (.inl (new k hk).2)⟩, fun a b e he hb => ?_, opens⟩
  exact closed a b e (d.edge_old he (new b hb).2 (Nat.ne_of_gt (Nat.lt_of_lt_of_le hx (new b hb).1))) hb

/-- The block in front of the test is no longer the one that enters the loop, but the one where both ways meet. -/
theorem screens_same (d : c.Detours y x guards join test c') (wired : c.graph.Wired) (hx : x < n) (hn : n ≤ c.nextBlock)
    (hc : c.Screens n exits y) : c'.Screens n exits join := by
  obtain ⟨behind, new, closed, opens⟩ := hc
  have hx' := Nat.lt_of_lt_of_le hx hn
  have hnumbers := d.numbers
  have opened : ∀ e, behind y ∨ exits y e := fun e => opens.imp_right fun h => h e
  refine ⟨fun k => behind k ∨ k = guards ∨ k = join, fun k hk => ?_, fun a b e he hb => ?_, .inl (.inr (.inr rfl))⟩
  · rcases hk with hk | rfl | rfl
    · exact ⟨(new k hk).1, d.vertices k (.inl (new k hk).2)⟩
    · exact ⟨by omega, d.vertices _ (.inr (.inl rfl))⟩
    · exact ⟨by omega, d.vertices _ (.inr (.inr rfl))⟩
  · rcases hb with hb | rfl | rfl
    · exact (closed a b e (d.edge_old he (new b hb).2 (Nat.ne_of_gt (Nat.lt_of_lt_of_le hx (new b hb).1))) hb).imp_left .inl
    · obtain rfl := d.edge_guards wired hx' he
      exact (opened e).imp_left .inl
    · rcases d.edge_join wired hx' he with rfl | ⟨rfl, -⟩
      · exact .inl (.inr (.inl rfl))
      · exact (opened e).imp_left .inl

/-- Control comes to where both ways meet from the guards, or past a test that fails. -/
theorem screens (d : c.Detours y x guards join test c') (wired : c.graph.Wired) (hx : x < n) (hn : n ≤ c.nextBlock) :
    c'.Screens n (fun a e => a = guards ∨ a = y ∧ e.condition = some (.isFalse test)) join := by
  have hnumbers := d.numbers
  refine ⟨(· = join), ?_, ?_, .inl rfl⟩
  · rintro _ rfl
    exact ⟨by omega, d.vertices _ (.inr (.inr rfl))⟩
  · rintro a _ e he rfl
    exact .inr (d.edge_join wired (Nat.lt_of_lt_of_le hx hn) he)

end Detours

theorem hasVertex_iff {k : Nat} : c.graph.hasVertex k = true ↔ ∃ b, c.block k = .ok b := by
  change (c.graph.vertices.get? k).isSome = true ↔ _
  rw [Option.isSome_iff_exists]
  exact exists_congr fun b => block_eq_ok.symm

end FlowGraph

namespace GuardDecision

open FlowGraph

variable {h : Hooks} {c c' : FlowGraph} {d : GuardDecision} {plan : RangePlan} {y x join : Nat}

theorem isInner_of_mayHoist {m : Margin} {operations : List Operation} (hall : ∀ o ∈ operations, o.MayHoist m) :
    ∀ o ∈ operations, o.IsInner := fun o ho => ((hall o ho).isGuarding (Nat.zero_le _)).isInner

/-- The guards of a range that may not be entered stand in a block of their own, behind a test. -/
theorem detours_injectRange (tested : plan.topTested = true) (numbered : c.Numbered)
    (hrun : (d.injectRange h plan y x).run c = .ok (join, c')) :
    ∃ guards test operations m m', c.Detours y x guards join (.variable test) c' ∧
      GuardCode.GuardsEnds h plan d.access operations ∧ c'.Hosts h m guards operations ∧
      c'.Hosts h m' y [.compare test plan.predicate plan.start plan.bound] ∧ ¬ test.IsUpcoming m' := by
  let margin := c.margin h fun _ _ _ => False
  obtain ⟨enters, test, c₁, c₂, operations, c₃, guards, c₄, c₅, c₆, e, c₇, c₈, c₉, c₁₀, c₁₁, htest,
    hinject, hcollect, hguards, hfill, hjoin, hremove, hthrough, hpast, hpasses, hjoins, hrename⟩ :=
    injectRange_around_ok tested hrun
  have hends := GuardCode.guardsEnds_of_collect_none tested hcollect
  -- The test goes to the end of the block, and stays there.
  obtain ⟨htests, -⟩ := (GuardCode.adds_entersLoop (m := margin) plan).collect_ok (Nat.le_refl _) htest
  obtain ⟨rfl, rfl, rfl⟩ := Drafting.compute_ok htest
  have hosts₂ : c₂.Hosts h (c.nextTemp + 1) y _ :=
    hosts_of_inject (c := c.withTemps (c.nextTemp + 1)) numbered (Nat.le_refl _)
      (fun b _ => b.isReturn_of_terminatorPosition) hinject
  have stays := tallied_hosts (h := h) (n := c.nextTemp + 1) (k := y) (isInner_of_mayHoist htests)
  -- So do the guards, in a block of their own.
  obtain ⟨hoperations, next, hnext, rfl⟩ := (GuardCode.adds_guardRange (m := c₂.margin h fun _ _ _ => False) plan
    d.access none).collect_ok (Nat.le_refl _) hcollect
  obtain ⟨hempty, hothers₄⟩ := block_newBlock hguards
  have hosts₄ := stays.newBlock 0 _ _ _ (stays.temps 0 c₂ next hnext hosts₂) hguards
  have hfilled : c₅.Hosts h next guards operations :=
    hosts_of_inject hosts₄.numbered ((newBlock_ok hguards).2.2.2.1.symm ▸ Nat.le_refl _)
      (fun b hb i hi => by
        cases hempty.symm.trans hb
        cases hi) hfill
  have hosts₅ := stays.inject 0 _ _ _ (fun _ => 0) _ _ _ hosts₄ (fun o ho => (hoperations o ho).isGuarding hosts₂.temps)
    (fun _ _ => Block.isSeam_zero _) hfill
  have stay : ∀ {n k code}, Tallied h n Block.IsSeam (fun _ => Hosts h n k code) → c₅.Hosts h n k code →
      c'.Hosts h n k code := fun {n k code} hT hosts =>
    hT.renamed 0 _ _ _ _ _ (hT.insertEdge (m := 0) (hT.insertEdge (m := 0) (hT.insertEdge (m := 0) (hT.insertEdge (m := 0)
      (hT.removeEdge (m := 0) (hT.newBlock 0 _ _ _ hosts hjoin) hremove) hthrough) hpast) hpasses) hjoins) hrename
  -- What the edges and the blocks are in the end.
  obtain ⟨hempty₆, hothers₆⟩ := block_newBlock hjoin
  have hblock₁₁ : ∀ k, c₁₁.block k = c₆.block k := fun k =>
    (block_insertEdge hjoins k).trans <| (block_insertEdge hpasses k).trans <| (block_insertEdge hpast k).trans <|
      (block_insertEdge hthrough k).trans (block_removeEdge hremove k)
  have kept : ∀ k b, c₆.block k = .ok b → ∃ b', c'.block k = .ok b' := fun k b hb =>
    stored_modifyBlock hrename k b ((hblock₁₁ k).trans hb)
  have absent : ∀ {c c' : FlowGraph} {k : Nat}, c.newBlock = .ok (k, c') → ∀ b, c.block k ≠ .ok b := fun hn b hb => by
    cases (block_eq_ok.mp hb).symm.trans (Graph.insertVertex_ok (newBlock_ok hn).2.2.2.2).1
  have stored₅ : ∀ k b, c.block k = .ok b → ∃ b', c₅.block k = .ok b' := fun k b hb => by
    obtain ⟨b', hb'⟩ := stored_modifyBlock hinject k b hb
    exact stored_modifyBlock hfill k b' ((hothers₄ k fun heq => absent hguards b' (heq ▸ hb')).trans hb')
  refine ⟨guards, _, operations, next, c.nextTemp + 1, ⟨?_, ⟨fun hv => ?_, fun hv => ?_⟩, fun k hk => ?_, fun a b => ?_⟩, hends,
    stay (tallied_hosts (isInner_of_mayHoist hoperations)) hfilled, stay stays hosts₅,
    fun hup => Nat.not_succ_le_self _ (Variable.isUpcoming_temporary.mp hup)⟩
  · have h₂ : c₂.nextBlock = c.nextBlock := (modifyBlock_fields hinject).2.2
    have h₄ := newBlock_ok hguards
    have h₅ := (modifyBlock_fields hfill).2.2
    have h₆ := newBlock_ok hjoin
    have h₁₂ := (modifyBlock_fields hrename).2.2
    have h₁₁ : c₁₁.nextBlock = c₆.nextBlock := by
      rw [(insertEdge_ok hjoins).2, (insertEdge_ok hpasses).2, (insertEdge_ok hpast).2, (insertEdge_ok hthrough).2,
        (removeEdge_ok hremove).2]
    have hguards : guards = c₂.nextBlock := h₄.1
    omega
  · obtain ⟨b, hb⟩ := hasVertex_iff.mp hv
    obtain ⟨b', hb'⟩ := stored_modifyBlock hinject guards b hb
    exact absent hguards b' hb'
  · obtain ⟨b, hb⟩ := hasVertex_iff.mp hv
    obtain ⟨b', hb'⟩ := stored₅ join b hb
    exact absent hjoin b' hb'
  · rcases hk with hk | rfl | rfl
    · obtain ⟨b, hb⟩ := hasVertex_iff.mp hk
      obtain ⟨b', hb'⟩ := stored₅ k b hb
      exact hasVertex_iff.mpr (kept k b' ((hothers₆ k fun heq => absent hjoin b' (heq ▸ hb')).trans hb'))
    · obtain ⟨-, -, b, hb, -⟩ := stay (tallied_hosts (isInner_of_mayHoist hoperations)) hfilled
      exact hasVertex_iff.mpr ⟨b, hb⟩
    · exact hasVertex_iff.mpr (kept _ _ hempty₆)
  · have hedges₂ : c₂.graph.edges = c.graph.edges := edges_modifyBlock (c := c.withTemps (c.nextTemp + 1)) hinject
    have hedges₆ : c₆.graph.edges = c.graph.edges := by
      rw [edges_newBlock hjoin, edges_modifyBlock hfill, edges_newBlock hguards]
      exact hedges₂
    rw [edges_modifyBlock hrename, edge_insertEdge hjoins, edge_insertEdge hpasses, edge_insertEdge hpast,
      edge_insertEdge hthrough, edge_removeEdge hremove, hedges₆]

end GuardDecision

theorem GuardCode.GuardsEnds.isInner {h : Hooks} {plan : RangePlan} {a : Access} {operations : List Operation}
    (hends : GuardsEnds h plan a operations) : ∀ o ∈ operations, o.IsInner := by
  obtain ⟨c, c', first, last, code, hcode, -, -, rfl⟩ := hends
  obtain ⟨hcomputes, -⟩ := (adds_ends (n := c.nextTemp) plan).collect_ok (Nat.le_refl _) hcode
  intro o ho
  rcases List.mem_append.mp ho with ho | ho
  · exact (show o.IsGuarding h c.nextTemp from .inl (hcomputes o ho)).isInner
  · rcases List.mem_append.mp ho with ho | ho <;> exact (isGuarding_of_mem (Nat.zero_le _) ho).isInner

namespace FlowGraph

variable {h : Hooks} {n entering entering' : Nat} {c c' : FlowGraph} {d : GuardDecision}

/-- The guards of a decision stand in a block that control passes through before it comes to the one that a loop is entered
from, or behind a test there that sends control past them. -/
inductive Fronts (h : Hooks) (n : Nat) (c : FlowGraph) (d : GuardDecision) (entering : Nat) : Prop
  | single {number k : Nat} (shape : d.shape = .single) (avoids : d.pointer.Avoids number)
    (hosts : c.Hosts h (number + 1) k (GuardCode.guards h d.pointer d.access number))
    (screens : c.Screens n (fun y _ => y = k) entering)
  | above {plan : RangePlan} {operations : List Operation} {m k : Nat} (shape : d.shape = .range plan)
    (guards : GuardCode.GuardsEnds h plan d.access operations) (hosts : c.Hosts h m k operations)
    (screens : c.Screens n (fun y _ => y = k) entering)
  | around {plan : RangePlan} {operations : List Operation} {m m' k y : Nat} {test : Variable} (shape : d.shape = .range plan)
    (tested : plan.topTested = true) (guards : GuardCode.GuardsEnds h plan d.access operations)
    (hosts : c.Hosts h m k operations) (hostsTest : c.Hosts h m' y [.compare test plan.predicate plan.start plan.bound])
    (spared : ¬ test.IsUpcoming m')
    (screens : c.Screens n (fun a e => a = k ∨ a = y ∧ e.condition = some (.isFalse (.variable test))) entering)

theorem Fronts.mono (hd : Fronts h n c d entering)
    (hosts : ∀ m k code, (∀ o ∈ code, o.IsInner) → c.Hosts h m k code → c'.Hosts h m k code)
    (screens : ∀ exits, c.Screens n exits entering → c'.Screens n exits entering') : Fronts h n c' d entering' := by
  cases hd with
  | single shape avoids hosts' screens' =>
    exact .single shape avoids (hosts _ _ _ (fun o ho => (GuardCode.isGuarding_of_mem (Nat.zero_le _) ho).isInner) hosts')
      (screens _ screens')
  | above shape guards hosts' screens' => exact .above shape guards (hosts _ _ _ guards.isInner hosts') (screens _ screens')
  | around shape tested guards hosts' hostsTest spared screens' =>
    refine .around shape tested guards (hosts _ _ _ guards.isInner hosts') (hosts _ _ _ (fun o ho => ?_) hostsTest) spared
      (screens _ screens')
    rw [List.mem_singleton.mp ho]
    exact ⟨rfl, rfl, rfl⟩

structure Spans (c c' : FlowGraph) : Prop where
  edges : c'.graph.edges = c.graph.edges
  vertices : ∀ k, c.graph.hasVertex k → c'.graph.hasVertex k
  blocks : c'.nextBlock = c.nextBlock

theorem Spans.trans {c'' : FlowGraph} (h : c.Spans c') (h' : c'.Spans c'') : c.Spans c'' :=
  ⟨h'.edges.trans h.edges, fun k hk => h'.vertices k (h.vertices k hk), h'.blocks.trans h.blocks⟩

theorem spans_modifyBlock {n k : Nat} {f : Block → Outcome Block} (hf : (c.withTemps n).modifyBlock k f = .ok c') :
    c.Spans c' := by
  refine ⟨edges_modifyBlock (c := c.withTemps n) hf, fun j hj => ?_, (modifyBlock_fields hf).2.2⟩
  obtain ⟨b, hb⟩ := hasVertex_iff.mp hj
  exact hasVertex_iff.mpr (stored_modifyBlock hf j b hb)

theorem steadfast_temps (h : Hooks) (n : Nat) : Steadfast h n fun c => n ≤ c.nextTemp where
  bound _ hc := hc
  temps _ _ hnext hc := Nat.le_trans hc hnext
  blocks _ _ hc _ _ ht := hc.trans_eq ht.symm
  newBlock _ _ _ hc hn := hc.trans_eq (newBlock_ok hn).2.2.2.1.symm
  inject _ _ _ _ _ _ _ hc _ hi := hc.trans_eq (modifyBlock_fields hi).2.1.symm
  guarded _ _ _ _ hc hg := hc.trans_eq (modifyBlock_fields hg).2.1.symm
  renamed _ _ _ _ _ hc hr := hc.trans_eq (modifyBlock_fields hr).2.1.symm

end FlowGraph

/-- The block that a loop is entered from since guards of ranges have been put in front of it. -/
def Hoisted.entrance (hoisted : Hoisted) (header preheader : Nat) : Nat := (hoisted.entering.get? header).getD preheader

def GuardDecision.key (d : GuardDecision) (preheader : Nat) : Nat × Value × Access × Bool :=
  (preheader, d.pointer, d.access, d.isRange)

namespace GuardDecision

open FlowGraph

variable {h : Hooks} {root : Nat} {forest : LoopForest} {ds : List GuardDecision} {body c c' : FlowGraph}
  {hoisted hoisted' : Hoisted} {d : GuardDecision} {l : NaturalLoop} {pre count : Nat}

structure Fronted (h : Hooks) (root : Nat) (forest : LoopForest) (ds : List GuardDecision) (body : FlowGraph)
    (hoisted : Hoisted) (c : FlowGraph) : Prop where
  entered : Entered root forest hoisted c
  filed : c.graph.Filed
  spares : c.Numbered ∧ body.Spares c
  temps : body.nextTemp ≤ c.nextTemp
  blocks : body.nextBlock ≤ c.nextBlock
  inside : ∀ l ∈ forest.toList, ∀ pre, l.preheader = some pre → ∀ k < body.nextBlock,
    (c.graph.Inside root l.header k ↔ body.graph.Inside root l.header k)
  screens : ∀ l ∈ forest.toList, ∀ pre, l.preheader = some pre →
    c.Screens body.nextBlock (fun y _ => y = pre) (hoisted.entrance l.header pre)
  fronts : ∀ l ∈ forest.toList, ∀ pre, l.preheader = some pre → ∀ key ∈ hoisted.guards, key.1 = pre →
    ∃ d ∈ ds, d.placement = .preheader l.header pre ∧ d.key pre = key ∧
      Fronts h body.nextBlock c d (hoisted.entrance l.header pre)

structure Preceded (root : Nat) (forest : LoopForest) (body : FlowGraph) : Prop where
  enters : ∀ l ∈ forest.toList, ∀ pre, l.preheader = some pre → body.graph.EntersBy root l.header pre
  known : ∀ l ∈ forest.toList, ∀ pre, l.preheader = some pre → l.header < body.nextBlock

theorem Preceded.header_eq (hp : Preceded root forest body) {l' : NaturalLoop} (hl : l ∈ forest.toList)
    (hpre : l.preheader = some pre) (hl' : l' ∈ forest.toList) (hpre' : l'.preheader = some pre) : l.header = l'.header :=
  (hp.enters l' hl' pre hpre').sole _ (hp.enters l hl pre hpre).edge

theorem Preceded.preheader_eq (hp : Preceded root forest body) {l' : NaturalLoop} {pre' : Nat} (hl : l ∈ forest.toList)
    (hpre : l.preheader = some pre) (hl' : l' ∈ forest.toList) (hpre' : l'.preheader = some pre')
    (hheader : l'.header = l.header) : pre' = pre := by
  have enters' := hp.enters l' hl' pre' hpre'
  rw [hheader] at enters'
  exact ((hp.enters l hl pre hpre).only pre' enters'.edge).resolve_left enters'.outside

namespace Fronted

/-- A step that changes no edge keeps all of this, if the guards that it adds stand in front of their loop. -/
theorem keep (g : Fronted h root forest ds body hoisted c) (entered : Entered root forest hoisted' c')
    (spares : c'.Numbered ∧ body.Spares c') (temps : body.nextTemp ≤ c'.nextTemp) (spans : c.Spans c')
    (hosts : ∀ m k code, (∀ o ∈ code, o.IsInner) → c.Hosts h m k code → c'.Hosts h m k code)
    (hentrance : ∀ l ∈ forest.toList, ∀ pre, l.preheader = some pre →
      hoisted'.entrance l.header pre = hoisted.entrance l.header pre)
    (added : ∀ l ∈ forest.toList, ∀ pre, l.preheader = some pre → ∀ key ∈ hoisted'.guards, key.1 = pre →
      key ∉ hoisted.guards → ∃ d ∈ ds, d.placement = .preheader l.header pre ∧ d.key pre = key ∧
        Fronts h body.nextBlock c' d (hoisted.entrance l.header pre)) : Fronted h root forest ds body hoisted' c' := by
  have same : ∀ exits k, c.Screens body.nextBlock exits k → c'.Screens body.nextBlock exits k := fun _ _ hc =>
    hc.congr spans.edges spans.vertices
  refine ⟨entered, fun v w e he => g.filed v w e (spans.edges ▸ he), spares, temps, g.blocks.trans_eq spans.blocks.symm,
    fun l hl pre hpre k hk => ?_, fun l hl pre hpre => ?_, fun l hl pre hpre key hkey hfirst => ?_⟩
  · have bridges : Graph.Bridges c.graph c'.graph root l.header [] [] := .of_edges _ fun v w => by rw [spans.edges]
    rw [← g.inside l hl pre hpre k hk]
    exact ⟨fun hin => (bridges.inside_old List.not_mem_nil hin).1 List.not_mem_nil, bridges.inside List.not_mem_nil⟩
  · rw [hentrance l hl pre hpre]
    exact same _ _ (g.screens l hl pre hpre)
  · rw [hentrance l hl pre hpre]
    by_cases hold : key ∈ hoisted.guards
    · obtain ⟨d, hd, hplacement, hsame, hfronts⟩ := g.fronts l hl pre hpre key hold hfirst
      exact ⟨d, hd, hplacement, hsame, hfronts.mono hosts fun exits => same exits _⟩
    · exact added l hl pre hpre key hkey hfirst hold

/-- Nor does a step that puts guards into blocks of their own in front of a loop. -/
theorem detour (g : Fronted h root forest ds body hoisted c) (hp : Preceded root forest body) (hl : l ∈ forest.toList)
    (hpre : l.preheader = some pre) (entered : Entered root forest hoisted' c') (spares : c'.Numbered ∧ body.Spares c')
    (temps : body.nextTemp ≤ c'.nextTemp)
    (hosts : ∀ m k code, (∀ o ∈ code, o.IsInner) → c.Hosts h m k code → c'.Hosts h m k code) {guards join : Nat}
    {test : Value} (detours : c.Detours (hoisted.entrance l.header pre) l.header guards join test c') {new : List Nat}
    (bridges : Graph.Bridges c.graph c'.graph root l.header new [hoisted.entrance l.header pre])
    (hnew : ∀ k ∈ new, c.nextBlock ≤ k) (hentering : hoisted'.entering = hoisted.entering.insert l.header join)
    (hguards : hoisted'.guards = d.key pre :: hoisted.guards) (hd : d ∈ ds) (hplacement : d.placement = .preheader l.header pre)
    (hfronts : Fronts h body.nextBlock c' d join) : Fronted h root forest ds body hoisted' c' := by
  have wired := g.entered.simple.wired
  have hentrance : ∀ header pre', hoisted'.entrance header pre' =
      if header = l.header then join else hoisted.entrance header pre' := by
    intro header pre'
    unfold Hoisted.entrance
    rw [hentering, Table.get?_insert]
    split <;> rfl
  have hscreens : ∀ l' ∈ forest.toList, ∀ pre', l'.preheader = some pre' → ∀ exits,
      c.Screens body.nextBlock exits (hoisted.entrance l'.header pre') →
        c'.Screens body.nextBlock exits (hoisted'.entrance l'.header pre') := by
    intro l' hl' pre' hpre' exits hc
    rw [hentrance]
    split
    · rename_i hheader
      rw [hheader, hp.preheader_eq hl hpre hl' hpre' hheader] at hc
      exact detours.screens_same wired (hp.known l hl pre hpre) g.blocks hc
    · exact detours.screens_other (hp.known l hl pre hpre) hc
  refine ⟨entered, detours.filed g.filed, spares, temps, Nat.le_trans g.blocks detours.numbers.2.2,
    fun l' hl' pre' hpre' k hk => ?_,
    fun l' hl' pre' hpre' => hscreens l' hl' pre' hpre' _ (g.screens l' hl' pre' hpre'), fun l' hl' pre' hpre' key hkey hfirst => ?_⟩
  · have hheader := (bridges.ends_old (g.entered.entering l' hl' pre' hpre').edge).2
    have hold : k ∉ new := fun hmem => Nat.not_le_of_lt (Nat.lt_of_lt_of_le hk g.blocks) (hnew k hmem)
    rw [← g.inside l' hl' pre' hpre' k hk]
    exact ⟨fun hin => (bridges.inside_old hheader hin).1 hold, bridges.inside hheader⟩
  · rw [hguards] at hkey
    rcases List.mem_cons.mp hkey with rfl | hkey
    · obtain rfl : pre = pre' := hfirst
      have hheader := hp.header_eq hl hpre hl' hpre'
      rw [hentrance, if_pos hheader.symm]
      exact ⟨d, hd, hheader ▸ hplacement, rfl, hfronts⟩
    · obtain ⟨e, he, hplacement', hsame, hfronts'⟩ := g.fronts l' hl' pre' hpre' key hkey hfirst
      exact ⟨e, he, hplacement', hsame, hfronts'.mono hosts fun exits => hscreens l' hl' pre' hpre' exits⟩

theorem injectHoisted (g : Fronted h root forest ds body hoisted c) (hp : Preceded root forest body) (hl : l ∈ forest.toList)
    (hpre : l.preheader = some pre) (hd : d ∈ ds) (hplacement : d.placement = .preheader l.header pre)
    (avoids : d.pointer.Avoids body.nextTemp)
    (hrun : (d.injectHoisted h hoisted l.header pre).run c = .ok ((count, hoisted'), c')) :
    Fronted h root forest ds body hoisted' c' ∧ hoisted.guards ⊆ hoisted'.guards ∧ d.key pre ∈ hoisted'.guards := by
  have entered := g.entered.injectHoisted hl hpre hrun
  have spares := tallied_injectHoisted (m := 0) ((indifferent_spares body).steadfast h).tallied g.spares hrun
  have temps := tallied_injectHoisted (m := 0) (steadfast_temps h body.nextTemp).tallied g.temps hrun
  have hosts : ∀ m k code, (∀ o ∈ code, o.IsInner) → c.Hosts h m k code → c'.Hosts h m k code :=
    fun m k code inner hc => tallied_injectHoisted (m := 0) (tallied_hosts inner) hc hrun
  unfold GuardDecision.injectHoisted at hrun
  simp only at hrun
  split at hrun
  · rename_i hkey
    obtain ⟨hanswer, rfl⟩ := Edit.pure_ok.mp hrun
    cases hanswer
    exact ⟨g, List.Subset.refl _, hkey⟩
  · obtain ⟨_, c₁, hask, hplace⟩ := Edit.bind_ok.mp hrun
    obtain ⟨-, rfl⟩ := Edit.ask_ok.mp hask
    cases hshape : d.shape with
    | single =>
      rw [hshape] at hplace
      obtain ⟨n, c₂, hinjection, hcount⟩ := Edit.bind_ok.mp hplace
      obtain ⟨hanswer, rfl⟩ := Edit.pure_ok.mp hcount
      cases hanswer
      obtain ⟨⟨_, operations⟩, c₃, hcollect, hcode⟩ := Edit.bind_ok.mp hinjection
      obtain ⟨_, c₄, hinject, hone⟩ := Edit.bind_ok.mp hcode
      obtain ⟨-, rfl⟩ := Edit.pure_ok.mp hone
      obtain ⟨rfl, rfl⟩ := GuardCode.collect_guardPointer hcollect
      have hinject := Edit.step_ok.mp hinject
      have hosted := hosts_of_inject (n := c₁.nextTemp + 1) (h := h) (c := c₁.withTemps (c₁.nextTemp + 1)) g.spares.1 (Nat.le_refl _)
        (fun b _ => b.isReturn_of_terminatorPosition) hinject
      have spans := spans_modifyBlock hinject
      refine ⟨g.keep entered spares temps spans hosts (fun _ _ _ _ => rfl) ?_, fun _ hkey => List.mem_cons_of_mem _ hkey,
        List.mem_cons_self⟩
      intro l' hl' pre' hpre' key hkey hfirst hold
      obtain rfl := (List.mem_cons.mp hkey).resolve_right hold
      obtain rfl : pre = pre' := hfirst
      exact ⟨d, hd, hp.header_eq hl hpre hl' hpre' ▸ hplacement, rfl, .single hshape (avoids.mono g.temps) hosted
        ((g.screens l' hl' pre hpre').congr spans.edges spans.vertices)⟩
    | range plan =>
      rw [hshape] at hplace
      obtain ⟨join, c₂, hinjection, hcount⟩ := Edit.bind_ok.mp hplace
      obtain ⟨hanswer, rfl⟩ := Edit.pure_ok.mp hcount
      cases hanswer
      refine ⟨?_, fun _ hkey => List.mem_cons_of_mem _ hkey, List.mem_cons_self⟩
      cases tested : plan.topTested with
      | true =>
        obtain ⟨guards, test, operations, m, m', detours, hends, hosted, hostsTest, spared⟩ :=
          detours_injectRange tested g.spares.1 hinjection
        obtain ⟨_, bridges, hnew, -⟩ := bridges_injectRange_around tested g.entered.simple (g.entered.entering l hl pre hpre) hinjection
        exact g.detour hp hl hpre entered spares temps hosts detours bridges hnew rfl rfl hd hplacement
          (.around hshape tested hends hosted hostsTest spared
            (detours.screens g.entered.simple.wired (hp.known l hl pre hpre) g.blocks))
      | false =>
        obtain ⟨operations, c₃, hjoin, hcollect, hinject⟩ := injectRange_above_ok tested hinjection
        subst hjoin
        have hends := GuardCode.guardsEnds_of_collect tested hcollect
        obtain ⟨-, next, hnext, rfl⟩ := Drafting.Adds.collect_ok
          ((GuardCode.adds_entersLoop (m := c₁.margin h fun _ _ _ => False) plan).bind fun _ =>
            GuardCode.adds_guardRange plan d.access _) (Nat.le_refl _) hcollect
        have hosted := hosts_of_inject (n := next) (h := h) (c := c₁.withTemps next) g.spares.1 (Nat.le_refl _)
          (fun b _ => b.isReturn_of_terminatorPosition) hinject
        have spans := spans_modifyBlock hinject
        have hentrance : ∀ l' ∈ forest.toList, ∀ pre', l'.preheader = some pre' →
            Hoisted.entrance ⟨d.key pre :: hoisted.guards, hoisted.entering.insert l.header (hoisted.entrance l.header pre)⟩
              l'.header pre' = hoisted.entrance l'.header pre' := by
          intro l' hl' pre' hpre'
          conv_lhs => unfold Hoisted.entrance
          rw [Table.get?_insert]
          split
          · rename_i hheader
            rw [hheader, hp.preheader_eq hl hpre hl' hpre' hheader]
            rfl
          · rfl
        refine g.keep entered spares temps spans hosts hentrance ?_
        intro l' hl' pre' hpre' key hkey hfirst hold
        obtain rfl := (List.mem_cons.mp hkey).resolve_right hold
        obtain rfl : pre = pre' := hfirst
        have hheader := hp.header_eq hl hpre hl' hpre'
        refine ⟨d, hd, hheader ▸ hplacement, rfl, .above hshape hends hosted ?_⟩
        rw [hheader]
        exact screens_self _ _ _

theorem inject (g : Fronted h root forest ds body hoisted c) (hp : Preceded root forest body) (hd : d ∈ ds)
    (about : d.IsAbout body) (avoids : d.pointer.Avoids body.nextTemp)
    (hoists : ∀ header pre, d.placement = .preheader header pre →
      ∃ l ∈ forest.toList, l.preheader = some pre ∧ l.header = header)
    (hrun : (d.inject h hoisted).run c = .ok ((count, hoisted'), c')) :
    Fronted h root forest ds body hoisted' c' ∧ hoisted.guards ⊆ hoisted'.guards ∧
      ∀ header pre, d.placement = .preheader header pre → d.key pre ∈ hoisted'.guards := by
  obtain ⟨c₁, htag, -, hplace⟩ := GuardDecision.inject_ok hrun
  have g₁ : Fronted h root forest ds body hoisted c₁ := by
    refine g.keep (g.entered.keep rfl (g.entered.simple.modifyBlock htag) (edges_modifyBlock htag))
      ((indifferent_spares body).guarded _ _ _ _ g.spares htag) (g.temps.trans_eq (modifyBlock_fields htag).2.1.symm)
      (spans_modifyBlock (n := c.nextTemp) htag) (fun m k code inner hc => (tallied_hosts inner).guarded 0 _ _ _ _ hc htag)
      (fun _ _ _ _ => rfl) fun _ _ _ _ key hkey _ hold => absurd hkey hold
  cases hplacement : d.placement with
  | omitted =>
    rw [hplacement] at hplace
    obtain ⟨rfl, rfl⟩ := hplace
    exact ⟨g₁, List.Subset.refl _, nofun⟩
  | preheader header pre =>
    rw [hplacement] at hplace
    obtain ⟨l, hl, hpre, rfl⟩ := hoists header pre hplacement
    obtain ⟨g', hguards, hkey⟩ := g₁.injectHoisted hp hl hpre hd hplacement avoids hplace
    refine ⟨g', hguards, fun header' pre' heq => ?_⟩
    cases heq
    exact hkey
  | before l =>
    rw [hplacement] at hplace
    obtain ⟨rfl, position, hposition, hinject⟩ := hplace
    have hguarding : ∀ n ≤ c₁.nextTemp, ∀ o ∈ GuardCode.guards h d.pointer d.access c₁.nextTemp, o.IsGuarding h n :=
      fun n hn o ho => GuardCode.isGuarding_of_mem hn ho
    refine ⟨?_, List.Subset.refl _, nofun⟩
    refine g₁.keep (g₁.entered.modifyBlock rfl hinject)
      ((indifferent_spares body).inject _ _ _ (fun _ => position) _ _ _ ((indifferent_spares body).temps _ _ g₁.spares) hinject)
      (Nat.le_trans g₁.temps ((Nat.le_succ _).trans_eq (modifyBlock_fields hinject).2.1.symm)) (spans_modifyBlock hinject)
      (fun m k code inner hc => ?_) (fun _ _ _ _ => rfl) fun _ _ _ _ key hkey _ hold => absurd hkey hold
    have stays := tallied_hosts (h := h) (n := m) (k := k) inner
    exact stays.inject 0 _ _ _ (fun _ => position) _ _ _ (stays.temps 0 _ _ (Nat.le_succ _) hc) (hguarding m hc.temps)
      (fun b hb => isSeam_of_isAbout about g₁.spares.1 g₁.spares.2 hplacement hposition hb) hinject

theorem injectAll (g : Fronted h root forest ds body hoisted c) (hp : Preceded root forest body) {es : List GuardDecision}
    (hes : es ⊆ ds) (about : ∀ d ∈ ds, d.IsAbout body) (avoids : ∀ d ∈ ds, d.pointer.Avoids body.nextTemp)
    (hoists : ∀ d ∈ ds, ∀ header pre, d.placement = .preheader header pre →
      ∃ l ∈ forest.toList, l.preheader = some pre ∧ l.header = header)
    (hrun : (GuardDecision.injectAll h es hoisted).run c = .ok (count, c')) :
    ∃ hoisted', Fronted h root forest ds body hoisted' c' ∧ hoisted.guards ⊆ hoisted'.guards ∧
      ∀ d ∈ es, ∀ header pre, d.placement = .preheader header pre → d.key pre ∈ hoisted'.guards := by
  induction es generalizing hoisted c count with
  | nil =>
    obtain ⟨-, rfl⟩ := Edit.pure_ok.mp hrun
    exact ⟨hoisted, g, List.Subset.refl _, fun d hd => (List.not_mem_nil hd).elim⟩
  | cons d rest ih =>
    obtain ⟨⟨n, hoisted₁⟩, c₁, hfirst, hrest⟩ := Edit.bind_ok.mp hrun
    obtain ⟨n', c₂, hothers, hcount⟩ := Edit.bind_ok.mp hrest
    obtain ⟨-, rfl⟩ := Edit.pure_ok.mp hcount
    have hd := hes List.mem_cons_self
    obtain ⟨g₁, hguards, hkey⟩ := g.inject hp hd (about d hd) (avoids d hd) (hoists d hd) hfirst
    obtain ⟨hoisted', g', hguards', hkeys⟩ := ih g₁ (fun e he => hes (List.mem_cons_of_mem d he)) hothers
    refine ⟨hoisted', g', fun key h => hguards' (hguards h), fun e he header pre hplacement => ?_⟩
    rcases List.mem_cons.mp he with rfl | he
    · exact hguards' (hkey header pre hplacement)
    · exact hkeys e he header pre hplacement

end Fronted

end GuardDecision

end RegionGuard

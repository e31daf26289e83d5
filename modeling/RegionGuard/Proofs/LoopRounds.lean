import RegionGuard.Flow.Evolution
import RegionGuard.Proofs.Comparisons
import RegionGuard.Proofs.LoopNests
import RegionGuard.Proofs.SimplifiedLoops
set_option autoImplicit false

namespace RegionGuard

open RegionGuard.Graph

theorem mem_of_filterM {α : Type} {p : α → Outcome Bool} {l r : List α} (h : l.filterM p = .ok r) (a : α) :
    a ∈ r ↔ a ∈ l ∧ p a = .ok true := by
  have hfold : ∀ acc r, l.filterAuxM p acc = .ok r → (a ∈ r ↔ (a ∈ l ∧ p a = .ok true) ∨ a ∈ acc) := by
    clear h
    induction l with
    | nil =>
      intro acc r h
      cases h
      simp
    | cons x rest ih =>
      intro acc r h
      obtain ⟨b, hb, h⟩ := bind_eq_ok.mp h
      rw [ih _ _ h, List.mem_cons]
      cases b with
      | true =>
        rw [cond_true, List.mem_cons]
        constructor
        · rintro (⟨hmem, ha⟩ | rfl | hmem)
          · exact .inl ⟨.inr hmem, ha⟩
          · exact .inl ⟨.inl rfl, hb⟩
          · exact .inr hmem
        · rintro (⟨rfl | hmem, ha⟩ | hmem)
          · exact .inr (.inl rfl)
          · exact .inl ⟨hmem, ha⟩
          · exact .inr (.inr hmem)
      | false =>
        rw [cond_false]
        refine or_congr_left ⟨fun ⟨hmem, ha⟩ => ⟨.inr hmem, ha⟩, ?_⟩
        rintro ⟨rfl | hmem, ha⟩
        · cases hb.symm.trans ha
        · exact ⟨hmem, ha⟩
  obtain ⟨r', hr', h⟩ := bind_eq_ok.mp h
  cases h
  rw [List.mem_reverse, hfold [] r' hr', or_iff_left List.not_mem_nil]

structure NaturalLoop.Outlines (c : FlowGraph) (root : Nat) (l : NaturalLoop) : Prop where
  holds : ∀ v, l.contains v = true ↔ c.graph.Inside root l.header v
  latches : ∀ n, n ∈ l.latches ↔ (c.graph.edges.get? (n, l.header)).isSome ∧ l.contains n = true
  exiting : ∀ n, n ∈ l.exiting ↔ l.contains n = true ∧ ∃ w, (c.graph.edges.get? (n, w)).isSome ∧ l.contains w = false

variable {c : FlowGraph} {root : Nat} {l : NaturalLoop}

theorem LoopForest.outlines {forest : LoopForest} (wired : c.graph.Wired) (hentry : c.entry = some root)
    (hroot : c.graph.hasVertex root) (hforest : ofGraph c = .ok forest) (hl : l ∈ forest.toList) : l.Outlines c root := by
  obtain ⟨forest', hforest', reports⟩ := ofGraph_total wired hentry hroot
  cases hforest.symm.trans hforest'
  have holds := reports.holds l hl
  obtain ⟨entry, -, h⟩ := bind_eq_ok.mp hforest
  obtain ⟨tree, -, h⟩ := bind_eq_ok.mp h
  obtain ⟨described, hdescribed, h⟩ := bind_eq_ok.mp h
  cases h
  obtain ⟨k, hk⟩ := Table.mem_values_iff.mp hl
  rw [Table.get?_map_keyed] at hk
  obtain ⟨x, hx, rfl⟩ := Option.map_eq_some_iff.mp hk
  obtain ⟨rfl, hmem⟩ := get?_ofList hx
  obtain ⟨loop, -, hloop⟩ := exists_of_mem_mapM hdescribed hmem
  obtain ⟨predecessors, hpredecessors, hloop⟩ := bind_eq_ok.mp hloop
  obtain ⟨preheader, -, hloop⟩ := bind_eq_ok.mp hloop
  obtain ⟨exiting, hexiting, hloop⟩ := bind_eq_ok.mp hloop
  obtain ⟨parents, -, hloop⟩ := bind_eq_ok.mp hloop
  cases hloop
  refine ⟨holds, fun n => ?_, fun n => ?_⟩
  · change n ∈ (predecessors.partition loop.contains).1 ↔ _
    rw [List.partition_eq_filter_filter, List.mem_filter, ← predecessorsOf_of_ok hpredecessors, wired.predecessors]
    rfl
  · change n ∈ exiting ↔ _
    rw [mem_of_filterM hexiting, ← Loop.contains_iff]
    refine and_congr_right fun hn => ?_
    obtain ⟨successors, hsuccessors⟩ : ∃ successors, c.successors n = .ok successors := by
      refine ⟨_, wired.successors_ok ?_⟩
      cases (holds n).mp hn with
      | header => exact (wired.ends _ _ (reports.latched _ hl).choose_spec.edge).2
      | latch hback => exact (wired.ends _ _ hback.edge).1
      | ahead _ _ hedge _ => exact (wired.ends _ _ hedge).1
    rw [hsuccessors]
    change Except.ok (successors.any fun t => !loop.contains t) = Except.ok true ↔ _
    rw [Except.ok.injEq, List.any_eq_true]
    refine exists_congr fun w => and_congr ?_ ?_
    · rw [← successorsOf_of_ok hsuccessors, wired.successors]
    · rw [Bool.not_eq_true']
      rfl

theorem NaturalLoop.Outlines.from_inside (h : l.Outlines c root) {v w : Nat} (hw : l.contains w = true)
    (hne : w ≠ l.header) (hedge : (c.graph.edges.get? (v, w)).isSome) (hv : c.graph.IsReached root v) :
    l.contains v = true :=
  (h.holds v).mpr (.ahead ((h.holds w).mp hw) hne hedge hv)

namespace LoopBound

variable {d : DefUse} {iv : InductionVariable} {b : LoopBound} {k : Condition} {exiting : Nat}

def tested (b : LoopBound) (iv : InductionVariable) : Variable :=
  if b.topTested || b.overshoot == 1 then iv.phi else iv.next

/-- Whether a call finds a bound kept. -/
def verdict (b : LoopBound) (iv : InductionVariable) (m : Machine) (a : Activation) : Outcome Bool :=
  a.comparison m b.predicate (.variable (b.tested iv)) b.bound

structure Rests (c : FlowGraph) (d : DefUse) (l : NaturalLoop) (iv : InductionVariable) (b : LoopBound) (exiting : Nat)
    (k : Condition) : Prop where
  exits : l.exiting = [exiting]
  top : b.topTested = true → exiting = l.header
  stays : ∃ es, c.graph.edgesOut exiting = .ok es ∧ stayCondition? (es.filter fun e => l.contains e.tail) = some k
  compares : comparison? d iv k = some (b.predicate, .variable (b.tested iv), b.bound)
  invariant : l.isInvariant d b.bound = true

/-- The comparison that a condition tests, as it stands or the other way round. -/
theorem comparison?_eq_some {q : Predicate} {u w : Value} (h : comparison? d iv k = some (q, u, w)) :
    (u = .variable iv.phi ∨ u = .variable iv.next) ∧ ∃ v dst p lhs rhs, k.value = .variable v ∧
      d.definingOperation? (.variable v) = some (.compare dst p lhs rhs) ∧
      ∀ (m : Machine) (a : Activation) (r : Bool), a.comparison m p lhs rhs = .ok r → a.comparison m q u w = .ok (r == k.whenTrue) := by
  have turned : ∀ (p : Predicate) (x y : Constant),
      Evaluation.holds (if k.whenTrue then p else p.inverse) x y = (Evaluation.holds p x y == k.whenTrue) :=
    fun p x y => by cases k.whenTrue <;> simp
  unfold comparison? at h
  split at h
  · rename_i dst p lhs rhs hcompare
    obtain ⟨v, hv⟩ : ∃ v, k.value = .variable v := by
      obtain ⟨v, hv, -⟩ := Option.bind_eq_some_iff.mp hcompare
      cases hvalue : k.value with
      | «variable» v => exact ⟨v, rfl⟩
      | _ =>
        rw [hvalue] at hv
        cases hv
    rw [hv] at hcompare
    change (if lhs = .variable iv.phi ∨ lhs = .variable iv.next then some (if k.whenTrue then p else p.inverse, lhs, rhs)
      else if rhs = .variable iv.phi ∨ rhs = .variable iv.next then
        some ((if k.whenTrue then p else p.inverse).swapped, rhs, lhs)
      else none) = some (q, u, w) at h
    have turned := turned p
    generalize (if k.whenTrue then p else p.inverse) = q' at h turned
    split at h
    · rename_i htested
      cases h
      refine ⟨htested, v, dst, p, _, _, hv, hcompare, fun m a r hr => ?_⟩
      obtain ⟨x, hx, hr⟩ := bind_eq_ok.mp hr
      obtain ⟨y, hy, hr⟩ := bind_eq_ok.mp hr
      cases hr
      exact bind_eq_ok.mpr ⟨x, hx, bind_eq_ok.mpr ⟨y, hy, congrArg Except.ok (turned x y)⟩⟩
    · split at h
      · rename_i htested
        cases h
        refine ⟨htested, v, dst, p, _, _, hv, hcompare, fun m a r hr => ?_⟩
        obtain ⟨x, hx, hr⟩ := bind_eq_ok.mp hr
        obtain ⟨y, hy, hr⟩ := bind_eq_ok.mp hr
        cases hr
        refine bind_eq_ok.mpr ⟨y, hy, bind_eq_ok.mpr ⟨x, hx, congrArg Except.ok ?_⟩⟩
        rw [Evaluation.holds_swapped, turned]
      · cases h
  · cases h

/-- The test of a bound that comes in the header, or that goes too far, is one of the value of the round. -/
theorem eq_tested {p : Predicate} {u w : Value} {overshoot : Nat} {top : Bool}
    (hu : u = .variable iv.phi ∨ u = .variable iv.next)
    (h : overshoot? top (decide (u = .variable iv.phi)) = some overshoot) :
    u = .variable ((⟨p, w, overshoot, top⟩ : LoopBound).tested iv) := by
  by_cases hphi : u = .variable iv.phi
  · rw [decide_eq_true hphi] at h
    cases top <;> cases h <;> exact hphi
  · rw [decide_eq_false hphi] at h
    cases top <;> cases h
    exact hu.resolve_left hphi

theorem rests_of_find? (h : find? d c iv l = .ok (some b)) : ∃ exiting k, b.Rests c d l iv exiting k := by
  unfold find? at h
  split at h
  · rename_i exiting hexits
    simp only at h
    split at h
    · cases h
    · obtain ⟨es, hes, h⟩ := bind_eq_ok.mp h
      obtain ⟨k, hk, h⟩ := Option.bind_eq_some_iff.mp (Except.ok.inj h)
      obtain ⟨⟨p, u, w⟩, hcomparison, h⟩ := Option.bind_eq_some_iff.mp h
      obtain ⟨_, hinvariant, h⟩ := Option.bind_eq_some_iff.mp h
      obtain ⟨overshoot, hovershoot, h⟩ := Option.bind_eq_some_iff.mp h
      cases h
      refine ⟨exiting, k, hexits, fun htop => beq_iff_eq.mp htop, ⟨es, hes, hk⟩, ?_, ?_⟩
      · rw [hcomparison]
        refine congrArg some (Prod.ext rfl (Prod.ext ?_ rfl))
        exact eq_tested (comparison?_eq_some hcomparison).1 hovershoot
      · exact of_guard hinvariant
  · cases h

end LoopBound

/-- Where tests leave a block, all its edges test one value: those that stay where the condition among them says, and
the others where it does not. -/
theorem FlowGraph.Decided.opposes (decided : c.Decided) {j : Nat} {es : List Edge} (hes : c.graph.edgesOut j = .ok es)
    {stays : Edge → Bool} {k : Condition} (hk : LoopBound.stayCondition? (es.filter stays) = some k) :
    ∀ e ∈ es, ∃ k', e.condition = some k' ∧ k'.value = k.value ∧
      ∀ w, k'.isSatisfiedBy w = (k.isSatisfiedBy w == stays e) := by
  rcases decided j es hes with rfl | ⟨e, rfl, hnone⟩ | ⟨e₁, e₂, v, rfl, hconditions⟩
  · cases hk
  · cases hstays : stays e with
    | true =>
      rw [List.filter_cons_of_pos hstays] at hk
      cases hnone.symm.trans hk
    | false =>
      rw [List.filter_cons_of_neg (by rw [hstays]; exact Bool.false_ne_true)] at hk
      cases hk
  · obtain ⟨k₁, k₂, hk₁, hk₂, hvalue, hopposite⟩ : ∃ k₁ k₂, e₁.condition = some k₁ ∧ e₂.condition = some k₂ ∧
        k₁.value = k₂.value ∧ ∀ w, k₁.isSatisfiedBy w = !k₂.isSatisfiedBy w := by
      rcases hconditions with ⟨hk₁, hk₂⟩ | ⟨hk₁, hk₂⟩
      · exact ⟨_, _, hk₁, hk₂, rfl, fun w => by unfold Condition.isSatisfiedBy; cases w != 0 <;> rfl⟩
      · exact ⟨_, _, hk₁, hk₂, rfl, fun w => by unfold Condition.isSatisfiedBy; cases w != 0 <;> rfl⟩
    cases h₁ : stays e₁ <;> cases h₂ : stays e₂
    · simp [h₁, h₂, LoopBound.stayCondition?] at hk
    · rw [List.filter_cons_of_neg (by rw [h₁]; exact Bool.false_ne_true), List.filter_cons_of_pos h₂] at hk
      cases hk₂.symm.trans hk
      rw [List.forall_mem_cons, List.forall_mem_singleton]
      exact ⟨⟨k₁, hk₁, hvalue, fun w => by rw [hopposite, h₁, beq_false]⟩,
        k, hk₂, rfl, fun w => by rw [h₂, beq_true]⟩
    · rw [List.filter_cons_of_pos h₁, List.filter_cons_of_neg (by rw [h₂]; exact Bool.false_ne_true)] at hk
      cases hk₁.symm.trans hk
      rw [List.forall_mem_cons, List.forall_mem_singleton]
      exact ⟨⟨k, hk₁, rfl, fun w => by rw [h₁, beq_true]⟩,
        k₂, hk₂, hvalue.symm, fun w => by rw [hopposite, h₂, beq_false, Bool.not_not]⟩
    · rw [List.filter_cons_of_pos h₁, List.filter_cons_of_pos h₂] at hk
      unfold LoopBound.stayCondition? at hk
      rw [hk₁] at hk
      cases hk

namespace Activation

variable {f : Function} {d : DefUse} {iv : InductionVariable} {b : LoopBound} {x : Image} {a a' : Activation}
  {front : List Instruction} {m : Machine}

/-- Where the test of a bound is, a call stays in the loop exactly if it finds the bound kept. -/
theorem Compared.verdict_exit (h : a.Compared c d root x front) (hsound : f.Sound c d root) (decided : c.Decided)
    {k : Condition} (rests : b.Rests c d l iv a.block k) (image : m.image = x) (ended : a.remaining = [])
    (hnext : a.nextBlock m = .ok a') : b.verdict iv m a = .ok (l.contains a'.block) := by
  obtain ⟨-, e, -, -, hedge, hmet, -⟩ := h.toStands.goesOn hsound.named hnext
  obtain ⟨es, hes, hstays⟩ := rests.stays
  have htail : e.tail = a'.block := (hsound.built.filed _ _ _ hedge).2
  have hmem : e ∈ es := (mem_edgesOut hsound.built.wired hsound.built.filed hes).mpr (by
    rw [← htail] at hedge
    exact hedge)
  obtain ⟨k', hk', hvalue, hopposes⟩ := decided.opposes hes hstays e hmem
  obtain ⟨w, hw, hsatisfied⟩ := hmet k' hk'
  obtain ⟨-, v, dst, p, lhs, rhs, hv, hcompare, hverdict⟩ := LoopBound.comparison?_eq_some rests.compares
  -- The test stands in front of the end of the block, and says how its operands compare there.
  obtain ⟨place, i, y, hi, hwritten, hy, havailable⟩ :=
    hsound.disciplined.conditions a.block a'.block e hedge k' hk' v (hvalue.trans hv)
  have hplace := (DefUse.definition?_eq_some hsound.definitions).mpr ⟨i, hi, hwritten⟩
  obtain ⟨z, hz, hinstructions⟩ := h.block
  cases hy.symm.trans hz
  rw [hinstructions, ended, List.append_nil] at havailable
  obtain rfl : dst = v := Option.some.inj (hsound.named.writes hplace hcompare)
  obtain ⟨r, hr, hword⟩ := h.compares dst place p lhs rhs hplace hcompare havailable m image
  rw [hvalue, hv, hword] at hw
  cases hw
  refine (hverdict m a r hr).trans (congrArg Except.ok ?_)
  have htaken := hopposes (if r then 1 else 0)
  rw [hsatisfied, htail] at htaken
  have hk : k.isSatisfiedBy (if r then 1 else 0) = (r == k.whenTrue) := by
    unfold Condition.isSatisfiedBy
    cases r <;> rfl
  rw [← hk]
  exact beq_iff_eq.mp htaken.symm

end Activation

theorem InductionVariable.definition_of_ofPhi? {d : DefUse} {iv : InductionVariable} {phi : Variable}
    (h : ofPhi? d l phi = some iv) : ∃ place, d.definition? iv.phi = some place ∧ place.block = l.header := by
  obtain ⟨place, hplace, h⟩ := Option.bind_eq_some_iff.mp h
  obtain ⟨_, hheader, h⟩ := Option.bind_eq_some_iff.mp h
  obtain ⟨i, -, h⟩ := Option.bind_eq_some_iff.mp h
  simp only at h
  split at h
  · obtain ⟨incoming, -, h⟩ := Option.bind_eq_some_iff.mp h
    obtain ⟨sides, -, h⟩ := Option.bind_eq_some_iff.mp h
    obtain ⟨next, -, h⟩ := Option.bind_eq_some_iff.mp h
    obtain ⟨o, -, h⟩ := Option.bind_eq_some_iff.mp h
    obtain ⟨step, -, h⟩ := Option.bind_eq_some_iff.mp h
    obtain ⟨_, -, h⟩ := Option.bind_eq_some_iff.mp h
    cases h
    exact ⟨place, hplace, of_guard hheader⟩
  · cases h

theorem NaturalLoop.writtenOutside_of_isInvariant {d : DefUse} {v : Value} (h : l.isInvariant d v = true) :
    d.WrittenOutside (fun place => l.contains place.block = true) v := by
  rintro y rfl
  unfold isInvariant at h
  simp only at h
  split at h
  · rename_i place hplace
    exact ⟨place, hplace, by simpa using h⟩
  · cases h

namespace LoopBound

variable {f : Function} {d : DefUse} {iv : InductionVariable} {b : LoopBound} {x : Image} {phi : Variable} {k : Condition}
  {exiting : Nat}

theorem Rests.writtenOutside (rests : b.Rests c d l iv exiting k) (hiv : InductionVariable.ofPhi? d l phi = some iv)
    (htop : b.topTested = true) {v : Value} (hv : v = .variable (b.tested iv) ∨ v = b.bound) :
    d.WrittenOutside (fun place => l.contains place.block = true ∧ place.block ≠ l.header) v := by
  rintro y rfl
  rcases hv with hy | hy
  · obtain ⟨place, hplace, hheader⟩ := InductionVariable.definition_of_ofPhi? hiv
    have htested : b.tested iv = iv.phi := if_pos (by rw [htop, Bool.true_or])
    rw [htested] at hy
    cases hy
    exact ⟨place, hplace, fun hnot => hnot.2 hheader⟩
  · obtain ⟨place, hplace, houtside⟩ := NaturalLoop.writtenOutside_of_isInvariant rests.invariant y hy.symm
    exact ⟨place, hplace, fun hnot => houtside hnot.1⟩

/-- A call stands where what has been computed is what the operands give, and where it finds a bound kept if it has passed the
test in the header. -/
structure Keeps (c : FlowGraph) (d : DefUse) (root : Nat) (x : Image) (l : NaturalLoop) (iv : InductionVariable)
    (b : LoopBound) (a : Activation) (front : List Instruction) : Prop extends a.Solved c d root x front where
  passed : b.topTested = true → l.contains a.block = true → a.block ≠ l.header →
    ∀ m, m.image = x → b.verdict iv m a = .ok true

variable {a a' : Activation} {front : List Instruction} {m : Machine}

theorem verdict_image {n : Machine} (h : n.image = m.image) (a : Activation) : b.verdict iv n a = b.verdict iv m a :=
  Activation.comparison_congr (Activation.value_image h a _) (Activation.value_image h a _)

theorem verdict_congr (h : ∀ v, v = .variable (b.tested iv) ∨ v = b.bound → ∀ n, a'.value n v = a.value n v)
    (m : Machine) : b.verdict iv m a' = b.verdict iv m a :=
  Activation.comparison_congr (h _ (.inl rfl) m) (h _ (.inr rfl) m)

theorem Keeps.toCompared (h : b.Keeps c d root x l iv a front) : a.Compared c d root x front := h.toSolved.compared

/-- An instruction of the loop beside the header writes nothing that the test in the header compares. -/
theorem Keeps.performs (h : b.Keeps c d root x l iv a front) (hsound : f.Sound c d root)
    (rests : b.Rests c d l iv exiting k) (hiv : InductionVariable.ofPhi? d l phi = some iv) (image : m.image = x)
    {i : Instruction} {rest : List Instruction} (hnext : a.remaining = i :: rest)
    (hperforms : Activation.Performs m { a with remaining := rest } i.operation a') :
    b.Keeps c d root x l iv a' (front ++ [i]) := by
  refine ⟨h.toSolved.performs hsound.named image hnext hperforms, fun htop hin hne n hn => ?_⟩
  obtain ⟨-, hblock, hsame⟩ := h.toStands.performs hsound.named hnext hperforms
  rw [hblock] at hin hne
  rw [verdict_congr fun v hv => hsame v ((rests.writtenOutside hiv htop hv).mono ?_), h.passed htop hin hne n hn]
  rintro _ rfl
  exact ⟨hin, hne⟩

/-- Control that goes on inside the loop has passed the test in the header before or passes it now. -/
theorem Keeps.goesOn (h : b.Keeps c d root x l iv a front) (hsound : f.Sound c d root) (decided : c.Decided)
    (outlines : l.Outlines c root) (rests : b.Rests c d l iv exiting k)
    (hiv : InductionVariable.ofPhi? d l phi = some iv) (image : m.image = x) (ended : a.remaining = [])
    (hnext : a.nextBlock m = .ok a') : ∃ front', b.Keeps c d root x l iv a' front' := by
  obtain ⟨front', hsolved⟩ := h.toSolved.goesOn hsound.named ended hnext
  refine ⟨front', hsolved, fun htop hin hne n hn => ?_⟩
  obtain ⟨-, e, -, -, hedge, -, hsame⟩ := h.toStands.goesOn hsound.named hnext
  have hinside := outlines.from_inside hin hne (by rw [hedge]; rfl) h.reached
  rw [verdict_congr fun v hv => hsame v ((rests.writtenOutside hiv htop hv).mono ?_)]
  · by_cases hheader : a.block = l.header
    · have hexiting : exiting = a.block := (rests.top htop).trans hheader.symm
      subst hexiting
      have hverdict := h.toCompared.verdict_exit hsound decided rests image ended hnext
      rw [verdict_image (hn.trans image.symm), hverdict, hin]
    · exact h.passed htop hinside hheader n hn
  · rintro place hblock
    have hblock : place.block = a'.block := hblock
    rw [hblock]
    exact ⟨hin, hne⟩

theorem habit (hsound : f.Sound c d root) (decided : c.Decided) (outlines : l.Outlines c root)
    (rests : b.Rests c d l iv exiting k) (hiv : InductionVariable.ofPhi? d l phi = some iv) :
    Activation.Habit x fun a => a.body = c → ∃ front, b.Keeps c d root x l iv a front where
  starts {m body entry constants w r a} _ hentry ha hbody := by
    obtain ⟨y, scalars, -, rfl⟩ := Activation.enterBlock_ok ha
    cases hbody
    cases hsound.starts.symm.trans hentry
    refine ⟨[], Activation.solved_of_start hsound.named ha, fun _ hin hne => ?_⟩
    have hmem := ((outlines.holds root).mp hin).dominates _ .start
    exact absurd (List.mem_singleton.mp hmem).symm hne
  goesOn {m a a'} image ha ended hnext hbody := by
    obtain ⟨front, h⟩ := ha (by
      rw [Activation.nextBlock_eq] at hnext
      obtain ⟨target, -, hnext⟩ := bind_eq_ok.mp hnext
      obtain ⟨y, scalars, -, rfl⟩ := Activation.enterBlock_ok hnext
      exact hbody)
    exact h.goesOn hsound decided outlines rests hiv image ended hnext
  performs {m a i rest a'} image ha hnext hperforms hbody := by
    obtain ⟨front, h⟩ := ha (by
      obtain ⟨scalars, hfixed⟩ := hperforms.assigns.fixed
      rw [hfixed] at hbody
      exact hbody)
    exact ⟨_, h.performs hsound rests hiv image hnext hperforms⟩

/-- A bound is known for an induction variable of a loop, in a verified function whose blocks are left by no edge, by
one that is always taken, or by two that test one value both ways. -/
structure Known (p : Program) (f : Function) (c : FlowGraph) (l : NaturalLoop) (iv : InductionVariable) (b : LoopBound) :
    Prop where
  body : f.body = some c
  made : c.Made
  verified : p.verifyFunction f = .ok ()
  decided : c.Decided
  found : ∃ d forest phi, DefUse.ofFunction f = .ok d ∧ LoopForest.ofGraph c = .ok forest ∧ l ∈ forest.toList ∧
    InductionVariable.ofPhi? d l phi = some iv ∧ find? d c iv l = .ok (some b)

/-- In some run, control goes from the end of a block of a loop on to another block. -/
structure Turns (t : Task) (c : FlowGraph) (l : NaturalLoop) (s : Processor) (a a' : Activation) : Prop where
  reached : ∃ function arguments, Processor.Reached t function arguments s
  calls : ∃ callers, s.calls = a :: callers
  body : a.body = c
  inside : l.contains a.block = true
  ended : a.remaining = []
  next : a.nextBlock s.machine = .ok a'

/-- Where a bound is known for a loop, control leaves the loop only in rounds in which the bound is not kept. It gets
back to the header only in rounds in which it is, if the bound is tested in the header or where control comes from. -/
theorem decides_rounds {t : Task} {s : Processor} (known : Known t.program f c l iv b)
    (disciplined : ∀ entry, c.entry = some entry → f.Disciplined c entry) (turns : Turns t c l s a a') :
    (l.contains a'.block = false → b.verdict iv s.machine a = .ok false) ∧
      (a'.block = l.header → b.topTested = true ∨ a.block ∈ l.exiting → b.verdict iv s.machine a = .ok true) := by
  obtain ⟨⟨function, arguments, reached⟩, ⟨callers, hcalls⟩, hbody, hin, ended, hnext⟩ := turns
  obtain ⟨d, entry, verified⟩ := Program.verified_of_verifyFunction known.body known.made.built known.made.numbered.addressable
    known.verified
  have hsound : f.Sound c d entry := ⟨verified, disciplined entry verified.starts⟩
  obtain ⟨d', forest, phi, hd, hforest, hl, hiv, hb⟩ := known.found
  cases verified.definitions.symm.trans hd
  have outlines := LoopForest.outlines known.made.wired verified.starts verified.vertex hforest hl
  obtain ⟨exiting, k, rests⟩ := rests_of_find? hb
  obtain ⟨front, h⟩ := reached.upholds (habit hsound known.decided outlines rests hiv) hcalls hbody
  have here : a.block ∈ l.exiting → b.verdict iv s.machine a = .ok (l.contains a'.block) := fun hexits => by
    rw [rests.exits] at hexits
    obtain rfl := List.mem_singleton.mp hexits
    exact h.toCompared.verdict_exit hsound known.decided rests rfl ended hnext
  constructor
  · intro hout
    obtain ⟨-, e, -, -, hedge, -⟩ := h.toStands.goesOn hsound.named hnext
    rw [here ((outlines.exiting a.block).mpr ⟨hin, a'.block, by rw [hedge]; rfl, hout⟩), hout]
  · intro hheader htested
    have hinside : l.contains a'.block = true := hheader ▸ (outlines.holds _).mpr .header
    by_cases hexits : a.block ∈ l.exiting
    · rw [here hexits, hinside]
    · have htop := htested.resolve_right hexits
      refine h.passed htop hin (fun heq => hexits ?_) s.machine rfl
      rw [rests.exits, rests.top htop, heq]
      exact List.mem_singleton_self _

def known? (p : Program) (header : Nat) (phi : Variable) :
    Option (Function × FlowGraph × NaturalLoop × InductionVariable × LoopBound) := do
  let f ← p.function? "main"
  let c ← f.body
  guard (p.verifyFunction f = .ok ())
  guard (c.graph.successors.keys.all fun k => (c.graph.edgesOut k).toOption.all FlowGraph.decides)
  let d ← (DefUse.ofFunction f).toOption
  let forest ← (LoopForest.ofGraph c).toOption
  let l ← forest.loop? header
  let iv ← InductionVariable.ofPhi? d l phi
  let b ← (find? d c iv l).toOption.join
  return (f, c, l, iv, b)

theorem known_of_known? {p : Program} (made : p.Made) {header : Nat} (h : known? p header phi = some (f, c, l, iv, b)) :
    p.function "main" = .ok f ∧ Known p f c l iv b := by
  obtain ⟨f, hf, h⟩ := Option.bind_eq_some_iff.mp h
  obtain ⟨c, hc, h⟩ := Option.bind_eq_some_iff.mp h
  obtain ⟨_, hverified, h⟩ := Option.bind_eq_some_iff.mp h
  obtain ⟨_, hdecides, h⟩ := Option.bind_eq_some_iff.mp h
  obtain ⟨d, hd, h⟩ := Option.bind_eq_some_iff.mp h
  obtain ⟨forest, hforest, h⟩ := Option.bind_eq_some_iff.mp h
  obtain ⟨l, hl, h⟩ := Option.bind_eq_some_iff.mp h
  obtain ⟨iv, hiv, h⟩ := Option.bind_eq_some_iff.mp h
  obtain ⟨b, hb, h⟩ := Option.bind_eq_some_iff.mp h
  cases h
  refine ⟨orRaise_eq_ok.mpr hf, hc, made.body hf c hc, of_guard hverified, ?_, d, forest, phi, toOption_eq_some.mp hd,
    toOption_eq_some.mp hforest, LoopForest.mem_of_loop? hl, hiv, toOption_eq_some.mp (Option.join_eq_some_iff.mp hb)⟩
  exact FlowGraph.decided_of_decides (List.all_eq_true.mp (of_guard hdecides))

/-- Where control goes from the block at whose end a call of `main` stands after some steps on a fresh machine. -/
def turn? (t : Task) (steps : Nat) : Option (Processor × Activation × Activation) := do
  let m ← (Machine.ofProgram t.program .keyed).toOption
  let start := (Processor.start t "main" []).runFrom (.ofMachine m)
  guard (start.1 = .ok ())
  let s ← Processor.after t steps start.2
  let a ← s.calls.head?
  guard (a.remaining = [])
  let a' ← (a.nextBlock s.machine).toOption
  return (s, a, a')

theorem turns_of_turn? {t : Task} {steps : Nat} {s : Processor} (h : turn? t steps = some (s, a, a'))
    (hbody : a.body = c) (hin : l.contains a.block = true) : Turns t c l s a a' := by
  obtain ⟨m, hm, h⟩ := Option.bind_eq_some_iff.mp h
  obtain ⟨_, hstart, h⟩ := Option.bind_eq_some_iff.mp h
  obtain ⟨s, hafter, h⟩ := Option.bind_eq_some_iff.mp h
  obtain ⟨a, ha, h⟩ := Option.bind_eq_some_iff.mp h
  obtain ⟨_, hended, h⟩ := Option.bind_eq_some_iff.mp h
  obtain ⟨a', hnext, h⟩ := Option.bind_eq_some_iff.mp h
  cases h
  obtain ⟨callers, hcalls⟩ := List.head?_eq_some_iff.mp ha
  exact ⟨⟨"main", [], _, m, _, steps, toOption_eq_some.mp hm, Prod.ext (of_guard hstart) rfl, hafter⟩, ⟨callers, hcalls⟩,
    hbody, hin, of_guard hended, toOption_eq_some.mp hnext⟩

/-- Whether after some steps of `main` a bound is known for a loop of it, and control goes back to the header, with a
given verdict of the bound. -/
def goesBack (p : Program) (steps : Nat) (Q : NaturalLoop → LoopBound → Activation → Bool) (kept : Bool) : Bool :=
  (known? p 1 ⟨"i", .integer 64⟩).any fun x =>
    (turn? ⟨p, .fixed, Processor.defaultStepLimit⟩ steps).any fun y =>
      y.2.1.body = x.2.1 ∧ x.2.2.1.contains y.2.1.block ∧ y.2.2.block = x.2.2.1.header ∧
        Q x.2.2.1 x.2.2.2.2 y.2.1 ∧ x.2.2.2.2.verdict x.2.2.2.1 y.1.machine y.2.1 = .ok kept

theorem exists_of_goesBack {p : Program} (made : p.Made) (steps : Nat) (Q : NaturalLoop → LoopBound → Activation → Bool)
    (kept : Bool) (h : goesBack p steps Q kept) :
    ∃ f c l iv b s a a', p.function "main" = .ok f ∧ Known p f c l iv b ∧
      Turns ⟨p, .fixed, Processor.defaultStepLimit⟩ c l s a a' ∧ a'.block = l.header ∧ Q l b a ∧
      b.verdict iv s.machine a = .ok kept := by
  obtain ⟨x, hx, h⟩ := (Option.any_eq_true ..).mp h
  obtain ⟨y, hy, h⟩ := (Option.any_eq_true ..).mp h
  obtain ⟨f, c, l, iv, b⟩ := x
  obtain ⟨s, a, a'⟩ := y
  obtain ⟨hbody, hin, hheader, hQ, hverdict⟩ := of_decide_eq_true h
  obtain ⟨hf, known⟩ := known_of_known? made hx
  exact ⟨f, c, l, iv, b, s, a, a', hf, known, turns_of_turn? hy hbody hin, hheader, hQ, hverdict⟩

def counting (blocks : List (List Operation)) (edges : List (Nat × Nat × Option Condition)) : Program :=
  .ofFunctions [.ofCode "main" [] blocks edges]

theorem made_counting (blocks : List (List Operation)) (edges : List (Nat × Nat × Option Condition)) :
    (counting blocks edges).Made :=
  Program.made_of_ofFunctions fun f hf => by
    cases List.mem_singleton.mp hf
    exact Function.made_of_ofCode

/-- A phi that starts at zero and takes the next value from other blocks. -/
def counter (latches : List Nat) : Operation :=
  .phi ⟨"i", .integer 64⟩ ((.ofWord 0 64, 0) :: latches.map fun n => (.variable ⟨"next", .integer 64⟩, n))

def advance : Operation := .binary ⟨"next", .integer 64⟩ .add (.variable ⟨"i", .integer 64⟩) (.ofWord 1 64)

def test (dst : String) (p : Predicate) (v : String) (w : Word) : Operation :=
  .compare ⟨dst, .integer 1⟩ p (.variable ⟨v, .integer 64⟩) (.ofWord w 64)

def branch (block : Nat) (v : String) (onTrue onFalse : Nat) : List (Nat × Nat × Option Condition) :=
  [(block, onTrue, some (.isTrue (.variable ⟨v, .integer 1⟩))),
    (block, onFalse, some (.isFalse (.variable ⟨v, .integer 1⟩)))]

/-- A loop that is left by a test in its header, which holds when control leaves, and that has two latches. -/
def twoLatches : Program :=
  counting
    [[], [counter [2, 3], test "done" .uge "i" 2], [advance, test "odd" .eq "i" 0], [], [.ret none]]
    ((0, 1, none) :: branch 1 "done" 4 2 ++ branch 2 "odd" 1 3 ++ [(3, 1, none)])

theorem decides_rounds_two_latches :
    ∃ t f c l iv b s a a', Known t.program f c l iv b ∧ (∀ entry, c.entry = some entry → f.Disciplined c entry) ∧
      Turns t c l s a a' ∧ a'.block = l.header ∧ b.topTested = true ∧ a.block ∉ l.exiting ∧
      b.verdict iv s.machine a = .ok true := by
  have made : twoLatches.Made := made_counting _ _
  obtain ⟨f, c, l, iv, b, s, a, a', hf, known, turns, hheader, hQ, -⟩ :=
    exists_of_goesBack made 11 (fun l b a => b.topTested && !l.exiting.contains a.block) true (by decide +kernel)
  have disciplined : twoLatches.Disciplined := Program.disciplined_of_own made (by decide +kernel)
  have disciplined : ∀ entry, c.entry = some entry → f.Disciplined c entry := fun entry =>
    disciplined "main" f c entry hf known.body
  obtain ⟨htop, hexits⟩ := Bool.and_eq_true_iff.mp hQ
  exact ⟨⟨twoLatches, .fixed, Processor.defaultStepLimit⟩, f, c, l, iv, b, s, a, a', known, disciplined, turns, hheader,
    htop, by simpa using hexits, (decides_rounds known disciplined turns).2 hheader (.inl htop)⟩

def untestedLatch : Program :=
  counting
    [[], [counter [2, 3], advance, test "early" .ult "next" 4], [], [test "more" .ult "next" 2], [.ret none]]
    ((0, 1, none) :: branch 1 "early" 2 3 ++ (2, 1, none) :: branch 3 "more" 1 4)

/-- A loop whose latch tests what a block says that not every round passes through. -/
def skippedTest : Program :=
  counting
    [[], [counter [3], advance, test "looks" .ne "i" 1], [test "more" .ult "next" 2], [], [.ret none]]
    ((0, 1, none) :: branch 1 "looks" 2 3 ++ (2, 3, none) :: branch 3 "more" 1 4)

/-- Control goes back to the header in rounds in which the known bound is not kept: from a latch that does not test it,
and after a test that an earlier round has left behind. -/
theorem rounds_past_bounds :
    (∃ t f c l iv b s a a', Known t.program f c l iv b ∧ (∀ entry, c.entry = some entry → f.Disciplined c entry) ∧
      Turns t c l s a a' ∧ a'.block = l.header ∧ b.verdict iv s.machine a = .ok false) ∧
    ∃ t f c l iv b s a a', Known t.program f c l iv b ∧ Turns t c l s a a' ∧ a'.block = l.header ∧
      a.block ∈ l.exiting ∧ b.verdict iv s.machine a = .ok false := by
  constructor
  · have made : untestedLatch.Made := made_counting _ _
    obtain ⟨f, c, l, iv, b, s, a, a', hf, known, turns, hheader, -, hverdict⟩ :=
      exists_of_goesBack made 8 (fun _ _ _ => true) false (by decide +kernel)
    have disciplined : untestedLatch.Disciplined := Program.disciplined_of_own made (by decide +kernel)
    exact ⟨⟨untestedLatch, .fixed, Processor.defaultStepLimit⟩, f, c, l, iv, b, s, a, a', known,
      fun entry => disciplined "main" f c entry hf known.body, turns, hheader, hverdict⟩
  · have made : skippedTest.Made := made_counting _ _
    obtain ⟨f, c, l, iv, b, s, a, a', -, known, turns, hheader, hexits, hverdict⟩ :=
      exists_of_goesBack made 10 (fun l _ a => l.exiting.contains a.block) false (by decide +kernel)
    exact ⟨⟨skippedTest, .fixed, Processor.defaultStepLimit⟩, f, c, l, iv, b, s, a, a', known, turns, hheader,
      List.contains_iff_mem.mp hexits, hverdict⟩

end LoopBound

end RegionGuard

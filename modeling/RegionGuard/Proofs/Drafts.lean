import RegionGuard.Guard.Injection
import RegionGuard.Proofs.Blocks
import RegionGuard.Proofs.Entries
set_option autoImplicit false

namespace RegionGuard

namespace FlowGraph

variable {c c' : FlowGraph} {k : Nat} {f : Block → Outcome Block}

theorem block_eq_ok {b : Block} : c.block k = .ok b ↔ c.graph.vertices.get? k = some b := orRaise_eq_ok

theorem modifyBlock_ok (h : c.modifyBlock k f = .ok c') :
    ∃ b b', c.block k = .ok b ∧ f b = .ok b' ∧ c' = { c with graph := c.graph.setVertex k b' } := by
  obtain ⟨b, hb, h⟩ := bind_eq_ok.mp h
  obtain ⟨b', hb', h⟩ := bind_eq_ok.mp h
  cases h
  exact ⟨b, b', hb, hb', rfl⟩

theorem block_setVertex (c : FlowGraph) (k j : Nat) (b : Block) :
    FlowGraph.block { c with graph := c.graph.setVertex k b } j = if j = k then .ok b else c.block j := by
  unfold FlowGraph.block Graph.vertex Graph.setVertex
  rw [Table.get?_insert]
  split <;> rfl

theorem modifyBlock_bind {g : Block → Outcome Block} (h : c.modifyBlock k (fun b => f b >>= g) = .ok c') :
    ∃ c₁, c.modifyBlock k f = .ok c₁ ∧ c₁.modifyBlock k g = .ok c' := by
  obtain ⟨b, b', hb, hchanges, rfl⟩ := modifyBlock_ok h
  obtain ⟨b₁, hb₁, hb'⟩ := bind_eq_ok.mp hchanges
  refine ⟨{ c with graph := c.graph.setVertex k b₁ }, ?_, ?_⟩
  · exact bind_eq_ok.mpr ⟨b, hb, bind_eq_ok.mpr ⟨b₁, hb₁, rfl⟩⟩
  · have hk := block_setVertex c k k b₁
    rw [if_pos rfl] at hk
    refine bind_eq_ok.mpr ⟨b₁, hk, bind_eq_ok.mpr ⟨b', hb', ?_⟩⟩
    unfold Graph.setVertex
    simp only [Table.insert_insert]
    rfl

/-- A block stands under its index, and all blocks are numbered. -/
def Numbered (c : FlowGraph) : Prop := ∀ e ∈ c.graph.vertices.entries, e.2.index = e.1 ∧ e.2.Numbered

instance (c : FlowGraph) : Decidable c.Numbered := inferInstanceAs (Decidable (∀ e ∈ _, _))

theorem numbered_iff : c.Numbered ↔ ∀ k b, c.block k = .ok b → b.index = k ∧ b.Numbered := by
  simp only [block_eq_ok, Table.get?_eq_some_iff]
  exact ⟨fun h k b hb => h (k, b) hb, fun h e he => h e.1 e.2 he⟩

/-- A block stands under its index, and no two of its instructions share a number: every location is that of at most
one instruction. -/
def Addressable (c : FlowGraph) : Prop :=
  ∀ e ∈ c.graph.vertices.entries, e.2.index = e.1 ∧ (e.2.instructions.map (·.index)).Nodup

instance (c : FlowGraph) : Decidable c.Addressable := inferInstanceAs (Decidable (∀ e ∈ _, _))

theorem addressable_iff :
    c.Addressable ↔ ∀ k b, c.block k = .ok b → b.index = k ∧ (b.instructions.map (·.index)).Nodup := by
  simp only [block_eq_ok, Table.get?_eq_some_iff]
  exact ⟨fun h k b hb => h (k, b) hb, fun h e he => h e.1 e.2 he⟩

theorem Numbered.addressable (h : c.Numbered) : c.Addressable := fun e he => ⟨(h e he).1, (h e he).2.2⟩

theorem numbered_of_setVertex {b : Block} (hc : c.Numbered) (hk : b.index = k) (hb : b.Numbered) :
    FlowGraph.Numbered { c with graph := c.graph.setVertex k b } := by
  rw [numbered_iff] at hc ⊢
  intro j x hx
  rw [block_eq_ok] at hx
  simp only [Graph.setVertex, Table.get?_insert] at hx
  split at hx
  · cases hx
    rename_i hj
    exact ⟨hk.trans hj.symm, hb⟩
  · exact hc j x (block_eq_ok.mpr hx)

theorem numbered_of_modifyBlock
    (hf : ∀ b b', b.Numbered → f b = .ok b' → b'.Numbered ∧ b'.index = b.index) (hc : c.Numbered)
    (h : c.modifyBlock k f = .ok c') : c'.Numbered := by
  obtain ⟨b, b', hb, hb', rfl⟩ := modifyBlock_ok h
  obtain ⟨hk, hnumbered⟩ := numbered_iff.mp hc k b hb
  obtain ⟨hnumbered', hindex⟩ := hf b b' hnumbered hb'
  exact numbered_of_setVertex hc (hindex.trans hk) hnumbered'

theorem numbered_of_inject {position : Block → Nat} {tags : List (String × String)} {operations : List Operation}
    (hc : c.Numbered) (h : c.modifyBlock k (fun b => b.inject (position b) tags operations) = .ok c') : c'.Numbered :=
  numbered_of_modifyBlock (fun _ _ hb hb' => ⟨Block.numbered_of_inject hb hb', by rw [Block.inject_ok hb']⟩) hc h

end FlowGraph

namespace Edit

variable {α β : Type} {c c' : FlowGraph}

theorem bind_ok {x : Edit α} {f : α → Edit β} {b : β} :
    (x >>= f).run c = .ok (b, c') ↔ ∃ a c₁, x.run c = .ok (a, c₁) ∧ (f a).run c₁ = .ok (b, c') := by
  rw [StateT.run_bind, bind_eq_ok]
  exact ⟨fun ⟨⟨a, c₁⟩, hx, hf⟩ => ⟨a, c₁, hx, hf⟩, fun ⟨a, c₁, hx, hf⟩ => ⟨(a, c₁), hx, hf⟩⟩

theorem pure_ok {a b : α} : (pure a : Edit α).run c = .ok (b, c') ↔ a = b ∧ c = c' := by
  change (Except.ok (a, c) : Outcome (α × FlowGraph)) = _ ↔ _
  rw [Except.ok.injEq, Prod.mk.injEq]

theorem lift_run (o : Outcome α) : (liftM o : Edit α).run c = o.map fun a => (a, c) := by
  cases o <;> rfl

theorem lift_bind_run_ok {o : Outcome α} {f : α → Edit β} {b : β} :
    ((liftM o : Edit α) >>= f).run c = .ok (b, c') ↔ ∃ a, o = .ok a ∧ (f a).run c = .ok (b, c') := by
  rw [bind_ok]
  constructor
  · rintro ⟨a, c₁, ha, h⟩
    rw [lift_run, map_eq_ok] at ha
    obtain ⟨a', ha', hpair⟩ := ha
    cases hpair
    exact ⟨_, ha', h⟩
  · rintro ⟨a, rfl, h⟩
    exact ⟨a, c, rfl, h⟩

theorem step_ok {f : FlowGraph → Outcome FlowGraph} {u : Unit} :
    (step f).run c = .ok (u, c') ↔ f c = .ok c' := by
  change ((liftM (f c) : Edit FlowGraph) >>= set).run c = _ ↔ _
  rw [lift_bind_run_ok]
  constructor
  · rintro ⟨d, hd, h⟩
    cases h
    exact hd
  · intro h
    exact ⟨c', h, rfl⟩

theorem eval_ok {f : FlowGraph → Outcome (α × FlowGraph)} {a : α} :
    (eval f).run c = .ok (a, c') ↔ f c = .ok (a, c') := by
  change ((liftM (f c) : Edit (α × FlowGraph)) >>= fun d => set d.2 >>= fun _ => pure d.1).run c = _ ↔ _
  rw [lift_bind_run_ok]
  constructor
  · rintro ⟨d, hd, h⟩
    cases h
    exact hd
  · intro h
    exact ⟨(a, c'), h, rfl⟩

theorem ask_ok {f : FlowGraph → Outcome α} {a : α} :
    (ask f).run c = .ok (a, c') ↔ f c = .ok a ∧ c' = c := by
  change (liftM (f c) : Edit α).run c = _ ↔ _
  rw [lift_run, map_eq_ok]
  constructor
  · rintro ⟨d, hd, h⟩
    cases h
    exact ⟨hd, rfl⟩
  · rintro ⟨h, rfl⟩
    exact ⟨a, h, rfl⟩

theorem forIn_eq_forM (l : List α) (e : α → Edit PUnit) :
    (ForIn.forIn l PUnit.unit fun x _ => do
      e x
      pure (ForInStep.yield PUnit.unit)) = l.forM e := by
  induction l with
  | nil => rfl
  | cons x rest ih =>
    change _ = e x >>= fun _ => rest.forM e
    rw [List.forIn_cons, bind_assoc]
    simp only [pure_bind]
    rw [ih]

/-- An edit that leaves a graph with a property with it. -/
def Keeps (P : FlowGraph → Prop) (e : Edit α) : Prop := ∀ c a c', P c → e.run c = .ok (a, c') → P c'

namespace Keeps

variable {P : FlowGraph → Prop}

theorem bind {x : Edit α} {f : α → Edit β} (hx : Keeps P x) (hf : ∀ a, Keeps P (f a)) :
    Keeps P (x >>= f) := by
  intro c b c' hc h
  obtain ⟨a, c₁, h₁, h₂⟩ := bind_ok.mp h
  exact hf a c₁ b c' (hx c a c₁ hc h₁) h₂

theorem answer (a : α) : Keeps P (pure a : Edit α) := by
  intro c b c' hc h
  obtain ⟨-, rfl⟩ := pure_ok.mp h
  exact hc

theorem read : Keeps P (get : Edit FlowGraph) := by
  intro c a c' hc h
  cases h
  exact hc

theorem fail (f : Failure) : Keeps P (throw f : Edit α) := by
  intro c a c' _ h
  cases h

theorem step {f : FlowGraph → Outcome FlowGraph} (hf : ∀ c c', P c → f c = .ok c' → P c') :
    Keeps P (step f) := fun c _ c' hc h => hf c c' hc (step_ok.mp h)

theorem eval {f : FlowGraph → Outcome (α × FlowGraph)} (hf : ∀ c a c', P c → f c = .ok (a, c') → P c') :
    Keeps P (eval f) := fun c a c' hc h => hf c a c' hc (eval_ok.mp h)

theorem ask (f : FlowGraph → Outcome α) : Keeps P (ask f) := by
  intro c a c' hc h
  obtain ⟨-, rfl⟩ := ask_ok.mp h
  exact hc

theorem forM {l : List α} {e : α → Edit PUnit} (he : ∀ x ∈ l, Keeps P (e x)) : Keeps P (l.forM e) := by
  induction l with
  | nil => exact answer _
  | cons x rest ih =>
    change Keeps P (e x >>= fun _ => rest.forM e)
    exact (he x List.mem_cons_self).bind fun _ => ih fun y hy => he y (List.mem_cons_of_mem _ hy)

theorem forIn {l : List α} {e : α → Edit PUnit} (he : ∀ x ∈ l, Keeps P (e x)) :
    Keeps P (ForIn.forIn l PUnit.unit fun x _ => do
      e x
      pure (ForInStep.yield PUnit.unit)) := by
  rw [forIn_eq_forM]
  exact forM he

end Keeps

end Edit

namespace FlowGraph

def withTemps (c : FlowGraph) (next : Nat) : FlowGraph := { c with nextTemp := next }

theorem temp_ok {c c' : FlowGraph} {ty : Ty} {v : Variable} (h : c.temp ty = .ok (v, c')) :
    v = ⟨s!"carat.temp_{c.nextTemp}", ty⟩ ∧ c' = c.withTemps (c.nextTemp + 1) := by
  obtain ⟨next, hnext, h⟩ := bind_eq_ok.mp h
  unfold Failure.successor at hnext
  split at hnext
  · cases hnext
    cases h
    exact ⟨rfl, rfl⟩
  · cases hnext

end FlowGraph

def Variable.temporary (number : Nat) (ty : Ty) : Variable := ⟨s!"carat.temp_{number}", ty⟩

namespace Drafting

variable {α β : Type}

/-- Collects operations with a property, and only takes temporaries from the graph, from number `n` on. -/
def Adds (n : Nat) (Q : Operation → Prop) (x : Drafting α) : Prop :=
  ∀ before c a after c', n ≤ c.nextTemp → (x.run before).run c = .ok ((a, after), c') →
    (∃ added, after = before ++ added ∧ ∀ o ∈ added, Q o) ∧ ∃ next, n ≤ next ∧ c' = c.withTemps next

variable {Q : Operation → Prop}

theorem bind_ok {x : Drafting α} {f : α → Drafting β} {before after : List Operation} {c c' : FlowGraph}
    {b : β} :
    ((x >>= f).run before).run c = .ok ((b, after), c') ↔
      ∃ a middle c₁, (x.run before).run c = .ok ((a, middle), c₁) ∧
        ((f a).run middle).run c₁ = .ok ((b, after), c') := by
  rw [StateT.run_bind, Edit.bind_ok]
  exact ⟨fun ⟨⟨a, middle⟩, c₁, hx, hf⟩ => ⟨a, middle, c₁, hx, hf⟩,
    fun ⟨a, middle, c₁, hx, hf⟩ => ⟨(a, middle), c₁, hx, hf⟩⟩

theorem compute_ok {ty : Ty} {operation : Variable → Operation} {before after : List Operation}
    {c c' : FlowGraph} {v : Value}
    (h : ((compute ty operation).run before).run c = .ok ((v, after), c')) :
    v = .variable (.temporary c.nextTemp ty) ∧ after = before ++ [operation (.temporary c.nextTemp ty)] ∧
      c' = c.withTemps (c.nextTemp + 1) := by
  obtain ⟨dst, middle, c₁, hdst, h⟩ := bind_ok.mp h
  cases h
  rw [StateT.run_lift, Edit.bind_ok] at hdst
  obtain ⟨dst', c₂, htemp, hdst⟩ := hdst
  cases hdst
  obtain ⟨rfl, rfl⟩ := FlowGraph.temp_ok (Edit.eval_ok.mp htemp)
  exact ⟨rfl, rfl, rfl⟩

namespace Adds

variable {n : Nat}

theorem bind {x : Drafting α} {f : α → Drafting β} (hx : Adds n Q x) (hf : ∀ a, Adds n Q (f a)) :
    Adds n Q (x >>= f) := by
  intro before c b after c' hn h
  obtain ⟨a, middle, c₁, h₁, h₂⟩ := bind_ok.mp h
  obtain ⟨⟨first, rfl, hfirst⟩, next, hnext, rfl⟩ := hx before c a middle c₁ hn h₁
  obtain ⟨⟨second, rfl, hsecond⟩, next', hnext', rfl⟩ := hf a _ _ b after c' hnext h₂
  refine ⟨⟨first ++ second, by simp, ?_⟩, next', hnext', rfl⟩
  intro o ho
  rcases List.mem_append.mp ho with ho | ho
  · exact hfirst o ho
  · exact hsecond o ho

theorem answer (a : α) : Adds n Q (pure a : Drafting α) := by
  intro before c b after c' hn h
  cases h
  exact ⟨⟨[], by simp, fun o ho => (List.not_mem_nil ho).elim⟩, c.nextTemp, hn, rfl⟩

theorem fail (f : Failure) : Adds n Q (throw f : Drafting α) := by
  intro before c b after c' _ h
  cases h

theorem perform {o : Operation} (ho : Q o) : Adds n Q (perform o) := by
  intro before c b after c' hn h
  cases h
  refine ⟨⟨[o], rfl, ?_⟩, c.nextTemp, hn, rfl⟩
  intro o' ho'
  rw [List.mem_singleton.mp ho']
  exact ho

theorem compute {ty : Ty} {operation : Variable → Operation}
    (ho : ∀ k, n ≤ k → Q (operation (.temporary k ty))) : Adds n Q (compute ty operation) := by
  intro before c v after c' hn h
  obtain ⟨-, rfl, rfl⟩ := compute_ok h
  refine ⟨⟨_, rfl, ?_⟩, _, Nat.le_succ_of_le hn, rfl⟩
  intro o ho'
  rw [List.mem_singleton.mp ho']
  exact ho _ hn

theorem collect_ok {x : Drafting α} (hx : Adds n Q x) {c c' : FlowGraph} {a : α}
    {operations : List Operation} (hn : n ≤ c.nextTemp)
    (h : x.collect.run c = .ok ((a, operations), c')) :
    (∀ o ∈ operations, Q o) ∧ ∃ next, n ≤ next ∧ c' = c.withTemps next := by
  obtain ⟨⟨added, hadded, hQ⟩, hnext⟩ := hx [] c a operations c' hn h
  rw [List.nil_append] at hadded
  exact ⟨hadded ▸ hQ, hnext⟩

theorem mono {R : Operation → Prop} {x : Drafting α} (hx : Adds n Q x) (h : ∀ o, Q o → R o) : Adds n R x := by
  intro before c a after c' hn hrun
  obtain ⟨⟨added, hadded, hQ⟩, hnext⟩ := hx before c a after c' hn hrun
  exact ⟨⟨added, hadded, fun o ho => h o (hQ o ho)⟩, hnext⟩

end Adds

def Counts (p : Operation → Bool) (k : Nat) (x : Drafting α) : Prop :=
  ∀ before c a after c', (x.run before).run c = .ok ((a, after), c') → after.countP p = before.countP p + k

namespace Counts

variable {p : Operation → Bool} {k k' : Nat}

theorem bind {x : Drafting α} {f : α → Drafting β} (hx : Counts p k x) (hf : ∀ a, Counts p k' (f a)) :
    Counts p (k + k') (x >>= f) := by
  intro before c b after c' h
  obtain ⟨a, middle, c₁, h₁, h₂⟩ := bind_ok.mp h
  rw [hf a middle c₁ b after c' h₂, hx before c a middle c₁ h₁, Nat.add_assoc]

theorem perform {o : Operation} (ho : p o = true) : Counts p 1 (perform o) := by
  intro before c a after c' h
  cases h
  rw [List.countP_append, List.countP_singleton, if_pos ho]

theorem of_adds {x : Drafting α} (hx : Adds 0 Q x) (h : ∀ o, Q o → p o = false) : Counts p 0 x := by
  intro before c a after c' hrun
  obtain ⟨⟨added, rfl, hQ⟩, -⟩ := hx before c a after c' (Nat.zero_le _) hrun
  have hnone : added.countP p = 0 := List.countP_eq_zero.mpr fun o ho => by
    rw [h o (hQ o ho)]
    exact Bool.false_ne_true
  rw [List.countP_append, hnone]

theorem collect {x : Drafting α} (hx : Counts p k x) {c c' : FlowGraph} {a : α} {operations : List Operation}
    (h : x.collect.run c = .ok ((a, operations), c')) : operations.countP p = k := by
  rw [hx [] c a operations c' h, List.countP_nil, Nat.zero_add]

end Counts

/-- Collects operations with a property, and one more behind them. -/
def Ends (Q R : Operation → Prop) (x : Drafting α) : Prop :=
  ∀ before c a after c', (x.run before).run c = .ok ((a, after), c') →
    ∃ added last, after = before ++ (added ++ [last]) ∧ (∀ o ∈ added, Q o) ∧ R last

namespace Ends

variable {R : Operation → Prop}

theorem bind {x : Drafting α} {f : α → Drafting β} (hx : Adds 0 Q x) (hf : ∀ a, Ends Q R (f a)) :
    Ends Q R (x >>= f) := by
  intro before c b after c' h
  obtain ⟨a, middle, c₁, h₁, h₂⟩ := bind_ok.mp h
  obtain ⟨⟨first, rfl, hfirst⟩, -⟩ := hx before c a middle c₁ (Nat.zero_le _) h₁
  obtain ⟨second, last, rfl, hsecond, hlast⟩ := hf a _ c₁ b after c' h₂
  refine ⟨first ++ second, last, by simp, fun o ho => ?_, hlast⟩
  rcases List.mem_append.mp ho with ho | ho
  · exact hfirst o ho
  · exact hsecond o ho

theorem perform {o : Operation} (ho : R o) : Ends Q R (perform o) := by
  intro before c a after c' h
  cases h
  exact ⟨[], o, rfl, fun o ho => (List.not_mem_nil ho).elim, ho⟩

theorem collect {x : Drafting α} (hx : Ends Q R x) {c c' : FlowGraph} {a : α} {operations : List Operation}
    (h : x.collect.run c = .ok ((a, operations), c')) :
    ∃ added last, operations = added ++ [last] ∧ (∀ o ∈ added, Q o) ∧ R last := hx [] c a operations c' h

end Ends

end Drafting

namespace GuardDecision

variable {h : Hooks} {d : GuardDecision} {plan : RangePlan} {entering header join : Nat} {c c' : FlowGraph}

theorem injectRange_above_ok (tested : plan.topTested = false)
    (hrun : (d.injectRange h plan entering header).run c = .ok (join, c')) :
    ∃ operations c₁, join = entering ∧ (Drafting.collect do
        let enters ← GuardCode.entersLoop plan
        GuardCode.guardRange h plan d.access (some enters)).run c = .ok ((⟨⟩, operations), c₁) ∧
      c₁.injectGuards entering Block.terminatorPosition d.rule operations = .ok c' := by
  unfold injectRange at hrun
  simp only [tested, Bool.not_false, if_true] at hrun
  obtain ⟨⟨_, operations⟩, c₁, hcollect, hrest⟩ := Edit.bind_ok.mp hrun
  obtain ⟨_, c₂, hinject, hanswer⟩ := Edit.bind_ok.mp hrest
  obtain ⟨rfl, rfl⟩ := Edit.pure_ok.mp hanswer
  exact ⟨operations, c₁, rfl, hcollect, Edit.step_ok.mp hinject⟩

/-- Where the test of a loop is taken first, the guards get a block that is entered if it is passed, and the way past
them another one where both meet. -/
theorem injectRange_around_ok (tested : plan.topTested = true)
    (hrun : (d.injectRange h plan entering header).run c = .ok (join, c')) :
    ∃ enters test c₁ c₂ operations c₃ guards c₄ c₅ c₆ e c₇ c₈ c₉ c₁₀ c₁₁,
      (GuardCode.entersLoop plan).collect.run c = .ok ((enters, test), c₁) ∧
      c₁.injectGuards entering Block.terminatorPosition d.rule test = .ok c₂ ∧
      (GuardCode.guardRange h plan d.access none).collect.run c₂ = .ok ((⟨⟩, operations), c₃) ∧
      c₃.newBlock = .ok (guards, c₄) ∧ c₄.injectGuards guards (fun _ => 0) d.rule operations = .ok c₅ ∧
      c₅.newBlock = .ok (join, c₆) ∧ c₆.removeEdge entering header = .ok (e, c₇) ∧
      c₇.insertEdge entering guards (some (.isTrue enters)) = .ok c₈ ∧
      c₈.insertEdge entering join (some (.isFalse enters)) = .ok c₉ ∧
      c₉.insertEdge guards join none = .ok c₁₀ ∧ c₁₀.insertEdge join header none = .ok c₁₁ ∧
      c₁₁.modifyBlock header (fun b =>
        pure { b with instructions := b.instructions.map (renameIncoming entering join) }) = .ok c' := by
  unfold injectRange at hrun
  simp only [tested, Bool.not_true, Bool.false_eq_true, if_false] at hrun
  obtain ⟨⟨enters, test⟩, c₁, htest, hrest⟩ := Edit.bind_ok.mp hrun
  obtain ⟨_, c₂, hinject, hrest⟩ := Edit.bind_ok.mp hrest
  obtain ⟨⟨_, operations⟩, c₃, hcollect, hrest⟩ := Edit.bind_ok.mp hrest
  obtain ⟨guards, c₄, hguards, hrest⟩ := Edit.bind_ok.mp hrest
  obtain ⟨_, c₅, hfill, hrest⟩ := Edit.bind_ok.mp hrest
  obtain ⟨join', c₆, hjoin, hrest⟩ := Edit.bind_ok.mp hrest
  obtain ⟨e, c₇, hremove, hrest⟩ := Edit.bind_ok.mp hrest
  obtain ⟨_, c₈, hthrough, hrest⟩ := Edit.bind_ok.mp hrest
  obtain ⟨_, c₉, hpast, hrest⟩ := Edit.bind_ok.mp hrest
  obtain ⟨_, c₁₀, hpasses, hrest⟩ := Edit.bind_ok.mp hrest
  obtain ⟨_, c₁₁, hjoins, hrest⟩ := Edit.bind_ok.mp hrest
  obtain ⟨_, c₁₂, hrename, hanswer⟩ := Edit.bind_ok.mp hrest
  obtain ⟨rfl, rfl⟩ := Edit.pure_ok.mp hanswer
  exact ⟨enters, test, c₁, c₂, operations, c₃, guards, c₄, c₅, c₆, e, c₇, c₈, c₉, c₁₀, c₁₁, htest,
    Edit.step_ok.mp hinject, hcollect, Edit.eval_ok.mp hguards, Edit.step_ok.mp hfill, Edit.eval_ok.mp hjoin,
    Edit.eval_ok.mp hremove, Edit.step_ok.mp hthrough, Edit.step_ok.mp hpast, Edit.step_ok.mp hpasses,
    Edit.step_ok.mp hjoins, Edit.step_ok.mp hrename⟩

end GuardDecision

end RegionGuard

import RegionGuard.Proofs.OverlaidCalls
import RegionGuard.Proofs.SimplifiedLoops
set_option autoImplicit false

namespace RegionGuard

theorem eq_pair_of_nodup {l : List Nat} (hl : l.Nodup) {p q : Nat} (hpq : p ≠ q) (hmem : ∀ v, v ∈ l ↔ v = p ∨ v = q) :
    l = [p, q] ∨ l = [q, p] := by
  have hperm : l.Perm [p, q] := (List.perm_ext_iff_of_nodup hl (by simp [hpq])).mpr fun v => by simp [hmem v]
  match l, hperm.length_eq with
  | [x, y], _ =>
    have hx := (hmem x).mp List.mem_cons_self
    have hy := (hmem y).mp (List.mem_cons_of_mem x List.mem_cons_self)
    have hxy : x ≠ y := fun h => (List.nodup_cons.mp hl).1 (h ▸ List.mem_cons_self)
    rcases hx with rfl | rfl <;> rcases hy with rfl | rfl
    · exact absurd rfl hxy
    · exact .inl rfl
    · exact .inr rfl
    · exact absurd rfl hxy

namespace FlowGraph

inductive Exits (c : FlowGraph) (y : Nat) : Prop
  | none (ends : ∀ x, c.graph.edges.get? (y, x) = none)
  | one {x : Nat} {e : Edge} (leads : c.graph.edges.get? (y, x) = some e) (always : e.condition = none)
      (only : ∀ z, (c.graph.edges.get? (y, z)).isSome → z = x)
  | two {x x' : Nat} {e e' : Edge} {v : Value} (apart : x ≠ x') (leads : c.graph.edges.get? (y, x) = some e)
      (leads' : c.graph.edges.get? (y, x') = some e') (onTrue : e.condition = some (.isTrue v))
      (onFalse : e'.condition = some (.isFalse v))
      (only : ∀ z, (c.graph.edges.get? (y, z)).isSome → z = x ∨ z = x')

variable {c c' : FlowGraph} {y y' : Nat}

theorem exists_keys_of_edgesOut (wired : c.graph.Wired) {es : List Edge} (hes : c.graph.edgesOut y = .ok es) :
    ∃ ks : List Nat, ks.Nodup ∧ (∀ x, x ∈ ks ↔ (c.graph.edges.get? (y, x)).isSome) ∧
      List.Forall₂ (fun x e => c.graph.edges.get? (y, x) = some e) ks es := by
  obtain ⟨s, hs, hall⟩ := Graph.edgesOut_eq_ok.mp hes
  refine ⟨s.keys, Table.nodup_keys s, fun x => ?_, hall⟩
  rw [← wired.successors, Graph.successorsOf, hs]
  rfl

theorem Decided.exits (decided : c.Decided) (wired : c.graph.Wired) (hy : (c.graph.vertices.get? y).isSome) :
    c.Exits y := by
  obtain ⟨es, hes⟩ := wired.exists_edgesOut hy
  obtain ⟨ks, hnodup, hks, hall⟩ := exists_keys_of_edgesOut wired hes
  rcases decided y es hes with rfl | ⟨e, rfl, halways⟩ | ⟨e, e', v, rfl, hconditions⟩
  · cases hall
    refine .none fun x => Option.not_isSome_iff_eq_none.mp fun hx => ?_
    exact List.not_mem_nil ((hks x).mpr hx)
  · obtain _ | ⟨he, hnil⟩ := hall
    cases hnil
    exact .one he halways fun z hz => List.mem_singleton.mp ((hks z).mpr hz)
  · obtain _ | ⟨he, hrest⟩ := hall
    obtain _ | ⟨he', hnil⟩ := hrest
    cases hnil
    rename_i x x'
    have hapart : x ≠ x' := fun h => (List.nodup_cons.mp hnodup).1 (h ▸ List.mem_cons_self)
    have honly : ∀ z, (c.graph.edges.get? (y, z)).isSome → z = x ∨ z = x' := fun z hz => by
      simpa using (hks z).mpr hz
    rcases hconditions with ⟨hc, hc'⟩ | ⟨hc, hc'⟩
    · exact .two hapart he he' hc hc' honly
    · exact .two hapart.symm he' he hc' hc fun z hz => (honly z hz).symm

theorem decided_of_exits (wired : c.graph.Wired) (hexits : ∀ y, (c.graph.vertices.get? y).isSome → c.Exits y) :
    c.Decided := by
  intro y es hes
  obtain ⟨ks, hnodup, hks, hall⟩ := exists_keys_of_edgesOut wired hes
  have hy : (c.graph.vertices.get? y).isSome := by
    obtain ⟨s, hs, -⟩ := Graph.edgesOut_eq_ok.mp hes
    rw [← wired.hasSuccessors, hs]
    rfl
  cases hexits y hy with
  | none ends =>
    obtain rfl : ks = [] := List.eq_nil_iff_forall_not_mem.mpr fun x hx => by
      have := (hks x).mp hx
      rw [ends] at this
      cases this
    cases hall
    exact .inl rfl
  | @one x e leads always only =>
    obtain rfl : ks = [x] := (eq_singleton_iff hnodup).mpr fun z =>
      (hks z).trans ⟨only z, fun h => by rw [h, leads]; rfl⟩
    obtain _ | ⟨he, hnil⟩ := hall
    cases hnil
    cases leads.symm.trans he
    exact .inr (.inl ⟨e, rfl, always⟩)
  | @two x x' e e' v apart leads leads' onTrue onFalse only =>
    have hmem : ∀ z, z ∈ ks ↔ z = x ∨ z = x' := fun z => (hks z).trans ⟨only z, fun h => by
      rcases h with rfl | rfl
      · rw [leads]
        rfl
      · rw [leads']
        rfl⟩
    refine .inr (.inr ?_)
    rcases eq_pair_of_nodup hnodup apart hmem with rfl | rfl
    · obtain _ | ⟨he, hrest⟩ := hall
      obtain _ | ⟨he', hnil⟩ := hrest
      cases hnil
      cases leads.symm.trans he
      cases leads'.symm.trans he'
      exact ⟨e, e', v, rfl, .inl ⟨onTrue, onFalse⟩⟩
    · obtain _ | ⟨he', hrest⟩ := hall
      obtain _ | ⟨he, hnil⟩ := hrest
      cases hnil
      cases leads.symm.trans he
      cases leads'.symm.trans he'
      exact ⟨e', e, v, rfl, .inr ⟨onFalse, onTrue⟩⟩

/-- The ways out of a block of another graph lead to the stops that stand for where they led, on the same
conditions. -/
structure Diverts (c c' : FlowGraph) (y : Nat) (stop : Nat → Nat) : Prop where
  leads : ∀ x e, c.graph.edges.get? (y, x) = some e →
    ∃ e', c'.graph.edges.get? (y, stop x) = some e' ∧ e'.condition = e.condition
  only : ∀ z, (c'.graph.edges.get? (y, z)).isSome → ∃ x, (c.graph.edges.get? (y, x)).isSome ∧ z = stop x
  apart : ∀ x x', (c.graph.edges.get? (y, x)).isSome → (c.graph.edges.get? (y, x')).isSome → stop x = stop x' → x = x'

theorem Diverts.of_same (h : ∀ x, c'.graph.edges.get? (y, x) = c.graph.edges.get? (y, x)) : c.Diverts c' y id where
  leads x e he := ⟨e, (h x).trans he, rfl⟩
  only z hz := ⟨z, by rw [← h]; exact hz, rfl⟩
  apart _ _ _ _ hxx' := hxx'

theorem Diverts.exits {stop : Nat → Nat} (h : c.Diverts c' y stop) (hy : c.Exits y) : c'.Exits y := by
  cases hy with
  | none ends =>
    refine .none fun z => Option.not_isSome_iff_eq_none.mp fun hz => ?_
    obtain ⟨x, hx, -⟩ := h.only z hz
    rw [ends] at hx
    cases hx
  | @one x e leads always only =>
    obtain ⟨e', he', hcondition⟩ := h.leads x e leads
    refine .one he' (hcondition.trans always) fun z hz => ?_
    obtain ⟨x', hx', rfl⟩ := h.only z hz
    rw [only x' hx']
  | @two x x' e e' v apart leads leads' onTrue onFalse only =>
    obtain ⟨f, hf, hcondition⟩ := h.leads x e leads
    obtain ⟨f', hf', hcondition'⟩ := h.leads x' e' leads'
    refine .two (fun heq => apart (h.apart x x' (by rw [leads]; rfl) (by rw [leads']; rfl) heq)) hf hf'
      (hcondition.trans onTrue) (hcondition'.trans onFalse) fun z hz => ?_
    obtain ⟨w, hw, rfl⟩ := h.only z hz
    exact (only w hw).imp (congrArg stop) (congrArg stop)

end FlowGraph

namespace Activation

variable {a b : Activation} {M N : Machine}

/-- From a block without a way out control goes nowhere. -/
theorem next_of_none (wired : a.body.graph.Wired) {x : Block} (hx : a.body.block a.block = .ok x)
    (ends : ∀ z, a.body.graph.edges.get? (a.block, z) = none) :
    a.next M = .error (.error (.execution (.stuck a.block))) := by
  obtain ⟨es, hes⟩ := wired.exists_edgesOut (v := a.block) (by rw [FlowGraph.block_eq_ok.mp hx]; rfl)
  obtain ⟨ks, -, hks, hall⟩ := FlowGraph.exists_keys_of_edgesOut wired hes
  obtain rfl : ks = [] := List.eq_nil_iff_forall_not_mem.mpr fun z hz => by
    have := (hks z).mp hz
    rw [ends] at this
    cases this
  cases hall
  unfold next
  rw [hes]
  rfl

theorem next_of_one (wired : a.body.graph.Wired) (filed : a.body.graph.Filed) {x : Nat} {e : Edge}
    (leads : a.body.graph.edges.get? (a.block, x) = some e) (always : e.condition = none)
    (only : ∀ z, (a.body.graph.edges.get? (a.block, z)).isSome → z = x) : a.next M = .ok x := by
  obtain ⟨es, hes⟩ := wired.exists_edgesOut (wired.ends a.block x (by rw [leads]; rfl)).1
  obtain ⟨ks, hnodup, hks, hall⟩ := FlowGraph.exists_keys_of_edgesOut wired hes
  obtain rfl : ks = [x] := (eq_singleton_iff hnodup).mpr fun z =>
    (hks z).trans ⟨only z, fun h => by rw [h, leads]; rfl⟩
  obtain _ | ⟨he, hnil⟩ := hall
  cases hnil
  cases leads.symm.trans he
  unfold next
  rw [hes]
  change a.follow M [e] = _
  unfold follow
  rw [always, ← (filed _ _ _ leads).2]
  rfl

/-- Of two edges that test one value both ways, one is taken. -/
theorem follow_pair {e e' : Edge} {c c' : Condition} (hc : e.condition = some c) (hc' : e'.condition = some c')
    (same : c'.value = c.value) (opposite : c'.whenTrue = !c.whenTrue) :
    a.follow M [e, e'] = (a.word M c.value).map fun w => if c.isSatisfiedBy w then e.tail else e'.tail := by
  unfold follow follow
  rw [hc, hc']
  simp only [same]
  cases hw : a.word M c.value with
  | error f => rfl
  | ok w =>
    change (if c.isSatisfiedBy w then (pure e.tail : Outcome Nat) else
      (if c'.isSatisfiedBy w then pure e'.tail else follow M a [])) =
        .ok (if c.isSatisfiedBy w then e.tail else e'.tail)
    have hopposite : c'.isSatisfiedBy w = !c.isSatisfiedBy w := by
      unfold Condition.isSatisfiedBy
      rw [opposite]
      cases w != 0 <;> cases c.whenTrue <;> rfl
    rw [hopposite]
    cases c.isSatisfiedBy w <;> rfl

theorem next_of_two (wired : a.body.graph.Wired) (filed : a.body.graph.Filed) {x x' : Nat} {e e' : Edge} {v : Value}
    (apart : x ≠ x') (leads : a.body.graph.edges.get? (a.block, x) = some e)
    (leads' : a.body.graph.edges.get? (a.block, x') = some e') (onTrue : e.condition = some (.isTrue v))
    (onFalse : e'.condition = some (.isFalse v))
    (only : ∀ z, (a.body.graph.edges.get? (a.block, z)).isSome → z = x ∨ z = x') :
    a.next M = (a.word M v).map fun w => if w != 0 then x else x' := by
  obtain ⟨es, hes⟩ := wired.exists_edgesOut (wired.ends a.block x (by rw [leads]; rfl)).1
  obtain ⟨ks, hnodup, hks, hall⟩ := FlowGraph.exists_keys_of_edgesOut wired hes
  have hmem : ∀ z, z ∈ ks ↔ z = x ∨ z = x' := fun z => (hks z).trans ⟨only z, fun h => by
    rcases h with rfl | rfl
    · rw [leads]
      rfl
    · rw [leads']
      rfl⟩
  have htail : e.tail = x := (filed _ _ _ leads).2
  have htail' : e'.tail = x' := (filed _ _ _ leads').2
  unfold next
  rw [hes]
  change a.follow M es = _
  rcases eq_pair_of_nodup hnodup apart hmem with rfl | rfl
  · obtain _ | ⟨he, hrest⟩ := hall
    obtain _ | ⟨he', hnil⟩ := hrest
    cases hnil
    cases leads.symm.trans he
    cases leads'.symm.trans he'
    rw [follow_pair onTrue onFalse rfl rfl, htail, htail']
    refine congrArg (fun f => Except.map f (a.word M v)) (funext fun w => ?_)
    unfold Condition.isSatisfiedBy
    cases w != 0 <;> rfl
  · obtain _ | ⟨he', hrest⟩ := hall
    obtain _ | ⟨he, hnil⟩ := hrest
    cases hnil
    cases leads.symm.trans he
    cases leads'.symm.trans he'
    rw [follow_pair onFalse onTrue rfl rfl, htail, htail']
    refine congrArg (fun f => Except.map f (a.word M v)) (funext fun w => ?_)
    unfold Condition.isSatisfiedBy
    cases w != 0 <;> rfl

/-- Control goes to the stop that stands for where it went, if the values that decide are the same. -/
theorem next_of_diverts (wired : a.body.graph.Wired) (filed : a.body.graph.Filed) (wired' : b.body.graph.Wired)
    (filed' : b.body.graph.Filed) {x : Block} (hx : a.body.block a.block = .ok x) (hexits : a.body.Exits a.block)
    {x' : Block} (hx' : b.body.block a.block = .ok x') (hblock : b.block = a.block) {stop : Nat → Nat}
    (diverts : a.body.Diverts b.body a.block stop)
    (words : ∀ z e, a.body.graph.edges.get? (a.block, z) = some e → ∀ c ∈ e.condition,
      b.word N c.value = a.word M c.value) :
    b.next N = (a.next M).map stop := by
  cases hexits with
  | none ends =>
    have hends : ∀ z, b.body.graph.edges.get? (b.block, z) = none := fun z =>
      Option.not_isSome_iff_eq_none.mp fun hz => by
        obtain ⟨w, hw, -⟩ := diverts.only z (hblock ▸ hz)
        rw [ends] at hw
        cases hw
    rw [next_of_none wired hx ends, next_of_none wired' (hblock.symm ▸ hx') hends, hblock]
    rfl
  | @one z e leads always only =>
    obtain ⟨e', he', hcondition⟩ := diverts.leads z e leads
    have honly : ∀ w, (b.body.graph.edges.get? (b.block, w)).isSome → w = stop z := fun w hw => by
      obtain ⟨w', hw', rfl⟩ := diverts.only w (hblock ▸ hw)
      rw [only w' hw']
    rw [next_of_one wired filed leads always only,
      next_of_one wired' filed' (hblock.symm ▸ he') (hcondition.trans always) honly]
    rfl
  | @two z z' e e' v apart leads leads' onTrue onFalse only =>
    obtain ⟨f, hf, hcondition⟩ := diverts.leads z e leads
    obtain ⟨f', hf', hcondition'⟩ := diverts.leads z' e' leads'
    have hapart : stop z ≠ stop z' := fun heq =>
      apart (diverts.apart z z' (by rw [leads]; rfl) (by rw [leads']; rfl) heq)
    have honly : ∀ w, (b.body.graph.edges.get? (b.block, w)).isSome → w = stop z ∨ w = stop z' := fun w hw => by
      obtain ⟨w', hw', rfl⟩ := diverts.only w (hblock ▸ hw)
      exact (only w' hw').imp (congrArg stop) (congrArg stop)
    have hword : b.word N v = a.word M v := words z e leads _ onTrue
    rw [next_of_two wired filed apart leads leads' onTrue onFalse only, next_of_two wired' filed' hapart
      (hblock.symm ▸ hf) (hblock.symm ▸ hf') (hcondition.trans onTrue) (hcondition'.trans onFalse) honly, hword]
    cases a.word M v with
    | error f => rfl
    | ok w => exact congrArg Except.ok (apply_ite stop _ z z').symm

end Activation

end RegionGuard

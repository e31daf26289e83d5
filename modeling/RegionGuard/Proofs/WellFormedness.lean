import RegionGuard.Flow.WellFormed
import RegionGuard.Proofs.CustodyStates
import RegionGuard.Proofs.Dominance
set_option autoImplicit false

namespace RegionGuard

theorem forIn_eq_ok {α : Type} {l : List α} {f : α → Outcome PUnit} :
    (ForIn.forIn l PUnit.unit fun x _ => do
      f x
      pure (ForInStep.yield PUnit.unit)) = .ok PUnit.unit ↔ ∀ x ∈ l, f x = .ok PUnit.unit := by
  induction l with
  | nil => exact iff_of_true rfl fun x hx => (List.not_mem_nil hx).elim
  | cons x rest ih =>
    rw [List.forIn_cons, bind_assoc, List.forall_mem_cons, ← ih]
    simp only [pure_bind]
    rw [bind_eq_ok]
    exact ⟨fun ⟨_, hx, hrest⟩ => ⟨hx, hrest⟩, fun ⟨hx, hrest⟩ => ⟨_, hx, hrest⟩⟩

theorem forM_eq_ok {α : Type} {l : List α} {f : α → Outcome PUnit} :
    l.forM f = .ok PUnit.unit ↔ ∀ x ∈ l, f x = .ok PUnit.unit := by
  induction l with
  | nil => exact iff_of_true rfl fun x hx => (List.not_mem_nil hx).elim
  | cons x rest ih =>
    change (f x >>= fun _ => rest.forM f) = _ ↔ _
    rw [bind_eq_ok, List.forall_mem_cons, ← ih]
    exact ⟨fun ⟨_, hx, hrest⟩ => ⟨hx, hrest⟩, fun ⟨hx, hrest⟩ => ⟨_, hx, hrest⟩⟩

namespace DefUse

variable {f : Function} {d : DefUse} {v w : Variable} {l : Location}

theorem foldlM_define {name : String} {located : List (Location × Instruction)} {ds ds' : List (Variable × Location)}
    (hds : (ds.map (·.1)).Nodup)
    (h : located.foldlM (fun ds (l, i) =>
      match i.operation.written? with
      | some v => define name ds v l
      | none => pure ds) ds = .ok ds') :
    (ds'.map (·.1)).Nodup ∧ ∀ v l, (v, l) ∈ ds' ↔
      (v, l) ∈ ds ∨ ∃ i, (l, i) ∈ located ∧ i.operation.written? = some v := by
  induction located generalizing ds with
  | nil =>
    cases h
    exact ⟨hds, fun v l => by simp⟩
  | cons e rest ih =>
    obtain ⟨k, i⟩ := e
    rw [List.foldlM_cons] at h
    obtain ⟨ds₁, hds₁, h⟩ := bind_eq_ok.mp h
    dsimp only at hds₁
    cases hw : i.operation.written? with
    | none =>
      rw [hw] at hds₁
      cases hds₁
      obtain ⟨hnodup, hmem⟩ := ih hds h
      refine ⟨hnodup, fun v l => (hmem v l).trans (or_congr_right ⟨?_, ?_⟩)⟩
      · rintro ⟨j, hj, hv⟩
        exact ⟨j, List.mem_cons_of_mem _ hj, hv⟩
      · rintro ⟨j, hj, hv⟩
        rcases List.mem_cons.mp hj with heq | hj
        · cases heq
          cases hw.symm.trans hv
        · exact ⟨j, hj, hv⟩
    | some x =>
      rw [hw] at hds₁
      change define name ds x k = .ok ds₁ at hds₁
      unfold define at hds₁
      split at hds₁
      · cases hds₁
      · rename_i hfresh
        cases hds₁
        have hx : x ∉ ds.map (·.1) := fun hx => hfresh (by
          obtain ⟨e, he, rfl⟩ := List.mem_map.mp hx
          exact List.any_eq_true.mpr ⟨e, he, decide_eq_true rfl⟩)
        have hds₁ : ((ds ++ [(x, k)]).map (·.1)).Nodup := by
          rw [List.map_append]
          refine List.nodup_append.mpr ⟨hds, List.pairwise_singleton _ _, fun y hy z hz hyz => hx ?_⟩
          have hyx : y = x := hyz.trans (List.mem_singleton.mp hz)
          exact hyx ▸ hy
        obtain ⟨hnodup, hmem⟩ := ih hds₁ h
        refine ⟨hnodup, fun v l => (hmem v l).trans ?_⟩
        rw [List.mem_append, List.mem_singleton, or_assoc]
        refine or_congr_right ⟨?_, ?_⟩
        · rintro (heq | ⟨j, hj, hv⟩)
          · cases heq
            exact ⟨i, List.mem_cons_self, hw⟩
          · exact ⟨j, List.mem_cons_of_mem _ hj, hv⟩
        · rintro ⟨j, hj, hv⟩
          rcases List.mem_cons.mp hj with heq | hj
          · cases heq
            cases hw.symm.trans hv
            exact .inl rfl
          · exact .inr ⟨j, hj, hv⟩

theorem definition?_eq_some (h : ofFunction f = .ok d) :
    d.definition? v = some l ↔ ∃ i, (l, i) ∈ f.located ∧ i.operation.written? = some v := by
  obtain ⟨c, -, h⟩ := bind_eq_ok.mp h
  obtain ⟨ds, hds, h⟩ := bind_eq_ok.mp h
  cases h
  have hnil : (([] : List (Variable × Location)).map (·.1)).Nodup := List.nodup_nil
  obtain ⟨hnodup, hmem⟩ := foldlM_define hnil hds
  have hmem : (v, l) ∈ ds ↔ ∃ i, (l, i) ∈ f.located ∧ i.operation.written? = some v := by
    rw [hmem v l]
    simp
  rw [← hmem]
  change ds.lookup v = some l ↔ _
  constructor
  · intro h
    obtain ⟨front, back, heq, -⟩ := List.lookup_eq_some_iff.mp h
    rw [heq]
    exact List.mem_append_right _ List.mem_cons_self
  · exact Table.lookup_of_nodup hnodup

end DefUse

namespace FlowGraph

/-- What is defined at a place is known in front of position `k` of a block: the place comes before that in the
block, or its block dominates the block. -/
def Available (c : FlowGraph) (entry : Nat) (place : Location) (block k : Nat) : Prop :=
  if place.block = block then ∃ b n, c.block block = .ok b ∧ b.position? place.instruction = some n ∧ n < k
  else c.graph.Dominates entry place.block block

theorem eq_of_dominators {c : FlowGraph} {entry : Nat} {dominators : Dominators} (wired : c.graph.Wired)
    (hentry : c.entry = some entry) (hvertex : c.graph.hasVertex entry) (h : c.dominators = .ok dominators) :
    dominators = ⟨entry, c.graph.treeDominators entry⟩ := by
  obtain ⟨e, he, h⟩ := bind_eq_ok.mp h
  cases hentry.symm.trans (orRaise_eq_ok.mp he)
  obtain ⟨idoms, hidoms, h⟩ := bind_eq_ok.mp h
  cases h
  rw [Except.ok.inj ((wired.immediateDominators_ok hvertex).symm.trans hidoms)]

end FlowGraph

structure Function.Verified (f : Function) (c : FlowGraph) (d : DefUse) (entry : Nat) : Prop where
  body : f.body = some c
  built : c.Built
  addressable : c.Addressable
  starts : c.entry = some entry
  vertex : c.graph.hasVertex entry
  definitions : DefUse.ofFunction f = .ok d
  ordered : ∀ k b, c.block k = .ok b → ∀ i ∈ b.instructions.dropWhile (·.operation.isPhi), i.operation.isPhi = false
  reads : ∀ k b n i, c.block k = .ok b → b.instructions[n]? = some i → i.operation.isPhi = false →
    ∀ v, .variable v ∈ i.operation.reads → ∃ place, d.definition? v = some place ∧
      ((∃ l, c.graph.Way entry k l) → c.Available entry place k n)
  incoming : ∀ k b i dst values, c.block k = .ok b → i ∈ b.instructions → i.operation = .phi dst values →
    ∀ v j, (.variable v, j) ∈ values → ∃ place b', d.definition? v = some place ∧ c.block j = .ok b' ∧
      ((∃ l, c.graph.Way entry j l) → c.Available entry place j b'.instructions.length)
  arriving : ∀ k b i dst values, c.block k = .ok b → i ∈ b.instructions → i.operation = .phi dst values →
    ∀ e ∈ values, e.2 ∈ c.graph.predecessorsOf k

namespace WellFormed.Context

variable {x : Context} {b : Block} {predecessors successors : List Nat}

theorem checkFrom_ok {position : Nat} {afterOther : Bool} {l : List Instruction}
    (h : x.checkFrom b predecessors successors position afterOther l = .ok ()) :
    (afterOther = true → ∀ i ∈ l, i.operation.isPhi = false) ∧
      (∀ i ∈ l.dropWhile (·.operation.isPhi), i.operation.isPhi = false) ∧
      (∀ n i, l[n]? = some i → i.operation.isPhi = false →
        ∀ v ∈ i.operation.reads, x.checkRead ⟨b.index, i.index⟩ (position + n) v = .ok ()) ∧
      ∀ i ∈ l, ∀ dst values, i.operation = .phi dst values →
        ∀ e ∈ values, x.checkIncoming predecessors ⟨b.index, i.index⟩ e.1 e.2 = .ok () := by
  induction l generalizing position afterOther with
  | nil =>
    refine ⟨fun _ i hi => (List.not_mem_nil hi).elim, fun i hi => (List.not_mem_nil hi).elim, fun n i hi => ?_,
      fun i hi => (List.not_mem_nil hi).elim⟩
    rw [List.getElem?_nil] at hi
    cases hi
  | cons i rest ih =>
    unfold checkFrom at h
    cases hphi : i.operation.isPhi with
    | true =>
      obtain ⟨dst, values, ho⟩ : ∃ dst values, i.operation = .phi dst values := by
        cases ho : i.operation <;> rw [ho] at hphi <;> first | exact ⟨_, _, rfl⟩ | cases hphi
      rw [ho] at h
      dsimp only at h
      cases afterOther with
      | true => cases h
      | false =>
        obtain ⟨_, hvalues, h⟩ := bind_eq_ok.mp h
        obtain ⟨-, hordered, hreads, hincoming⟩ := ih h
        refine ⟨fun hfalse => (by cases hfalse), ?_, fun n j hj hnot v hv => ?_, fun j hj dst' values' ho' => ?_⟩
        · rw [List.dropWhile_cons_of_pos (by exact hphi)]
          exact hordered
        · cases n with
          | zero =>
            cases hj
            rw [hphi] at hnot
            cases hnot
          | succ n =>
            rw [show position + (n + 1) = position + 1 + n by omega]
            exact hreads n j hj hnot v hv
        · rcases List.mem_cons.mp hj with rfl | hj
          · cases ho.symm.trans ho'
            exact forIn_eq_ok.mp hvalues
          · exact hincoming j hj dst' values' ho'
    | false =>
      have h : (do
          x.checkOperation ⟨b.index, i.index⟩ (rest.isEmpty && successors.isEmpty) i.operation
          for v in i.operation.reads do x.checkRead ⟨b.index, i.index⟩ position v
          x.checkFrom b predecessors successors (position + 1) true rest) = .ok () := by
        cases ho : i.operation <;> rw [ho] at h hphi <;> first | exact h | cases hphi
      obtain ⟨_, -, h⟩ := bind_eq_ok.mp h
      obtain ⟨_, hreads, h⟩ := bind_eq_ok.mp h
      obtain ⟨hrest, -, hlater, hincoming⟩ := ih h
      refine ⟨fun _ j hj => ?_, ?_, fun n j hj hnot v hv => ?_, fun j hj dst values ho => ?_⟩
      · rcases List.mem_cons.mp hj with rfl | hj
        · exact hphi
        · exact hrest rfl j hj
      · rw [List.dropWhile_cons_of_neg (by rw [hphi]; exact Bool.false_ne_true)]
        intro j hj
        rcases List.mem_cons.mp hj with rfl | hj
        · exact hphi
        · exact hrest rfl j hj
      · cases n with
        | zero =>
          cases hj
          exact forIn_eq_ok.mp hreads v hv
        | succ n =>
          rw [show position + (n + 1) = position + 1 + n by omega]
          exact hlater n j hj hnot v hv
      · rcases List.mem_cons.mp hj with rfl | hj
        · rw [ho] at hphi
          cases hphi
        · exact hincoming j hj dst values ho

theorem definition_ok {v : Variable} {l place : Location} (h : x.definition v l = .ok place) :
    x.defUse.definition? v = some place := by
  unfold definition at h
  split at h
  · rename_i hplace
    cases h
    exact hplace
  · cases h

theorem checkRead_ok {l : Location} {position : Nat} {v : Variable}
    (h : x.checkRead l position (.variable v) = .ok ()) :
    ∃ place, x.defUse.definition? v = some place ∧ x.isAvailable place l.block position = true := by
  obtain ⟨place, hplace, h⟩ := bind_eq_ok.mp h
  refine ⟨place, definition_ok hplace, ?_⟩
  by_contra hnot
  rw [if_neg hnot] at h
  cases h

theorem mem_of_checkIncoming {l : Location} {v : Value} {j : Nat}
    (h : x.checkIncoming predecessors l v j = .ok ()) : j ∈ predecessors := by
  unfold checkIncoming at h
  by_cases hcontains : predecessors.contains j
  · exact List.contains_iff_mem.mp hcontains
  · rw [if_neg hcontains] at h
    cases h

theorem checkIncoming_ok {l : Location} {v : Variable} {j : Nat}
    (h : x.checkIncoming predecessors l (.variable v) j = .ok ()) :
    ∃ place b', x.defUse.definition? v = some place ∧ x.graph.block j = .ok b' ∧
      x.isAvailable place j b'.instructions.length = true := by
  unfold checkIncoming at h
  by_cases hcontains : predecessors.contains j
  · simp only [hcontains, if_true] at h
    obtain ⟨place, hplace, h⟩ := bind_eq_ok.mp h
    obtain ⟨b', hb', h⟩ := bind_eq_ok.mp h
    refine ⟨place, b', definition_ok hplace, hb', ?_⟩
    by_contra hnot
    rw [if_neg hnot] at h
    cases h
  · rw [if_neg hcontains] at h
    cases h

theorem available_of_isAvailable {entry : Nat} {place : Location} {block k : Nat} (wired : x.graph.graph.Wired)
    (hdominators : x.dominators = ⟨entry, x.graph.graph.treeDominators entry⟩)
    (hreachable : ∀ v, v ∈ x.reachable ↔ ∃ l, x.graph.graph.Way entry v l) (h : x.isAvailable place block k)
    (hreached : ∃ l, x.graph.graph.Way entry block l) : x.graph.Available entry place block k := by
  unfold isAvailable at h
  rw [List.contains_iff_mem.mpr ((hreachable block).mpr hreached)] at h
  simp only [Bool.not_true, Bool.false_eq_true, if_false] at h
  unfold FlowGraph.Available
  split at h
  · rename_i hne
    rw [if_neg (by simpa using hne)]
    rw [hdominators, wired.dominates_treeDominators] at h
    rcases h with ⟨-, h⟩ | ⟨hnot, -⟩
    · exact h
    · exact absurd hreached hnot
  · rename_i heq
    rw [if_pos (by simpa using heq)]
    cases hposition : (x.graph.block block).toOption.bind (·.position? place.instruction) with
    | none =>
      rw [hposition] at h
      cases h
    | some n =>
      rw [hposition] at h
      obtain ⟨b, hb, hn⟩ := Option.bind_eq_some_iff.mp hposition
      exact ⟨b, n, toOption_eq_some.mp hb, hn, of_decide_eq_true h⟩

end WellFormed.Context

open WellFormed FlowGraph in
/-- Verification of a function finds these things out. -/
theorem Program.verified_of_verifyFunction {p : Program} {f : Function} {c : FlowGraph} (hbody : f.body = some c)
    (built : c.Built) (addressable : c.Addressable) (h : p.verifyFunction f = .ok ()) :
    ∃ d entry, f.Verified c d entry := by
  obtain ⟨c', hc', h⟩ := bind_eq_ok.mp h
  cases hbody.symm.trans (orRaise_eq_ok.mp hc')
  obtain ⟨entry, hentry, h⟩ := bind_eq_ok.mp h
  obtain ⟨d, hd, h⟩ := bind_eq_ok.mp h
  obtain ⟨dominators, hdominators, h⟩ := bind_eq_ok.mp h
  obtain ⟨reachable, hreachable, h⟩ := bind_eq_ok.mp h
  have hentry := orRaise_eq_ok.mp hentry
  have hd : DefUse.ofFunction f = .ok d := by
    unfold definitions at hd
    split at hd
    · cases hd
    · exact hd
  have wired := built.wired
  have hvertex := Graph.hasVertex_of_reversePostOrder hreachable
  have hdominators := eq_of_dominators wired hentry hvertex hdominators
  have hreached : ∀ v, v ∈ reachable ↔ ∃ l, c.graph.Way entry v l := fun v => by
    rw [(Graph.reversePostOrder_ok hreachable).2 v, wired.reached_iff]
  obtain ⟨x, hx⟩ : ∃ x : Context, x = ⟨p, f, c, d, dominators, reachable⟩ := ⟨_, rfl⟩
  have hgraph : x.graph = c := by rw [hx]
  have hdefUse : x.defUse = d := by rw [hx]
  have checked : ∀ k b, c.block k = .ok b → b.index = k ∧
      ∃ successors, x.checkFrom b (c.graph.predecessorsOf k) successors 0 false b.instructions = .ok () := by
    intro k b hb
    have hindex := (FlowGraph.addressable_iff.mp addressable k b hb).1
    have hcheck := forM_eq_ok.mp h b (Table.mem_values_of_get? (block_eq_ok.mp hb))
    obtain ⟨predecessors, hpredecessors, hcheck⟩ := bind_eq_ok.mp hcheck
    obtain ⟨successors, -, hcheck⟩ := bind_eq_ok.mp hcheck
    rw [← hindex, Graph.predecessorsOf_of_ok hpredecessors]
    exact ⟨rfl, successors, hx ▸ hcheck⟩
  have available : ∀ {place block k}, x.isAvailable place block k = true → (∃ l, c.graph.Way entry block l) →
      c.Available entry place block k := fun {place block k} hplace hway => by
    subst hx
    exact Context.available_of_isAvailable wired hdominators hreached hplace hway
  refine ⟨d, entry, hbody, built, addressable, hentry, hvertex, hd, fun k b hb => ?_, fun k b n i hb hi hnot v hv => ?_,
    fun k b i dst values hb hi ho v j hv => ?_, fun k b i dst values hb hi ho e he => ?_⟩
  · obtain ⟨-, successors, hcheck⟩ := checked k b hb
    exact (Context.checkFrom_ok hcheck).2.1
  · obtain ⟨hindex, successors, hcheck⟩ := checked k b hb
    have hread := (Context.checkFrom_ok hcheck).2.2.1 n i hi hnot _ hv
    obtain ⟨place, hplace, havailable⟩ := Context.checkRead_ok hread
    rw [hdefUse] at hplace
    rw [hindex, Nat.zero_add] at havailable
    exact ⟨place, hplace, available havailable⟩
  · obtain ⟨-, successors, hcheck⟩ := checked k b hb
    have hincoming := (Context.checkFrom_ok hcheck).2.2.2 i hi dst values ho _ hv
    obtain ⟨place, b', hplace, hb', havailable⟩ := Context.checkIncoming_ok hincoming
    rw [hdefUse] at hplace
    rw [hgraph] at hb'
    exact ⟨place, b', hplace, hb', available havailable⟩
  · obtain ⟨-, successors, hcheck⟩ := checked k b hb
    exact Context.mem_of_checkIncoming ((Context.checkFrom_ok hcheck).2.2.2 i hi dst values ho e he)

theorem Program.verified_of_verify {p : Program} (made : p.Made) (verified : p.verify = .ok ()) {name : String}
    {f : Function} {c : FlowGraph} (hf : p.function? name = some f) (hbody : f.body = some c) :
    ∃ d entry, f.Verified c d entry := by
  have hverify := forM_eq_ok.mp verified f (Table.mem_values_of_get? hf)
  have hdeclared : f.isDeclaration = false := by
    unfold Function.isDeclaration
    rw [hbody]
    rfl
  rw [if_neg (by rw [hdeclared]; exact Bool.false_ne_true)] at hverify
  have made := made.body hf c hbody
  exact verified_of_verifyFunction hbody made.built made.numbered.addressable hverify

end RegionGuard

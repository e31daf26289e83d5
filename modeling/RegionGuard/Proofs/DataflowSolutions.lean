import RegionGuard.Proofs.ConsistentGraphs
set_option autoImplicit false

namespace RegionGuard

namespace DataflowSolution

variable {σ : Type}

inductive Chains (p : DataflowProblem σ) (solution : DataflowSolution σ) (block : Nat) : σ → List Instruction → σ → Prop
  | done {s : σ} : Chains p solution block s [] s
  | next {s t u : σ} {i : Instruction} {rest : List Instruction} :
      solution.stateIn? ⟨block, i.index⟩ = some s → p.transfer ⟨block, i.index⟩ i s = .ok t →
        solution.stateOut? ⟨block, i.index⟩ = some t → Chains p solution block t rest u →
          Chains p solution block s (i :: rest) u

inductive Joins (p : DataflowProblem σ) : List σ → σ → Prop
  | single {s : σ} : Joins p [s] s
  | more {states : List σ} {s t u : σ} : Joins p states s → p.join s t = .ok u → Joins p (states ++ [t]) u

/-- A solution of a problem. The boundary enters the entry and the blocks that control does not get to, and the join
of what leaves the reachable predecessors, in the order of their indices, enters every other block. -/
structure Solves (solution : DataflowSolution σ) (p : DataflowProblem σ) (c : FlowGraph) (entry : Nat) : Prop where
  boundary : ∀ k b, c.block k = .ok b → k = entry ∨ ¬ c.graph.IsReached entry k →
    solution.blockIn? k = some p.boundary
  joined : ∀ k, c.graph.IsReached entry k → k ≠ entry → ∃ sources states s, sources.Pairwise (· < ·) ∧
    (∀ j, j ∈ sources ↔ c.graph.IsReached entry j ∧ (c.graph.edges.get? (j, k)).isSome) ∧
      List.Forall₂ (fun j t => solution.blockOut? j = some t) sources states ∧ Joins p states s ∧
        solution.blockIn? k = some s
  through : ∀ k b, c.block k = .ok b → ∃ s t, solution.blockIn? k = some s ∧
    Chains p solution k s b.instructions t ∧ solution.blockOut? k = some t

variable {p : DataflowProblem σ} {solution solution' : DataflowSolution σ} {block : Nat}

theorem Chains.congr {s u : σ} {l : List Instruction} (h : Chains p solution block s l u)
    (hin : ∀ i ∈ l, solution'.stateIn? ⟨block, i.index⟩ = solution.stateIn? ⟨block, i.index⟩)
    (hout : ∀ i ∈ l, solution'.stateOut? ⟨block, i.index⟩ = solution.stateOut? ⟨block, i.index⟩) :
    Chains p solution' block s l u := by
  induction h with
  | done => exact .done
  | next hs ht hout' _ ih =>
    exact .next ((hin _ List.mem_cons_self).trans hs) ht ((hout _ List.mem_cons_self).trans hout')
      (ih (fun i hi => hin i (List.mem_cons_of_mem _ hi)) fun i hi => hout i (List.mem_cons_of_mem _ hi))

structure SameBut (solution solution' : DataflowSolution σ) (block : Nat) : Prop where
  blockIn : ∀ k, k ≠ block → solution'.blockIn? k = solution.blockIn? k
  blockOut : ∀ k, k ≠ block → solution'.blockOut? k = solution.blockOut? k
  stateIn : ∀ l : Location, l.block ≠ block → solution'.stateIn? l = solution.stateIn? l
  stateOut : ∀ l : Location, l.block ≠ block → solution'.stateOut? l = solution.stateOut? l

end DataflowSolution

namespace DataflowProblem

open DataflowSolution

variable {σ : Type} {p : DataflowProblem σ} {c : FlowGraph} {entry : Nat} {order : List Nat} {ends : Table Nat σ}

section Recording

variable {solution solution' : DataflowSolution σ} {s t : σ}

theorem chains_of_recordNext {block : Nat} {l : List Instruction} (hdistinct : (l.map (·.index)).Nodup)
    (h : l.foldlM (p.recordNext block) (s, solution) = .ok (t, solution')) :
    Chains p solution' block s l t ∧ l.foldlM (fun s i => p.transfer ⟨block, i.index⟩ i s) s = .ok t ∧
      solution'.blockIn = solution.blockIn ∧ solution'.blockOut = solution.blockOut ∧
      ∀ x : Location, (∀ i ∈ l, x ≠ ⟨block, i.index⟩) →
        solution'.stateIn? x = solution.stateIn? x ∧ solution'.stateOut? x = solution.stateOut? x := by
  induction l generalizing s solution with
  | nil =>
    cases h
    exact ⟨.done, rfl, rfl, rfl, fun _ _ => ⟨rfl, rfl⟩⟩
  | cons i rest ih =>
    obtain ⟨hfresh, hdistinct⟩ := List.nodup_cons.mp hdistinct
    rw [List.foldlM_cons] at h
    obtain ⟨⟨s₁, solution₁⟩, hfirst, h⟩ := bind_eq_ok.mp h
    obtain ⟨_, hs₁, hfirst⟩ := bind_eq_ok.mp hfirst
    cases hfirst
    obtain ⟨hchains, hfold, hblockIn, hblockOut, hkept⟩ := ih hdistinct h
    obtain ⟨hin, hout⟩ := hkept ⟨block, i.index⟩ fun j hj heq =>
      hfresh (List.mem_map.mpr ⟨j, hj, (congrArg Location.instruction heq).symm⟩)
    refine ⟨.next (hin.trans (Table.get?_insert_self ..)) hs₁ (hout.trans (Table.get?_insert_self ..)) hchains, ?_,
      hblockIn, hblockOut, fun x hx => ?_⟩
    · rw [List.foldlM_cons, hs₁]
      exact hfold
    · obtain ⟨hin, hout⟩ := hkept x fun j hj => hx j (List.mem_cons_of_mem i hj)
      have hne : (x.block, x.instruction) ≠ (block, i.index) := fun heq =>
        hx i List.mem_cons_self (by rw [← (Prod.mk.inj heq).1, ← (Prod.mk.inj heq).2])
      exact ⟨hin.trans (Table.get?_insert_of_ne _ hne _), hout.trans (Table.get?_insert_of_ne _ hne _)⟩

theorem chains_of_record {b : Block} (hb : (b.instructions.map (·.index)).Nodup) (h : p.record solution b s = .ok solution') :
    solution'.blockIn? b.index = some s ∧
      (∃ t, Chains p solution' b.index s b.instructions t ∧ p.throughBlock b s = .ok t ∧
        solution'.blockOut? b.index = some t) ∧ SameBut solution solution' b.index := by
  rw [record_eq] at h
  obtain ⟨⟨t, solution₁⟩, hfold, h⟩ := bind_eq_ok.mp h
  cases h
  obtain ⟨hchains, hthrough, hblockIn, hblockOut, hkept⟩ := chains_of_recordNext hb hfold
  refine ⟨?_, ⟨t, hchains.congr (fun _ _ => rfl) fun _ _ => rfl, hthrough, Table.get?_insert_self ..⟩, ?_⟩
  · exact (congrArg (Table.get? · b.index) hblockIn).trans (Table.get?_insert_self ..)
  · refine ⟨fun k hk => ?_, fun k hk => ?_, fun l hl => ?_, fun l hl => ?_⟩
    · exact (congrArg (Table.get? · k) hblockIn).trans (Table.get?_insert_of_ne _ hk _)
    · exact (Table.get?_insert_of_ne _ hk _).trans (congrArg (Table.get? · k) hblockOut)
    · exact (hkept l fun i _ heq => hl (congrArg Location.block heq)).1
    · exact (hkept l fun i _ heq => hl (congrArg Location.block heq)).2

/-- What is written down about one block after another. -/
theorem chains_of_records {blocks : List Block} (hnumbers : ∀ b ∈ blocks, (b.instructions.map (·.index)).Nodup)
    (hdistinct : (blocks.map Block.index).Nodup)
    (h : blocks.foldlM (fun solution b => do
      let s ← p.entering c entry order ends b.index
      p.record solution b s) solution = .ok solution') :
    (∀ b ∈ blocks, ∃ s t, p.entering c entry order ends b.index = .ok s ∧ solution'.blockIn? b.index = some s ∧
      Chains p solution' b.index s b.instructions t ∧ p.throughBlock b s = .ok t ∧
        solution'.blockOut? b.index = some t) ∧
      ∀ k, (∀ b ∈ blocks, k ≠ b.index) → solution'.blockIn? k = solution.blockIn? k ∧
        solution'.blockOut? k = solution.blockOut? k ∧ ∀ l : Location, l.block = k →
          solution'.stateIn? l = solution.stateIn? l ∧ solution'.stateOut? l = solution.stateOut? l := by
  induction blocks generalizing solution with
  | nil =>
    cases h
    exact ⟨fun b hb => (List.not_mem_nil hb).elim, fun _ _ => ⟨rfl, rfl, fun _ _ => ⟨rfl, rfl⟩⟩⟩
  | cons b rest ih =>
    obtain ⟨hfresh, hdistinct⟩ := List.nodup_cons.mp hdistinct
    rw [List.foldlM_cons] at h
    obtain ⟨solution₁, hfirst, h⟩ := bind_eq_ok.mp h
    obtain ⟨s, hs, hfirst⟩ := bind_eq_ok.mp hfirst
    obtain ⟨hin, ⟨t, hchains, hthrough, hout⟩, hsame⟩ := chains_of_record (hnumbers b List.mem_cons_self) hfirst
    obtain ⟨hrest, hkept⟩ := ih (fun b' hb' => hnumbers b' (List.mem_cons_of_mem b hb')) hdistinct h
    refine ⟨fun b' hb' => ?_, fun k hk => ?_⟩
    · rcases List.mem_cons.mp hb' with rfl | hb'
      · obtain ⟨hin', hout', hstates⟩ := hkept b'.index fun b'' hb'' heq =>
          hfresh (List.mem_map.mpr ⟨b'', hb'', heq.symm⟩)
        exact ⟨s, t, hs, hin'.trans hin, hchains.congr (fun i _ => (hstates _ rfl).1) fun i _ => (hstates _ rfl).2,
          hthrough, hout'.trans hout⟩
      · exact hrest b' hb'
    · have hne := hk b List.mem_cons_self
      obtain ⟨hin', hout', hstates⟩ := hkept k fun b' hb' => hk b' (List.mem_cons_of_mem b hb')
      refine ⟨hin'.trans (hsame.blockIn k hne), hout'.trans (hsame.blockOut k hne), fun l hl => ?_⟩
      exact ⟨(hstates l hl).1.trans (hsame.stateIn l (hl ▸ hne)), (hstates l hl).2.trans (hsame.stateOut l (hl ▸ hne))⟩

end Recording

theorem joins_of_foldlM {blocks : List Nat} {states : List σ} {s : σ} {u? : Option σ} (hs : Joins p states s)
    (h : blocks.foldlM (p.joinNext ends) (some s) = .ok u?) :
    ∃ more u, List.Forall₂ (fun b t => ends.get? b = some t) blocks more ∧ u? = some u ∧ Joins p (states ++ more) u := by
  induction blocks generalizing states s with
  | nil =>
    cases h
    exact ⟨[], s, .nil, rfl, (List.append_nil states).symm ▸ hs⟩
  | cons b rest ih =>
    rw [List.foldlM_cons] at h
    obtain ⟨s?, hnext, h⟩ := bind_eq_ok.mp h
    obtain ⟨t, ht, hnext⟩ := bind_eq_ok.mp hnext
    obtain ⟨u, hu, hnext⟩ := bind_eq_ok.mp (show (p.join s t >>= _) = _ from hnext)
    cases hnext
    obtain ⟨more, v, hmore, rfl, hv⟩ := ih (hs.more hu) h
    exact ⟨t :: more, v, .cons (orStop_eq_ok.mp ht) hmore, rfl, by rwa [List.append_assoc] at hv⟩

theorem joins_of_joinEnds {blocks : List Nat} (hne : blocks ≠ []) {u? : Option σ} (h : p.joinEnds ends blocks = .ok u?) :
    ∃ states u, List.Forall₂ (fun b t => ends.get? b = some t) blocks states ∧ u? = some u ∧ Joins p states u := by
  cases blocks with
  | nil => exact absurd rfl hne
  | cons b rest =>
    rw [joinEnds_eq, List.foldlM_cons] at h
    obtain ⟨s?, hnext, h⟩ := bind_eq_ok.mp h
    obtain ⟨t, ht, hnext⟩ := bind_eq_ok.mp hnext
    cases hnext
    obtain ⟨more, u, hmore, hu, hjoins⟩ := joins_of_foldlM .single h
    exact ⟨t :: more, u, .cons (orStop_eq_ok.mp ht) hmore, hu, hjoins⟩

theorem blocks_of_addressable (addressable : c.Addressable) :
    (∀ b ∈ c.blocks, c.block b.index = .ok b ∧ (b.instructions.map (·.index)).Nodup) ∧
      (c.blocks.map Block.index).Nodup := by
  constructor
  · intro b hb
    obtain ⟨k, hk⟩ := Table.mem_values_iff.mp hb
    obtain ⟨hindex, hnumbers⟩ := FlowGraph.addressable_iff.mp addressable k b (FlowGraph.block_eq_ok.mpr hk)
    exact ⟨hindex ▸ FlowGraph.block_eq_ok.mpr hk, hnumbers⟩
  · have hkeys : c.blocks.map Block.index = c.graph.vertices.keys := by
      unfold FlowGraph.blocks Table.values Table.keys
      rw [List.map_map]
      exact List.map_congr_left fun e he => (addressable e he).1
    exact hkeys ▸ Table.nodup_keys _

theorem exists_predecessor {k : Nat} (hk : c.graph.IsReached entry k) (hne : k ≠ entry) :
    ∃ j, c.graph.IsReached entry j ∧ (c.graph.edges.get? (j, k)).isSome := by
  obtain ⟨l, hl⟩ := hk
  cases hl with
  | start => exact absurd rfl hne
  | follow hl hedge => exact ⟨_, ⟨_, hl⟩, hedge⟩

theorem solves_of_solve [DecidableEq σ] (hwired : c.graph.Wired) (addressable : c.Addressable)
    (starts : c.entry = some entry) {solution : DataflowSolution σ} (h : p.solve c = .ok solution) :
    solution.Solves p c entry := by
  obtain ⟨entry', hentry, h⟩ := bind_eq_ok.mp h
  cases starts.symm.trans (orRaise_eq_ok.mp hentry)
  obtain ⟨order, horder, h⟩ := bind_eq_ok.mp h
  obtain ⟨ends, hends, h⟩ := bind_eq_ok.mp h
  have hmem : ∀ k, k ∈ order ↔ c.graph.IsReached entry k := fun k =>
    ((Graph.reversePostOrder_ok horder).2 k).trans hwired.reached_iff.symm
  obtain ⟨hblocks, hdistinct⟩ := blocks_of_addressable addressable
  have hrecords := (chains_of_records (fun b hb => (hblocks b hb).2) hdistinct h).1
  have hrecorded : ∀ k b, c.block k = .ok b → ∃ s t, p.entering c entry order ends k = .ok s ∧
      solution.blockIn? k = some s ∧ Chains p solution k s b.instructions t ∧ p.throughBlock b s = .ok t ∧
        solution.blockOut? k = some t := fun k b hb => by
    have hindex := (FlowGraph.addressable_iff.mp addressable k b hb).1
    exact hindex ▸ hrecords b (Table.mem_values_of_get? (FlowGraph.block_eq_ok.mp hb))
  have hvertex : ∀ k ∈ order, ∃ b, c.block k = .ok b := fun k hk => by
    obtain ⟨b, hb⟩ := Option.isSome_iff_exists.mp (hwired.vertex_of_reaches
      (Graph.hasVertex_of_reversePostOrder horder) (((Graph.reversePostOrder_ok horder).2 k).mp hk))
    exact ⟨b, FlowGraph.block_eq_ok.mpr hb⟩
  -- The states that are written down at the ends of blocks within reach are those that the visits came to.
  have hsettled : ∀ k ∈ order, solution.blockOut? k = ends.get? k := fun k hk => by
    obtain ⟨b, hb⟩ := hvertex k hk
    obtain ⟨s, t, hs, -, -, ht, hout⟩ := hrecorded k b hb
    obtain ⟨t', ht', hend⟩ := settled_of_iterate hwired (fun _ hb => hb) hends k hk
    unfold ending at ht'
    rw [hs, hb] at ht'
    cases ht.symm.trans ht'
    exact hout.trans hend.symm
  refine ⟨fun k b hb hout => ?_, fun k hk hne => ?_, fun k b hb => ?_⟩
  · obtain ⟨s, t, hs, hin, -⟩ := hrecorded k b hb
    unfold entering at hs
    rw [if_pos (hout.imp_right fun hnot hk => hnot ((hmem k).mp hk))] at hs
    cases hs
    exact hin
  · have hk' := (hmem k).mpr hk
    obtain ⟨b, hb⟩ := hvertex k hk'
    obtain ⟨s, t, hs, hin, -⟩ := hrecorded k b hb
    unfold entering at hs
    rw [if_neg (by simp [hne, hk'])] at hs
    obtain ⟨predecessors, hpredecessors, hs⟩ := bind_eq_ok.mp hs
    obtain ⟨u?, hu, hs⟩ := bind_eq_ok.mp hs
    have hsources : ∀ j, j ∈ predecessors.filter order.contains ↔
        c.graph.IsReached entry j ∧ (c.graph.edges.get? (j, k)).isSome := fun j => by
      rw [List.mem_filter, List.contains_iff_mem, hmem, ← hwired.predecessors,
        Graph.predecessorsOf_of_ok hpredecessors, and_comm]
    obtain ⟨j, hj⟩ := exists_predecessor hk hne
    obtain ⟨states, u, hstates, rfl, hjoins⟩ := joins_of_joinEnds (List.ne_nil_of_mem ((hsources j).mpr hj)) hu
    cases hs
    refine ⟨_, states, u, ?_, hsources, ?_, hjoins, hin⟩
    · obtain ⟨keys, -, rfl⟩ := Option.map_eq_some_iff.mp (orRaise_eq_ok.mp hpredecessors)
      exact (List.pairwise_map.mpr (keys.sorted.imp Nat.compare_eq_lt.mp)).filter _
    · have hwithin : ∀ j ∈ predecessors.filter order.contains, j ∈ order := fun j hj =>
        List.contains_iff_mem.mp (List.mem_filter.mp hj).2
      exact ((List.forall₂_and_left _ _).mpr ⟨hwithin, hstates⟩).imp fun j t h => (hsettled j h.1).trans h.2
  · obtain ⟨s, t, -, hin, hchains, -, hout⟩ := hrecorded k b hb
    exact ⟨s, t, hin, hchains, hout⟩

end DataflowProblem

end RegionGuard

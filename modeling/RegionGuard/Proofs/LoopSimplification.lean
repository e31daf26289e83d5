import Mathlib.Algebra.Order.BigOperators.Group.List
import Mathlib.Data.List.Perm.Subperm
import RegionGuard.Proofs.Constructions
import RegionGuard.Proofs.PreheaderRounds
import RegionGuard.Proofs.SteadyEdits
set_option autoImplicit false

namespace RegionGuard

open RegionGuard.Graph FlowGraph Edit

variable {E : Prop}

namespace Block

variable {b : Block}

theorem delivers_insertWith {position : Nat} (make : Nat → Instruction) (hposition : position ≤ b.instructions.length)
    (h : Word.modulus ≤ b.nextIndex + 1 → E) :
    Outcome.Delivers E (fun b' => b'.nextIndex = b.nextIndex + 1) (b.insertWith position make) := by
  unfold insertWith
  rw [if_neg (Nat.not_lt.mpr hposition)]
  exact (Outcome.Delivers.successor h).proceed fun next _ hnext => .answer hnext

theorem exists_modify {index : Nat} {f : Instruction → Instruction} (hindex : ∀ i, (f i).index = i.index)
    (h : index ∈ b.instructions.map (·.index)) : ∃ b', b.modify index f = .ok b' ∧
      b'.instructions.map (·.index) = b.instructions.map (·.index) := by
  obtain ⟨i, hi, rfl⟩ := List.mem_map.mp h
  have hsome : (b.position? i.index).isSome := List.findIdx?_isSome.trans (List.any_eq_true.mpr ⟨i, hi, by simp⟩)
  obtain ⟨position, hposition⟩ := Option.isSome_iff_exists.mp hsome
  refine ⟨_, bind_eq_ok.mpr ⟨position, orRaise_eq_ok.mpr hposition, rfl⟩, List.ext_getElem? fun n => ?_⟩
  simp only [List.getElem?_map, List.getElem?_modify]
  cases b.instructions[n]? with
  | none => rfl
  | some j =>
    refine congrArg some ?_
    dsimp only
    split
    · exact hindex j
    · rfl

theorem firstNonPhi_le (b : Block) : b.firstNonPhi ≤ b.instructions.length := by
  unfold firstNonPhi
  exact (List.takeWhile_sublist _).length_le

end Block

namespace FlowGraph

variable {c c' : FlowGraph}

def numbersAt (c : FlowGraph) (k : Nat) : List Nat :=
  match c.block k with
  | .ok b => b.instructions.map (·.index)
  | .error _ => []

theorem numbersAt_of_block {k : Nat} {b : Block} (hb : c.block k = .ok b) :
    c.numbersAt k = b.instructions.map (·.index) := by
  unfold numbersAt
  rw [hb]

theorem numbersAt_congr {k : Nat} (h : c'.block k = c.block k) : c'.numbersAt k = c.numbersAt k := by
  unfold numbersAt
  rw [h]

theorem exists_block_of_mem_numbersAt {k n : Nat} (h : n ∈ c.numbersAt k) : ∃ b, c.block k = .ok b := by
  unfold numbersAt at h
  split at h
  · exact ⟨_, ‹_›⟩
  · cases h

theorem sum_length_numbersAt (c : FlowGraph) : (c.graph.vertices.keys.map fun k => (c.numbersAt k).length).sum =
    (c.blocks.map (·.instructions.length)).sum := by
  unfold Table.keys blocks Table.values
  rw [List.map_map, List.map_map]
  refine congrArg List.sum (List.map_congr_left fun e he => ?_)
  have hb : c.block e.1 = .ok e.2 := block_eq_ok.mpr ((Table.get?_eq_some_iff _ _ _).mpr he)
  exact (congrArg List.length (numbersAt_of_block hb)).trans (List.length_map _)

theorem delivers_newBlock (hfresh : c.graph.vertices.get? c.nextBlock = none) (h : Word.modulus ≤ c.nextBlock + 1 → E) :
    Outcome.Delivers E (fun _ => True) ((eval FlowGraph.newBlock).run c) := by
  obtain ⟨g, hg⟩ := exists_insertVertex (x := Block.make c.nextBlock) hfresh
  refine delivers_eval ((Outcome.Delivers.successor h).proceed fun next _ _ => ?_)
  exact .of_ok (bind_eq_ok.mpr ⟨g, hg, rfl⟩) trivial

theorem delivers_temp (ty : Ty) (h : Word.modulus ≤ c.nextTemp + 1 → E) :
    Outcome.Delivers E (fun r => r.2 = c.withTemps (c.nextTemp + 1)) ((eval (·.temp ty)).run c) := by
  refine delivers_eval ((Outcome.Delivers.successor h).proceed fun next _ hnext => .answer ?_)
  rw [hnext]
  rfl

theorem delivers_modifyBlock {k : Nat} {b : Block} {f : Block → Outcome Block} {Q : Block → Prop} (hb : c.block k = .ok b)
    (hf : Outcome.Delivers E Q (f b)) : Outcome.Delivers E
      (fun r => ∃ b', Q b' ∧ r.2 = { c with graph := c.graph.setVertex k b' }) ((step (·.modifyBlock k f)).run c) := by
  refine delivers_step (P := fun c' => ∃ b', Q b' ∧ c' = { c with graph := c.graph.setVertex k b' }) ?_
  unfold modifyBlock
  rw [hb]
  exact hf.proceed fun b' _ hb' => .answer ⟨b', hb', rfl⟩

structure Primed (root : Nat) (c : FlowGraph) : Prop where
  wired : c.graph.Wired
  entry : c.entry = some root
  vertex : c.graph.hasVertex root = true
  bounded : ∀ k, (c.graph.vertices.get? k).isSome → k < c.nextBlock

theorem Primed.fresh {root : Nat} (hc : c.Primed root) : c.graph.vertices.get? c.nextBlock = none :=
  Option.not_isSome_iff_eq_none.mp fun h => Nat.lt_irrefl _ (hc.bounded _ h)

theorem Primed.edges_fresh {root : Nat} (hc : c.Primed root) (v : Nat) :
    c.graph.edges.get? (c.nextBlock, v) = none ∧ c.graph.edges.get? (v, c.nextBlock) = none := by
  have habsent : ¬ (c.graph.vertices.get? c.nextBlock).isSome := by
    rw [hc.fresh]
    exact Bool.false_ne_true
  exact ⟨Option.not_isSome_iff_eq_none.mp fun h => habsent (hc.wired.ends _ _ h).1,
    Option.not_isSome_iff_eq_none.mp fun h => habsent (hc.wired.ends _ _ h).2⟩

theorem Primed.keys_insert {root : Nat} (hc : c.Primed root) (b : Block) :
    (c.graph.vertices.insert c.nextBlock b).keys = c.graph.vertices.keys ++ [c.nextBlock] := by
  have hlast : ∀ e ∈ c.graph.vertices.entries, compare c.nextBlock e.1 = .gt := fun e he =>
    Nat.compare_eq_gt.mpr (hc.bounded e.1 (Table.mem_keys_iff.mp (List.mem_map_of_mem he)))
  change (Table.insertEntry c.nextBlock b c.graph.vertices.entries).map (·.1) = _
  rw [Table.insertEntry_of_gt hlast, List.map_append]
  rfl

end FlowGraph

namespace Preheader

variable {c c' c₀ : FlowGraph} {root header preheader : Nat}

/-- Edges from some blocks to an old one may be led to a new one: they are there, and none leads there yet. -/
structure Movable (old new : Nat) (heads : List Nat) (c : FlowGraph) : Prop where
  wired : c.graph.Wired
  target : c.graph.hasVertex new = true
  distinct : heads.Nodup
  had : ∀ v ∈ heads, (c.graph.edges.get? (v, old)).isSome
  free : ∀ v ∈ heads, c.graph.edges.get? (v, new) = none

theorem delivers_redirect {old new : Nat} (hne : old ≠ new) (v : Nat) (rest : List Nat) (c : FlowGraph)
    (hc : Movable old new (v :: rest) c) :
    Outcome.Delivers E (fun r => Movable old new rest r.2) ((redirect v old new).run c) := by
  obtain ⟨e, he⟩ := Option.isSome_iff_exists.mp (hc.had v List.mem_cons_self)
  obtain ⟨g₀, hremove⟩ : ∃ g₀, c.graph.removeEdge v old = .ok (e, g₀) :=
    ⟨_, bind_eq_ok.mpr ⟨e, orRaise_eq_ok.mpr he, rfl⟩⟩
  have hg₀ := (removeEdge_ok hremove).2
  obtain ⟨g, hinsert⟩ : ∃ g, g₀.insertEdge { e with head := v, tail := new } = .ok g := by
    rw [hg₀]
    refine exists_insertEdge ?_ (hc.wired.ends v old (hc.had v List.mem_cons_self)).1 hc.target
    change (c.graph.edges.erase (v, old)).get? (v, new) = none
    rw [Table.get?_erase, hc.free v List.mem_cons_self, ite_self]
  have hrun : (redirect v old new).run c = .ok ((), { c with graph := g }) := by
    rw [redirect_eq]
    exact step_ok.mpr (bind_eq_ok.mpr ⟨_, hremove, bind_eq_ok.mpr ⟨g, hinsert, rfl⟩⟩)
  have redirected := redirect_ok hne hrun
  have hnodup := List.nodup_cons.mp hc.distinct
  have hsame : ∀ w ∈ rest, ∀ x, g.edges.get? (w, x) = c.graph.edges.get? (w, x) := fun w hw x =>
    redirected.others w x fun h => hnodup.1 (List.mem_singleton.mp h.1 ▸ hw)
  refine .of_ok hrun ⟨wires_redirect _ _ _ _ _ _ hc.wired hrun, ?_, hnodup.2, fun w hw => ?_, fun w hw => ?_⟩
  · unfold hasVertex
    rw [redirected.vertices]
    exact hc.target
  · rw [hsame w hw]
    exact hc.had w (List.mem_cons_of_mem v hw)
  · rw [hsame w hw]
    exact hc.free w (List.mem_cons_of_mem v hw)

theorem delivers_redirects {old new : Nat} (hne : old ≠ new) {heads : List Nat} (hc : Movable old new heads c) :
    Outcome.Delivers E (fun r => Redirected heads old new c r.2) ((heads.forM fun v => redirect v old new).run c) :=
  (delivers_forM (delivers_redirect hne) hc).mono fun _ hrun _ => redirected_forM hne hrun

theorem Redirected.exists_insertEdge {old new : Nat} {heads : List Nat} (h : Redirected heads old new c c')
    (hold : c.graph.hasVertex old = true) (hnew : c.graph.hasVertex new = true)
    (hfree : c.graph.edges.get? (new, old) = none) : ∃ g, c'.graph.insertEdge (.make new old none) = .ok g := by
  have hhead : new ∉ heads := fun hmem => by
    have hhad := h.had new hmem
    rw [hfree] at hhad
    cases hhad
  have hvertex : ∀ v, c'.graph.hasVertex v = c.graph.hasVertex v := fun v =>
    congrArg (fun t : Table Nat Block => t.contains v) h.vertices
  exact Graph.exists_insertEdge ((h.others new old fun h => hhead h.1).trans hfree) ((hvertex new).trans hnew)
    ((hvertex old).trans hold)

/-- A graph while at most `n` phis are still made to take from a preheader. -/
structure Rerouting (header preheader : Nat) (c₀ : FlowGraph) (n : Nat) (c : FlowGraph) : Prop where
  next : c.nextBlock = c₀.nextBlock
  vertices : ∀ j, (c.graph.vertices.get? j).isSome = (c₀.graph.vertices.get? j).isSome
  numbers : ∀ j, j ≠ preheader → c.numbersAt j = c₀.numbersAt j
  front : ∃ p, c.block preheader = .ok p ∧ p.nextIndex ≤ c.nextTemp
  room : c.nextTemp + n ≤ c₀.nextTemp + (c₀.numbersAt header).length

theorem Rerouting.skip {n : Nat} (h : Rerouting header preheader c₀ (n + 1) c) : Rerouting header preheader c₀ n c :=
  { h with room := Nat.le_of_succ_le h.room }

/-- A block may change as long as its numbers stay, the preheader as long as it has no more of them than there are
temporaries. -/
theorem Rerouting.setVertex {n k : Nat} (h : Rerouting header preheader c₀ n c) {b b' : Block} (hb : c.block k = .ok b)
    (hnumbers : k ≠ preheader → b'.instructions.map (·.index) = b.instructions.map (·.index))
    (hfront : k = preheader → b'.nextIndex ≤ c.nextTemp) :
    Rerouting header preheader c₀ n { c with graph := c.graph.setVertex k b' } := by
  refine ⟨h.next, fun j => ?_, fun j hj => ?_, ?_, h.room⟩
  · rw [← h.vertices]
    change ((c.graph.vertices.insert k b').get? j).isSome = _
    rw [Table.get?_insert]
    split
    · rename_i hjk
      rw [hjk, block_eq_ok.mp hb]
      rfl
    · rfl
  · rw [← h.numbers j hj]
    by_cases hjk : j = k
    · subst hjk
      rw [numbersAt_of_block hb, ← hnumbers hj]
      exact numbersAt_of_block ((block_setVertex c j j b').trans (if_pos rfl))
    · exact numbersAt_congr ((block_setVertex c k j b').trans (if_neg hjk))
  · obtain ⟨p, hp, hle⟩ := h.front
    by_cases hk : preheader = k
    · exact ⟨b', (block_setVertex c k preheader b').trans (if_pos hk), hfront hk.symm⟩
    · exact ⟨p, (block_setVertex c k preheader b').trans ((if_neg hk).trans hp), hle⟩

theorem Rerouting.temp {n : Nat} (h : Rerouting header preheader c₀ (n + 1) c) :
    Rerouting header preheader c₀ n (c.withTemps (c.nextTemp + 1)) := by
  obtain ⟨p, hp, hle⟩ := h.front
  refine ⟨h.next, h.vertices, h.numbers, ⟨p, hp, Nat.le_succ_of_le hle⟩, ?_⟩
  have := h.room
  change c.nextTemp + 1 + n ≤ _
  omega

section Overflow

variable (htemps : Word.modulus ≤ c₀.nextTemp + (c₀.numbersAt header).length → E)
include htemps

theorem delivers_merge {n : Nat} (h : Rerouting header preheader c₀ (n + 1) c) (dst : Variable)
    (arriving : List (Value × Nat)) :
    Outcome.Delivers E (fun r => Rerouting header preheader c₀ n r.2) ((merge preheader dst arriving).run c) := by
  have hroom := h.room
  unfold merge
  split
  · exact .answer h.skip
  · refine delivers_bind (delivers_temp dst.ty fun hmodulus => htemps (by omega)) fun temp c₁ _ hc₁ => ?_
    subst hc₁
    obtain ⟨p, hp, hle⟩ := h.front
    have hinsert := Block.delivers_insertWith (E := E) (.make · (.phi temp arriving)) p.firstNonPhi_le
      fun hmodulus => htemps (by omega)
    refine delivers_bind (delivers_modifyBlock (c := c.withTemps (c.nextTemp + 1)) hp hinsert) fun _ c₂ _ hc₂ => ?_
    obtain ⟨p', hp', rfl⟩ := hc₂
    refine .answer (h.temp.setVertex hp (fun hne => absurd rfl hne) fun _ => ?_)
    rw [hp']
    exact Nat.succ_le_succ hle

theorem delivers_reroute (hne : header ≠ preheader) (outside : List Nat) {n : Nat} {i : Instruction}
    (hi : i.index ∈ c₀.numbersAt header) (h : Rerouting header preheader c₀ (n + 1) c) :
    Outcome.Delivers E (fun r => Rerouting header preheader c₀ n r.2) ((reroute header preheader outside i).run c) := by
  unfold reroute
  split
  · dsimp only
    split
    · exact .answer h.skip
    · refine delivers_bind (delivers_merge htemps h _ _) fun merged c₁ _ h₁ => ?_
      have hnumbers := h₁.numbers header hne
      rw [← hnumbers] at hi
      obtain ⟨b, hb⟩ := exists_block_of_mem_numbersAt hi
      rw [numbersAt_of_block hb] at hi
      obtain ⟨b', hb', hsame⟩ := Block.exists_modify (setIncoming_index _) hi
      refine (delivers_modifyBlock (Q := fun b' => b'.instructions.map (·.index) = b.instructions.map (·.index)) hb
        (.of_ok hb' hsame)).mono fun r _ hr => ?_
      obtain ⟨b'', hsame, hr⟩ := hr
      rw [hr]
      exact h₁.setVertex hb (fun _ => hsame) fun heq => absurd heq hne
  · exact .answer h.skip

theorem delivers_reroutes (hne : header ≠ preheader) (outside : List Nat) {b : Block} (hb : c₀.block header = .ok b)
    (hfront : c₀.block preheader = .ok (.make preheader)) :
    Outcome.Delivers E (fun r => Rerouting header preheader c₀ 0 r.2)
      ((b.instructions.forM fun i => reroute header preheader outside i).run c₀) := by
  have hnumbers := numbersAt_of_block hb
  refine (delivers_forM (I := fun l c => l ⊆ b.instructions ∧ Rerouting header preheader c₀ l.length c) ?_
    ⟨List.Subset.refl _, rfl, fun _ => rfl, fun _ _ => rfl, ⟨_, hfront, Nat.zero_le _⟩, ?_⟩).mono fun r _ h => h.2
  · rintro i rest c ⟨hsubset, h⟩
    obtain ⟨hi, hrest⟩ := List.cons_subset.mp hsubset
    exact (delivers_reroute htemps hne outside (hnumbers ▸ List.mem_map_of_mem hi) h).mono fun r _ h => ⟨hrest, h⟩
  · rw [hnumbers, List.length_map]

end Overflow

structure Grown (header : Nat) (c c' : FlowGraph) : Prop where
  keys : c'.graph.vertices.keys = c.graph.vertices.keys ++ [c.nextBlock]
  next : c'.nextBlock = c.nextBlock + 1
  temps : c'.nextTemp ≤ c.nextTemp + (c.numbersAt header).length
  numbers : ∀ j, j ≠ c.nextBlock → c'.numbersAt j = c.numbersAt j

theorem delivers_insert (hc : c.Primed root) {outside : List Nat} (distinct : outside.Nodup)
    (hheader : (c.graph.vertices.get? header).isSome) (hedges : ∀ v ∈ outside, (c.graph.edges.get? (v, header)).isSome)
    (hblocks : Word.modulus ≤ c.nextBlock + 1 → E)
    (htemps : Word.modulus ≤ c.nextTemp + (c.numbersAt header).length → E) :
    Outcome.Delivers E (fun r => Grown header c r.2) ((insert header outside).run c) := by
  have hne : header ≠ c.nextBlock := Nat.ne_of_lt (hc.bounded header hheader)
  obtain ⟨b, hb⟩ := Option.isSome_iff_exists.mp hheader
  refine delivers_bind (delivers_newBlock hc.fresh hblocks) fun new c₁ hnew _ => ?_
  have wired₁ := wires_newBlock c new c₁ hc.wired hnew
  have hnew := eval_ok.mp hnew
  obtain ⟨rfl, hnext₁, -, htemps₁, hvertex⟩ := newBlock_ok hnew
  have hedges₁ := edges_newBlock hnew
  obtain ⟨hfront₁, hblock₁⟩ := block_newBlock hnew
  have hvertex₁ : c₁.graph.hasVertex c.nextBlock = true := Option.isSome_iff_exists.mpr ⟨_, block_eq_ok.mp hfront₁⟩
  have hheader₁ : c₁.block header = .ok b := (hblock₁ header hne).trans (block_eq_ok.mpr hb)
  have movable : Movable header c.nextBlock outside c₁ :=
    ⟨wired₁, hvertex₁, distinct, fun v hv => hedges₁ ▸ hedges v hv, fun v _ => hedges₁ ▸ (hc.edges_fresh v).2⟩
  -- Nothing leads to the new block yet, so every edge can be moved there.
  refine delivers_bind (Q := fun r => Redirected outside header c.nextBlock c₁ r.2)
    (forIn_eq_forM outside _ ▸ delivers_redirects hne movable) fun _ c₂ _ redirected => ?_
  have redirected : Redirected outside header c.nextBlock c₁ c₂ := redirected
  obtain ⟨g, hinsert⟩ := redirected.exists_insertEdge (Option.isSome_iff_exists.mpr ⟨b, block_eq_ok.mp hheader₁⟩) hvertex₁
    (hedges₁ ▸ (hc.edges_fresh header).1)
  refine delivers_bind (delivers_step (P := fun c₃ => c₃ = { c₂ with graph := g })
    (.of_ok (bind_eq_ok.mpr ⟨g, hinsert, rfl⟩) rfl)) fun _ c₃ _ hc₃ => ?_
  have hc₃ : c₃ = { c₁ with graph := g } := by
    rw [redirected.fields] at hc₃
    exact hc₃
  have hvertices₃ : c₃.graph.vertices = c₁.graph.vertices := by
    rw [hc₃]
    exact (vertices_of_insertEdge hinsert).trans redirected.vertices
  have hblock₃ : ∀ j, c₃.block j = c₁.block j := fun j =>
    congrArg (Failure.orRaise · _) (congrArg (Table.get? · j) hvertices₃)
  have htemps₃ : c₃.nextTemp = c.nextTemp := hc₃ ▸ htemps₁
  have hnumbers₃ : ∀ j, j ≠ c.nextBlock → c₃.numbersAt j = c.numbersAt j := fun j hj =>
    numbersAt_congr ((hblock₃ j).trans (hblock₁ j hj))
  -- The edges have changed so far, but not the blocks.
  refine delivers_ask_bind ((hblock₃ header).trans hheader₁)
    (delivers_bind (Q := fun r => Rerouting header c.nextBlock c₃ 0 r.2) ?_ fun _ c₄ _ h => ?_)
  · rw [forIn_eq_forM]
    refine delivers_reroutes (fun hmodulus => htemps ?_) hne outside ((hblock₃ header).trans hheader₁)
      ((hblock₃ _).trans hfront₁)
    rwa [htemps₃, hnumbers₃ header hne] at hmodulus
  · have hroom := h.room
    rw [htemps₃, hnumbers₃ header hne] at hroom
    refine .answer ⟨?_, h.next.trans (hc₃ ▸ hnext₁), hroom, fun j hj => (h.numbers j hj).trans (hnumbers₃ j hj)⟩
    rw [Table.keys_congr h.vertices, hvertices₃, (insertVertex_ok hvertex).2]
    exact hc.keys_insert _

theorem Grown.bounded (h : Grown header c c') (hc : c.Primed root) {k : Nat}
    (hk : (c'.graph.vertices.get? k).isSome) : k < c'.nextBlock := by
  have hk := Table.mem_keys_iff.mpr hk
  rw [h.keys, List.mem_append, List.mem_singleton] at hk
  rw [h.next]
  rcases hk with hk | rfl
  · exact Nat.lt_succ_of_lt (hc.bounded k (Table.mem_keys_iff.mp hk))
  · exact Nat.lt_succ_self _

end Preheader

/-- A graph with `n` blocks more, in which control gets to the old ones as before. -/
structure FlowGraph.Enlarges (root n : Nat) (c c' : FlowGraph) : Prop where
  keys : c'.graph.vertices.keys = c.graph.vertices.keys ++ List.range' c.nextBlock n
  next : c'.nextBlock = c.nextBlock + n
  goesBack : ∀ u h, c'.graph.GoesBack root u h ↔ c.graph.GoesBack root u h
  reached : ∀ v, v < c.nextBlock → (c'.graph.IsReached root v ↔ c.graph.IsReached root v)
  dominates : ∀ u v, u < c.nextBlock → v < c.nextBlock → (c'.graph.Dominates root u v ↔ c.graph.Dominates root u v)

namespace FlowGraph

variable {c c' c'' : FlowGraph} {root n m : Nat}

theorem Enlarges.refl (root : Nat) (c : FlowGraph) : Enlarges root 0 c c where
  keys := (List.append_nil _).symm
  next := rfl
  goesBack _ _ := Iff.rfl
  reached _ _ := Iff.rfl
  dominates _ _ _ _ := Iff.rfl

theorem Enlarges.trans (h : Enlarges root n c c') (h' : Enlarges root m c' c'') : Enlarges root (n + m) c c'' := by
  have hlt : ∀ v, v < c.nextBlock → v < c'.nextBlock := fun v hv => by
    rw [h.next]
    exact Nat.lt_add_right n hv
  refine ⟨?_, ?_, fun u k => (h'.goesBack u k).trans (h.goesBack u k),
    fun v hv => (h'.reached v (hlt v hv)).trans (h.reached v hv),
    fun u v hu hv => (h'.dominates u v (hlt u hu) (hlt v hv)).trans (h.dominates u v hu hv)⟩
  · rw [h'.keys, h.keys, h.next, List.append_assoc, List.range'_append_1]
  · rw [h'.next, h.next, Nat.add_assoc]

theorem Enlarges.of_bridges {header : Nat} {outside : List Nat} (grown : Preheader.Grown header c c')
    (b : Bridges c.graph c'.graph root header [c.nextBlock] outside) : Enlarges root 1 c c' := by
  have hold : ∀ v, v < c.nextBlock → v ∉ [c.nextBlock] := fun v hv h =>
    Nat.ne_of_lt hv (List.mem_singleton.mp h)
  exact ⟨grown.keys, grown.next, fun _ _ => b.goesBack_iff, fun v hv => b.reached_iff (hold v hv),
    fun u v hu hv => b.dominates_iff (hold u hu) (hold v hv)⟩

/-- Dominance among the old blocks is answered as before. -/
theorem Enlarges.dominators (h : Enlarges root n c c') (hc : c.Primed root) (hc' : c'.Primed root) :
    ∃ d d', c.dominators = .ok d ∧ c'.dominators = .ok d' ∧
      ∀ u ∈ c.graph.vertices.keys, ∀ v ∈ c.graph.vertices.keys, d'.dominates u v = d.dominates u v := by
  refine ⟨_, _, bind_eq_ok.mpr ⟨root, orRaise_eq_ok.mpr hc.entry, hc.wired.dominators_ok hc.vertex⟩,
    bind_eq_ok.mpr ⟨root, orRaise_eq_ok.mpr hc'.entry, hc'.wired.dominators_ok hc'.vertex⟩,
    fun u hu v hv => Bool.eq_iff_iff.mpr ?_⟩
  have hu := hc.bounded u (Table.mem_keys_iff.mp hu)
  have hv := hc.bounded v (Table.mem_keys_iff.mp hv)
  have hreached : (∃ l, c'.graph.Way root v l) ↔ ∃ l, c.graph.Way root v l := h.reached v hv
  rw [hc.wired.dominates_treeDominators, hc'.wired.dominates_treeDominators, hreached, h.dominates u v hu hv]

end FlowGraph

theorem sum_map_le_of_subset (s : Nat → Nat) {l m : List Nat} (hl : l.Nodup) (h : l ⊆ m) :
    (l.map s).sum ≤ (m.map s).sum := by
  obtain ⟨l', hperm, hsub⟩ := hl.subperm h
  rw [← (hperm.map s).sum_eq]
  exact (hsub.map s).sum_le_sum fun _ _ => Nat.zero_le _

namespace Preheader

variable {c c' : FlowGraph} {root : Nat}

theorem delivers_insertAll {rounds : Nat} {skipped : List Nat} (hc : c.Primed root) {f : LoopForest}
    (hf : LoopForest.ofGraph c = .ok f) (hrounds : (f.lacking skipped).length < rounds)
    (hblocks : Word.modulus ≤ c.nextBlock + (f.lacking skipped).length → E)
    (htemps : Word.modulus ≤ c.nextTemp + ((f.lacking skipped).map fun h => (c.numbersAt h).length).sum → E) :
    Outcome.Delivers E (fun r => Enlarges root r.1 c r.2 ∧ r.2.Primed root) ((insertAll rounds skipped).run c) := by
  induction rounds generalizing c skipped f with
  | zero => exact absurd hrounds (Nat.not_lt_zero _)
  | succ rounds ih =>
    obtain ⟨f', hf', reports⟩ := LoopForest.ofGraph_total hc.wired hc.entry hc.vertex
    cases hf.symm.trans hf'
    refine delivers_ask_bind hf ?_
    split
    · exact .answer ⟨.refl root c, hc⟩
    · rename_i l hfind
      have hl := List.mem_of_find?_eq_some hfind
      have hfound := List.find?_some hfind
      have hcandidate : l.header ∈ f.lacking skipped := List.mem_map_of_mem (List.mem_filter.mpr ⟨hl, hfound⟩)
      obtain ⟨⟨n, hback⟩, -⟩ := reports.mem_lacking.mp hcandidate
      have hheader := (hc.wired.ends n l.header hback.edge).2
      refine delivers_ask_bind (hc.wired.predecessors_ok hheader) ?_
      dsimp only
      split
      · obtain ⟨hgone, hsubset⟩ := reports.lacking_skip skipped l.header
        have hlt := LoopForest.lacking_lt reports hcandidate hgone hsubset
        have hsum := sum_map_le_of_subset (fun h => (c.numbersAt h).length) (reports.nodup_lacking _) hsubset
        exact ih hc hf (by omega) (fun h => hblocks (by omega)) fun h => htemps (by omega)
      · rename_i hempty
        rw [List.isEmpty_iff] at hempty
        have hsize : (c.numbersAt l.header).length ≤ ((f.lacking skipped).map fun h => (c.numbersAt h).length).sum :=
          List.le_sum_of_mem (List.mem_map_of_mem hcandidate)
        have hpos := List.length_pos_of_mem hcandidate
        refine delivers_bind (delivers_insert hc ((nodup_neighbors _ _).filter _) hheader
          (fun v hv => ((reports.mem_outside hc.wired hl).mp hv).1) (fun h => hblocks (by omega))
          fun h => htemps (by omega)) fun _ c' hinsert grown => ?_
        obtain ⟨bridges, hentry', hroot'⟩ := bridges_insert hc.wired hc.entry hc.vertex
          (fun v hv => (reports.mem_outside hc.wired hl).mp hv) hempty hinsert
        have hc' : c'.Primed root := ⟨wires_insert _ _ _ _ _ hc.wired hinsert, hentry', hroot', fun _ => grown.bounded hc⟩
        obtain ⟨f', hf', reports'⟩ := LoopForest.ofGraph_total hc'.wired hentry' hroot'
        obtain ⟨hgone, hsubset⟩ := reports.lacking_insert reports' hc.wired hl skipped bridges hempty
        have hlt := LoopForest.lacking_lt reports' hcandidate hgone hsubset
        have hsum := sum_map_le_of_subset (fun h => (c.numbersAt h).length)
          (List.nodup_cons.mpr ⟨hgone, reports'.nodup_lacking skipped⟩) (List.cons_subset.mpr ⟨hcandidate, hsubset⟩)
        have hsame : (f'.lacking skipped).map (fun h => (c'.numbersAt h).length) =
            (f'.lacking skipped).map fun h => (c.numbersAt h).length := List.map_congr_left fun h hh => by
          obtain ⟨⟨m, hm⟩, -⟩ := reports.mem_lacking.mp (hsubset hh)
          rw [grown.numbers h (Nat.ne_of_lt (hc.bounded h (hc.wired.ends m h hm.edge).2))]
        have hnext := grown.next
        have htemps' := grown.temps
        rw [List.map_cons, List.sum_cons] at hsum
        dsimp only at hnext htemps'
        refine delivers_bind (ih hc' hf' (by omega) (fun h => hblocks (by omega)) fun h => htemps ?_)
          fun further c'' _ hrest => .answer ⟨?_, hrest.2⟩
        · rw [hsame] at h
          omega
        · rw [Nat.add_comm further 1]
          exact (Enlarges.of_bridges grown bridges).trans hrest.1

/-- Every loop is settled before the rounds run out, and no block has its phis merged twice. -/
theorem delivers_simplify (hc : c.Primed root) : Outcome.Delivers
    (Word.modulus ≤ c.nextBlock + c.blocks.length ∨
      Word.modulus ≤ c.nextTemp + (c.blocks.map (·.instructions.length)).sum)
    (fun r => Enlarges root r.1 c r.2 ∧ r.2.Primed root ∧ r.2.IsSimplified root) (simplify.run c) := by
  obtain ⟨f, hf, reports⟩ := LoopForest.ofGraph_total hc.wired hc.entry hc.vertex
  have hlength := reports.length_lacking hc.wired []
  have hsum := sum_map_le_of_subset (fun k => (c.numbersAt k).length) (reports.nodup_lacking []) fun h hh => by
    obtain ⟨⟨n, hback⟩, -⟩ := reports.mem_lacking.mp hh
    exact Table.mem_keys_iff.mpr (hc.wired.ends n h hback.edge).2
  rw [sum_length_numbersAt] at hsum
  change Outcome.Delivers _ _ ((insertAll (c.blocks.length + 1) []).run c)
  refine (delivers_insertAll hc hf (Nat.lt_succ_of_le hlength) (fun h => .inl (by omega))
    fun h => .inr (by omega)).mono fun r hrun h => ⟨h.1, h.2, ?_⟩
  exact (isSimplified_of_insertAll ⟨hc.wired, hc.entry, hc.vertex, fun _ h => absurd h List.not_mem_nil⟩ hrun).1

end Preheader

namespace LoopForest

variable {c c' : FlowGraph} {root : Nat} {f f' : LoopForest}

theorem Reports.mem_headers (reports : f.Reports c root) {h : Nat} :
    h ∈ f.toList.map (·.header) ↔ ∃ n, c.graph.GoesBack root n h := by
  constructor
  · intro hh
    obtain ⟨l, hl, rfl⟩ := List.mem_map.mp hh
    exact reports.latched l hl
  · rintro ⟨n, hback⟩
    exact reports.complete n h hback

theorem headers_eq_keys (h : ofGraph c = .ok f) : f.toList.map (·.header) = f.loops.keys := by
  unfold toList Table.values Table.keys
  rw [List.map_map]
  exact List.map_congr_left fun e he => header_of_loop? h ((Table.get?_eq_some_iff _ _ _).mpr he)

theorem headers_congr (h : ofGraph c = .ok f) (h' : ofGraph c' = .ok f') (reports : f.Reports c root)
    (reports' : f'.Reports c' root) (hback : ∀ n k, c'.graph.GoesBack root n k ↔ c.graph.GoesBack root n k) :
    f'.toList.map (·.header) = f.toList.map (·.header) := by
  rw [headers_eq_keys h, headers_eq_keys h']
  refine Table.keys_congr fun k => Bool.eq_iff_iff.mpr ?_
  rw [← Table.mem_keys_iff, ← Table.mem_keys_iff, ← headers_eq_keys h, ← headers_eq_keys h', reports.mem_headers,
    reports'.mem_headers]
  exact exists_congr fun n => hback n k

theorem Reports.isSome_preheader (reports : f.Reports c root) (hc : c.IsSimplified root) {l : NaturalLoop}
    (hl : l ∈ f.toList) {v : Nat} (hedge : (c.graph.edges.get? (v, l.header)).isSome) (hout : l.contains v = false) :
    l.preheader.isSome := by
  obtain ⟨n, hback⟩ := reports.latched l hl
  rcases hc.enclosed n l.header hback with hall | ⟨p, hp⟩
  · rw [(reports.holds l hl v).mpr (hall v hedge)] at hout
    cases hout
  · rw [(reports.entered l hl p).mpr hp]
    rfl

end LoopForest

theorem Function.edit_of_body {α : Type} {f : Function} {c : FlowGraph} (hbody : f.body = some c) (e : Edit α) :
    f.edit e = (e.run c).map fun r => (r.1, { f with body := some r.2 }) := by
  have hflow : f.flowGraph = .ok c := orRaise_eq_ok.mpr hbody
  unfold edit
  rw [hflow]
  change (e.run c >>= fun r => pure (r.1, { f with body := some r.2 })) = _
  cases e.run c <;> rfl

/-- Loops are simplified to the end: all loops that control enters from outside have preheaders then, with the same
headers as before and the same dominance among the blocks that were there; there is one block more for each preheader,
and nothing is left to do. Every graph that is built meets what is asked of it, whatever the numbers of its instructions.
Only the counters can get in the way, if there are almost as many blocks or temporaries as
there are numbers. -/
theorem simplifyLoops_spec {f : Function} {c : FlowGraph} {root : Nat} (hbody : f.body = some c)
    (wired : c.graph.Wired) (bounded : ∀ k, (c.graph.vertices.get? k).isSome → k < c.nextBlock)
    (hentry : c.entry = some root) (started : c.graph.hasVertex root) :
    (∃ n c', f.simplifyLoops = .ok (n, { f with body := some c' }) ∧
      (∃ forest forest', LoopForest.ofGraph c = .ok forest ∧ LoopForest.ofGraph c' = .ok forest' ∧
        forest'.toList.map (·.header) = forest.toList.map (·.header) ∧
        (∀ h, h ∈ forest'.toList.map (·.header) ↔ ∃ n, c'.graph.GoesBack root n h) ∧
        ∀ l ∈ forest'.toList, (∃ v, (c'.graph.edges.get? (v, l.header)).isSome ∧ l.contains v = false) →
          l.preheader.isSome) ∧
      (∃ d d', c.dominators = .ok d ∧ c'.dominators = .ok d' ∧
        ∀ u ∈ c.graph.vertices.keys, ∀ v ∈ c.graph.vertices.keys, d'.dominates u v = d.dominates u v) ∧
      c'.graph.vertices.keys = c.graph.vertices.keys ++ List.range' c.nextBlock n ∧
      Function.simplifyLoops { f with body := some c' } = .ok (0, { f with body := some c' })) ∨
    f.simplifyLoops = .error (.fatal .overflow) ∧
      (Word.modulus ≤ c.nextBlock + c.blocks.length ∨
        Word.modulus ≤ c.nextTemp + (c.blocks.map (·.instructions.length)).sum) := by
  have hc : c.Primed root := ⟨wired, hentry, started, bounded⟩
  have hrun : f.simplifyLoops = (Preheader.simplify.run c).map fun r => (r.1, { f with body := some r.2 }) :=
    f.edit_of_body hbody _
  rcases Preheader.delivers_simplify hc with ⟨⟨n, c'⟩, hok, henlarges, hc', hsimplified⟩ | ⟨hfail, hE⟩
  · obtain ⟨forest, hforest, reports⟩ := LoopForest.ofGraph_total hc.wired hc.entry hc.vertex
    obtain ⟨forest', hforest', reports'⟩ := LoopForest.ofGraph_total hc'.wired hc'.entry hc'.vertex
    refine .inl ⟨n, c', by rw [hrun, hok]; rfl, ⟨forest, forest', hforest, hforest', ?_,
      fun h => reports'.mem_headers, ?_⟩, ?_, henlarges.keys, ?_⟩
    · exact LoopForest.headers_congr hforest hforest' reports reports' henlarges.goesBack
    · rintro l hl ⟨v, hedge, hout⟩
      exact reports'.isSome_preheader hsimplified hl hedge hout
    · exact henlarges.dominators hc hc'
    · refine (Function.edit_of_body rfl _).trans ?_
      rw [Preheader.simplify_of_isSimplified hc'.wired hsimplified]
      rfl
  · refine .inr ⟨?_, hE⟩
    rw [hrun, hfail]
    rfl

/-- A loop that three blocks lead to, one of them out of reach, with another loop inside, in front of two blocks that
lead to each other. -/
def tangledLoops : Outcome FlowGraph :=
  FlowGraph.build
    [[], [], [], [⟨.phi ⟨"x", .pointer⟩ [(.null, 1), (.global "g", 2), (.null, 4), (.null, 8)], none, []⟩], [], [], [], [],
      [], []]
    [(0, 1, none), (0, 2, none), (1, 3, none), (2, 3, none), (3, 4, none), (4, 4, none), (4, 3, none), (3, 5, none),
      (5, 6, none), (5, 7, none), (6, 7, none), (7, 6, none), (8, 3, none), (9, 9, none)] (some 0)

/-- The two loops are given preheaders, and the phi of the first one is split. -/
theorem simplifyLoops_spec_tangled :
    ∃ (f : Function) (c c' : FlowGraph), tangledLoops = .ok c ∧ f.body = some c ∧ c.Built ∧ c.entry = some 0 ∧
      f.simplifyLoops = .ok (2, { f with body := some c' }) ∧
      c'.graph.vertices.keys = c.graph.vertices.keys ++ [10, 11] ∧
      Function.simplifyLoops { f with body := some c' } = .ok (0, { f with body := some c' }) := by
  have hbuild : tangledLoops.toOption.any fun c => c.entry = some 0 ∧ c.nextBlock = 10 ∧
      (Function.simplifyLoops ⟨"f", [], .void, .internal, some c⟩).toOption.any fun r => r.1 = 2 := by
    decide +kernel
  obtain ⟨c, hc, h⟩ := (Option.any_eq_true ..).mp hbuild
  obtain ⟨hentry, hnext, hruns⟩ := of_decide_eq_true h
  obtain ⟨r, hr, hcount⟩ := (Option.any_eq_true ..).mp hruns
  have hcount := of_decide_eq_true hcount
  have hr := toOption_eq_some.mp hr
  have hc := toOption_eq_some.mp hc
  have built : c.Built := by
    unfold tangledLoops at hc
    exact FlowGraph.built_of_build hc
  obtain ⟨b, hb⟩ := built.started 0 hentry
  rcases simplifyLoops_spec (f := ⟨"f", [], .void, .internal, some c⟩) rfl built.wired (fun _ => built.bounded) hentry
    (Option.isSome_iff_exists.mpr ⟨b, block_eq_ok.mp hb⟩) with
    ⟨n, c', hrun, -, -, hkeys, hagain⟩ | ⟨hfail, -⟩
  · cases hr.symm.trans hrun
    cases hcount
    rw [hnext] at hkeys
    exact ⟨⟨"f", [], .void, .internal, some c⟩, c, c', hc, rfl, built, hentry, hrun, hkeys, hagain⟩
  · cases hr.symm.trans hfail

end RegionGuard

import RegionGuard.Proofs.Detours
import RegionGuard.Proofs.FallbackGuards
import RegionGuard.Proofs.Strands
set_option autoImplicit false

/-!
# Graphs abreast

The first of two graphs has every guard in front of its access, the second has some of them hoisted. Their
blocks hold the same code but for guards. Control that leaves a preheader for its loop passes through
hoisted code in the second graph, and then arrives from another block.
-/

namespace RegionGuard

/-- For the headers of some loops, the preheader and the block that control arrives from in its place. -/
abbrev Ways := Nat → Option (Nat × Nat)

namespace Ways

def arrival (w : Ways) (header block : Nat) : Nat :=
  match w header with
  | some (preheader, last) => if block = preheader then last else block
  | none => block

def set (w : Ways) (header preheader last : Nat) : Ways :=
  fun block => if block = header then some (preheader, last) else w block

variable {w : Ways} {header preheader last block : Nat}

theorem arrival_of_none (h : w header = none) : w.arrival header = id := by
  funext block
  unfold arrival
  rw [h]
  rfl

theorem arrival_of_some (h : w header = some (preheader, last)) :
    w.arrival header = fun block => if block = preheader then last else block := by
  funext block
  unfold arrival
  rw [h]

theorem set_self : w.set header preheader last header = some (preheader, last) := if_pos rfl

theorem set_of_ne (h : block ≠ header) : w.set header preheader last block = w block := if_neg h

theorem arrival_set_of_ne (h : block ≠ header) :
    (w.set header preheader last).arrival block = w.arrival block := by
  funext k
  unfold arrival
  rw [set_of_ne h]

end Ways

/-- The two versions of a block, of which code without guards has the numbers below `m.numbers k`. -/
structure Block.Abreast (m : Margin) (k : Nat) (arrival : Nat → Nat) (b b' : Block) : Prop where
  strand : Strand m k (m.numbers k) arrival b.instructions b'.instructions
  left : m.numbers k ≤ b.nextIndex
  right : m.numbers k ≤ b'.nextIndex

namespace FlowGraph

/-- Blocks that both graphs have stand abreast, and blocks of the second one alone are hoisted code. -/
structure Aligned (m : Margin) (w : Ways) (f o : FlowGraph) : Prop where
  both : ∀ k b, f.block k = .ok b → k < m.blocks ∧ ∃ b', o.block k = .ok b' ∧ b.Abreast m k (w.arrival k) b'
  added : ∀ k b, m.blocks ≤ k → o.block k = .ok b → ∀ z ∈ b.instructions, z.IsHoisted m 0

/-- Control goes the same ways in both graphs, but for the detours of the second one. -/
structure Joined (m : Margin) (w : Ways) (f o : FlowGraph) : Prop where
  filed : o.graph.Filed
  bounded : ∀ k es, o.graph.edgesOut k = .ok es → k < o.nextBlock
  stored : ∀ k es, m.blocks ≤ k → o.graph.edgesOut k = .ok es → ∃ b, o.block k = .ok b
  tests : ∀ k es, f.graph.edgesOut k = .ok es → ∀ e ∈ es, ∀ c ∈ e.condition, c.value.Avoids m.temps
  plain : ∀ k < m.blocks, (∀ header last, w header ≠ some (k, last)) →
    o.graph.edgesOut k = f.graph.edgesOut k
  turned : ∀ header k last, w header = some (k, last) → header < m.blocks ∧ k < m.blocks ∧
    ∃ e, f.graph.edgesOut k = .ok [e] ∧ e.tail = header ∧ o.Leads m.blocks e k last

structure Abreast (m : Margin) (w : Ways) (f o : FlowGraph) : Prop where
  entry : f.entry = o.entry
  left : f.Numbered
  right : o.Numbered
  leftTemps : m.temps ≤ f.nextTemp
  rightTemps : m.temps ≤ o.nextTemp
  blocks : m.blocks ≤ o.nextBlock
  aligned : f.Aligned m w o
  joined : f.Joined m w o

variable {m : Margin} {w : Ways} {f f' o o' : FlowGraph} {k : Nat}

section Edges

variable {c c' : FlowGraph} {g : Block → Outcome Block}

theorem edgesOut_modifyBlock (h : c.modifyBlock k g = .ok c') (j : Nat) :
    c'.graph.edgesOut j = c.graph.edgesOut j := by
  obtain ⟨b, b', -, -, rfl⟩ := modifyBlock_ok h
  exact Graph.edgesOut_setVertex _ _ _

theorem filed_modifyBlock (hc : c.graph.Filed) (h : c.modifyBlock k g = .ok c') : c'.graph.Filed := by
  obtain ⟨b, b', -, -, rfl⟩ := modifyBlock_ok h
  exact hc

theorem modifyBlock_fields (h : c.modifyBlock k g = .ok c') :
    c'.entry = c.entry ∧ c'.nextTemp = c.nextTemp ∧ c'.nextBlock = c.nextBlock := by
  obtain ⟨b, b', -, -, rfl⟩ := modifyBlock_ok h
  exact ⟨rfl, rfl, rfl⟩

theorem block_modifyBlock (h : c.modifyBlock k g = .ok c') :
    ∃ b b', c.block k = .ok b ∧ g b = .ok b' ∧ c'.block k = .ok b' ∧
      ∀ j, j ≠ k → c'.block j = c.block j := by
  obtain ⟨b, b', hb, hb', rfl⟩ := modifyBlock_ok h
  refine ⟨b, b', hb, hb', ?_, fun j hj => ?_⟩
  · rw [block_setVertex, if_pos rfl]
  · rw [block_setVertex, if_neg hj]

end Edges

theorem stored_modifyBlock {c c' : FlowGraph} {g : Block → Outcome Block} (h : c.modifyBlock k g = .ok c')
    (j : Nat) (b : Block) (hb : c.block j = .ok b) : ∃ b', c'.block j = .ok b' := by
  obtain ⟨x, x', -, -, hk, hothers⟩ := block_modifyBlock h
  by_cases hj : j = k
  · subst hj
    exact ⟨x', hk⟩
  · exact ⟨b, (hothers j hj).trans hb⟩

theorem computes_of_modifyBlock {g : Block → Outcome Block}
    (hg : ∀ b b', o.block k = .ok b → g b = .ok b' → ∀ i ∈ b.instructions,
      ∃ j ∈ b'.instructions, ∀ v, i.operation.computes? = some v → j.operation.computes? = some v)
    (h : o.modifyBlock k g = .ok o') {j : Nat} {v : Variable} (hv : o.Computes j v) : o'.Computes j v := by
  obtain ⟨b, i, hb, hi, hcomputes⟩ := hv
  obtain ⟨x, x', hx, hx', hk, hothers⟩ := block_modifyBlock h
  by_cases hj : j = k
  · subst hj
    rw [hx] at hb
    cases hb
    obtain ⟨i', hi', hsame⟩ := hg _ _ hx hx' i hi
    exact ⟨x', i', hk, hi', hsame v hcomputes⟩
  · exact ⟨b, i, (hothers j hj).trans hb, hi, hcomputes⟩

namespace Joined

theorem congr (h : f.Joined m w o) (hf : ∀ k, f'.graph.edgesOut k = f.graph.edgesOut k)
    (ho : ∀ k, o'.graph.edgesOut k = o.graph.edgesOut k) (filed : o'.graph.Filed)
    (next : o'.nextBlock = o.nextBlock) (stored : ∀ k b, o.block k = .ok b → ∃ b', o'.block k = .ok b')
    (computes : ∀ k v, o.Computes k v → o'.Computes k v) : f'.Joined m w o' where
  filed := filed
  bounded k es hes := by
    rw [next]
    exact h.bounded k es (ho k ▸ hes)
  stored k es hk hes := by
    obtain ⟨b, hb⟩ := h.stored k es hk (ho k ▸ hes)
    exact stored k b hb
  tests k es hes := h.tests k es (hf k ▸ hes)
  plain k hk hw := by
    rw [ho, hf]
    exact h.plain k hk hw
  turned header k last hw := by
    obtain ⟨hheader, hk, e, he, htail, hleads⟩ := h.turned header k last hw
    exact ⟨hheader, hk, e, by rw [hf]; exact he, htail,
      hleads.congr (fun j es hes => by rw [ho]; exact hes) computes⟩

end Joined

theorem Aligned.congr (h : f.Aligned m w o) (hf : ∀ j, j ≠ k → f'.block j = f.block j)
    (ho : ∀ j, j ≠ k → o'.block j = o.block j)
    (both : ∀ b, f'.block k = .ok b →
      k < m.blocks ∧ ∃ b', o'.block k = .ok b' ∧ b.Abreast m k (w.arrival k) b')
    (added : ∀ b, m.blocks ≤ k → o'.block k = .ok b → ∀ z ∈ b.instructions, z.IsHoisted m 0) :
    f'.Aligned m w o' := by
  constructor
  · intro j b hb
    by_cases hj : j = k
    · subst hj
      exact both b hb
    · rw [ho j hj]
      exact h.both j b ((hf j hj).symm.trans hb)
  · intro j b hj hb
    by_cases hjk : j = k
    · subst hjk
      exact added b hj hb
    · exact h.added j b hj ((ho j hjk).symm.trans hb)

namespace Abreast

variable {g g' : Block → Outcome Block}

theorem modify_both (h : f.Abreast m w o) (hf : f.modifyBlock k g = .ok f')
    (ho : o.modifyBlock k g' = .ok o') (left : f'.Numbered) (right : o'.Numbered)
    (keeps : ∀ b b', o.block k = .ok b → g' b = .ok b' → ∀ i ∈ b.instructions,
      ∃ j ∈ b'.instructions, ∀ v, i.operation.computes? = some v → j.operation.computes? = some v)
    (blocks : ∀ b b' x x', f.block k = .ok b → o.block k = .ok b' → g b = .ok x → g' b' = .ok x' →
      b.Abreast m k (w.arrival k) b' → x.Abreast m k (w.arrival k) x') : f'.Abreast m w o' := by
  obtain ⟨hentry, htemps, -⟩ := modifyBlock_fields hf
  obtain ⟨hentry', htemps', hnext'⟩ := modifyBlock_fields ho
  obtain ⟨b, x, hb, hx, hfk, hf'⟩ := block_modifyBlock hf
  obtain ⟨b', x', hb', hx', hok, ho'⟩ := block_modifyBlock ho
  obtain ⟨hk, c, hc, habreast⟩ := h.aligned.both k b hb
  rw [hb'] at hc
  cases hc
  refine ⟨by rw [hentry, hentry', h.entry], left, right, by rw [htemps]; exact h.leftTemps,
    by rw [htemps']; exact h.rightTemps, by rw [hnext']; exact h.blocks, ?_, ?_⟩
  · refine h.aligned.congr hf' ho' (fun y hy => ⟨hk, x', hok, ?_⟩) fun y hle => by omega
    rw [hfk] at hy
    cases hy
    exact blocks b b' _ x' hb hb' hx hx' habreast
  · exact h.joined.congr (edgesOut_modifyBlock hf) (edgesOut_modifyBlock ho)
      (filed_modifyBlock h.joined.filed ho) hnext' (stored_modifyBlock ho)
      fun _ _ => computes_of_modifyBlock keeps ho

theorem modify_left (h : f.Abreast m w o) (hf : f.modifyBlock k g = .ok f') (left : f'.Numbered)
    (blocks : ∀ b b' x, f.block k = .ok b → o.block k = .ok b' → g b = .ok x →
      b.Abreast m k (w.arrival k) b' → x.Abreast m k (w.arrival k) b') : f'.Abreast m w o := by
  obtain ⟨hentry, htemps, -⟩ := modifyBlock_fields hf
  obtain ⟨b, x, hb, hx, hfk, hf'⟩ := block_modifyBlock hf
  obtain ⟨hk, b', hb', habreast⟩ := h.aligned.both k b hb
  refine ⟨by rw [hentry, h.entry], left, h.right, by rw [htemps]; exact h.leftTemps,
    h.rightTemps, h.blocks, ?_, ?_⟩
  · refine h.aligned.congr hf' (fun _ _ => rfl) (fun y hy => ⟨hk, b', hb', ?_⟩) fun y hle => by omega
    rw [hfk] at hy
    cases hy
    exact blocks b b' _ hb hb' hx habreast
  · exact h.joined.congr (edgesOut_modifyBlock hf) (fun _ => rfl) h.joined.filed rfl
      (fun _ b hb => ⟨b, hb⟩) fun _ _ hv => hv

theorem modify_right (h : f.Abreast m w o) (ho : o.modifyBlock k g = .ok o') (right : o'.Numbered)
    (keeps : ∀ b b', o.block k = .ok b → g b = .ok b' → ∀ i ∈ b.instructions,
      ∃ j ∈ b'.instructions, ∀ v, i.operation.computes? = some v → j.operation.computes? = some v)
    (blocks : ∀ b b' x, f.block k = .ok b → o.block k = .ok b' → g b' = .ok x →
      b.Abreast m k (w.arrival k) b' → b.Abreast m k (w.arrival k) x)
    (added : ∀ b x, m.blocks ≤ k → o.block k = .ok b → g b = .ok x →
      (∀ z ∈ b.instructions, z.IsHoisted m 0) → ∀ z ∈ x.instructions, z.IsHoisted m 0) :
    f.Abreast m w o' := by
  obtain ⟨hentry, htemps, hnext⟩ := modifyBlock_fields ho
  obtain ⟨b, x, hb, hx, hok, ho'⟩ := block_modifyBlock ho
  refine ⟨by rw [hentry, h.entry], h.left, right, h.leftTemps, by rw [htemps]; exact h.rightTemps,
    by rw [hnext]; exact h.blocks, ?_, ?_⟩
  · refine h.aligned.congr (fun _ _ => rfl) ho' (fun y hy => ?_) fun y hle hy => ?_
    · obtain ⟨hk, b', hb', habreast⟩ := h.aligned.both k y hy
      rw [hb] at hb'
      cases hb'
      exact ⟨hk, x, hok, blocks y b x hy hb hx habreast⟩
    · rw [hok] at hy
      cases hy
      exact added b x hle hb hx (h.aligned.added k b hle hb)
  · exact h.joined.congr (fun _ => rfl) (edgesOut_modifyBlock ho) (filed_modifyBlock h.joined.filed ho) hnext
      (stored_modifyBlock ho) fun _ _ => computes_of_modifyBlock keeps ho

theorem withTemps (h : f.Abreast m w o) {n n' : Nat} (hn : m.temps ≤ n) (hn' : m.temps ≤ n') :
    (f.withTemps n).Abreast m w (o.withTemps n') :=
  ⟨h.entry, h.left, h.right, hn, hn', h.blocks, ⟨h.aligned.both, h.aligned.added⟩,
    h.joined.congr (fun _ => rfl) (fun _ => rfl) h.joined.filed rfl
      (fun _ b hb => ⟨b, hb⟩) fun _ _ hv => hv⟩

section Marks

variable {l : Location} {text text' : String}

theorem setTag (h : f.Abreast m w o) (hf : f.modifyInstruction l (·.setTag Tag.guarded text) = .ok f')
    (ho : o.modifyInstruction l (·.setTag Tag.guarded text') = .ok o') : f'.Abreast m w o' := by
  refine h.modify_both hf ho (Edit.keeps_setTag _ _ _ f () f' h.left (Edit.step_ok.mpr hf))
    (Edit.keeps_setTag _ _ _ o () o' h.right (Edit.step_ok.mpr ho)) ?_ ?_
  · intro b b' hb hb' i hi
    rw [(Block.modify_ok (numbered_iff.mp h.right _ b hb).2 hb').2]
    refine ⟨_, List.mem_map_of_mem hi, fun v hv => ?_⟩
    rw [Block.tagAt_operation]
    exact hv
  · intro b b' x x' hb hb' hx hx' hblock
    rw [(Block.modify_ok (numbered_iff.mp h.left _ b hb).2 hx).2,
      (Block.modify_ok (numbered_iff.mp h.right _ b' hb').2 hx').2]
    refine ⟨hblock.strand.map ?_ ?_ ?_ ?_, hblock.left, hblock.right⟩
    · exact fun i => ⟨Block.tagAt_index _ _ _ i, Block.tagAt_operation _ _ _ i⟩
    · refine fun i => ⟨Block.tagAt_index _ _ _ i, ?_⟩
      unfold Block.changeAt
      split
      · unfold Instruction.tag? Instruction.setTag
        rw [Table.get?_insert, if_neg (by decide)]
      · rfl
    · exact fun i _ => Block.tagAt_operation _ _ _ i
    · intro operation i hmirrors
      rw [Block.tagAt_operation]
      exact hmirrors

end Marks

end Abreast

end FlowGraph

namespace Block

theorem front_ne {b : Block} (hb : b.Numbered) {front back : List Instruction} {i : Instruction}
    (h : b.instructions = front ++ i :: back) : ∀ x ∈ front, x.index ≠ i.index := by
  intro x hx hindex
  have hx' : x ∈ b.instructions := h ▸ List.mem_append_left _ hx
  have hi : i ∈ b.instructions := h ▸ List.mem_append_right _ List.mem_cons_self
  obtain rfl := eq_of_index_eq hb.2 hx' hi hindex
  have distinct := List.Nodup.of_map _ hb.2
  rw [h, List.nodup_middle, List.nodup_cons] at distinct
  exact distinct.1 (List.mem_append_left _ hx)

theorem mem_of_inject {b b' : Block} {position : Nat} {tags : List (String × String)}
    {operations : List Operation} (h : b.inject position tags operations = .ok b') {i : Instruction}
    (hi : i ∈ b.instructions) : i ∈ b'.instructions := by
  rw [inject_ok h]
  rw [← List.take_append_drop position b.instructions] at hi
  rcases List.mem_append.mp hi with hi | hi
  · exact List.mem_append_left _ hi
  · exact List.mem_append_right _ (List.mem_append_right _ hi)

/-- Code that has to run last goes to the end, or in front of a closing return. -/
theorem terminatorPosition_split (b : Block) :
    (b.instructions.take b.terminatorPosition = b.instructions ∧
        b.instructions.drop b.terminatorPosition = []) ∨
      ∃ front r, b.instructions = front ++ [r] ∧ r.operation.isReturn ∧
        b.instructions.take b.terminatorPosition = front ∧
        b.instructions.drop b.terminatorPosition = [r] := by
  unfold terminatorPosition
  rcases List.eq_nil_or_concat b.instructions with hnil | ⟨front, r, hfront⟩
  · left
    rw [hnil]
    exact ⟨rfl, rfl⟩
  · rw [List.concat_eq_append] at hfront
    rw [hfront, List.getLast?_concat]
    simp only
    split
    · rename_i hr
      exact .inr ⟨front, r, rfl, hr, by simp, by simp⟩
    · exact .inl ⟨List.take_length, List.drop_length⟩

end Block

namespace StackGuardDecision

theorem afterSlots_split (b : Block) :
    (¬ (∃ i ∈ b.instructions, i.operation.isAlloca)) ∧
        b.instructions.take (afterSlots b) = b.instructions.takeWhile (·.operation.isPhi) ∧
        b.instructions.drop (afterSlots b) = b.instructions.dropWhile (·.operation.isPhi) ∨
      ∃ front i back, b.instructions = front ++ i :: back ∧ i.operation.isAlloca ∧
        (¬ ∃ j ∈ back, j.operation.isAlloca) ∧ b.instructions.take (afterSlots b) = front ++ [i] ∧
        b.instructions.drop (afterSlots b) = back := by
  let other := fun i : Instruction => !i.operation.isAlloca
  have hsplit := List.takeWhile_append_dropWhile (p := other) (l := b.instructions.reverse)
  have hbehind : ∀ i ∈ b.instructions.reverse.takeWhile other, i.operation.isAlloca = false := by
    intro i hi
    have := List.all_eq_true.mp (List.all_takeWhile (l := b.instructions.reverse) (p := other)) i hi
    simpa [other] using this
  cases hrest : b.instructions.reverse.dropWhile other with
  | nil =>
    left
    rw [hrest, List.append_nil] at hsplit
    have hlength : afterSlots b = b.firstNonPhi := by
      unfold afterSlots
      rw [if_pos]
      change (b.instructions.reverse.takeWhile other).length = _
      rw [hsplit, List.length_reverse]
    have hphis := List.takeWhile_append_dropWhile (p := fun i : Instruction => i.operation.isPhi)
      (l := b.instructions)
    refine ⟨?_, ?_, ?_⟩
    · rintro ⟨i, hi, hslot⟩
      have := hbehind i (by rw [hsplit]; exact List.mem_reverse.mpr hi)
      rw [hslot] at this
      cases this
    · rw [hlength]
      conv_lhs =>
        rw [← hphis]
      exact List.take_left
    · rw [hlength]
      conv_lhs =>
        rw [← hphis]
      exact List.drop_left
  | cons i front =>
    right
    have hi : i.operation.isAlloca := by
      have hhead := List.head?_dropWhile_not other b.instructions.reverse
      rw [hrest] at hhead
      simpa [other] using hhead
    rw [hrest] at hsplit
    have hinstructions : b.instructions =
        (front.reverse ++ [i]) ++ (b.instructions.reverse.takeWhile other).reverse := by
      have := congrArg List.reverse hsplit
      rw [List.reverse_reverse, List.reverse_append, List.reverse_cons] at this
      exact this.symm
    have hlength : afterSlots b = (front.reverse ++ [i]).length := by
      have hcount := congrArg List.length hinstructions
      rw [List.length_append, List.length_reverse] at hcount
      unfold afterSlots
      change (if (b.instructions.reverse.takeWhile other).length = _ then _ else
        b.instructions.length - (b.instructions.reverse.takeWhile other).length) = _
      have hpos : 0 < (front.reverse ++ [i]).length := by simp
      rw [if_neg (by omega)]
      omega
    refine ⟨front.reverse, i, (b.instructions.reverse.takeWhile other).reverse, ?_, hi, ?_, ?_, ?_⟩
    · conv_lhs => rw [hinstructions]
      simp
    · rintro ⟨j, hj, hslot⟩
      rw [hbehind j (List.mem_reverse.mp hj)] at hslot
      cases hslot
    · rw [hlength]
      conv_lhs => rw [hinstructions]
      exact List.take_left
    · rw [hlength]
      conv_lhs => rw [hinstructions]
      exact List.drop_left

end StackGuardDecision

namespace GuardCode

theorem drafted_guards (m : Margin) {k next number : Nat} (tags : List (String × String)) (v : Value)
    (a : Access) (hk : k ≤ next) (hnumber : m.temps ≤ number) :
    ∃ x y, Instruction.drafted tags next (guards m.hooks v a number) = [x, y] ∧
      Instruction.IsGuard m k x y v a := by
  refine ⟨_, _, rfl, ?_, ?_, .temporary number (.integer 64), Variable.isUpcoming_temporary.mpr hnumber,
    ⟨Instruction.setTags_operation _ _, rfl⟩, Instruction.setTags_operation _ _⟩
  · rw [Instruction.setTags_index]
    exact hk
  · rw [Instruction.setTags_index]
    exact Nat.le_succ_of_le hk

end GuardCode

namespace FlowGraph

namespace Abreast

variable {m : Margin} {w : Ways} {f f' o o' : FlowGraph} {k : Nat}

section Guards

variable {l : Location} {position position' number number' : Nat} {tags tags' : List (String × String)}
  {v : Value} {a : Access}

theorem split_at {c : FlowGraph} (hc : c.Numbered) (hposition : c.position l = .ok position) {b : Block}
    (hb : c.block l.block = .ok b) :
    ∃ i, i.index = l.instruction ∧ b.instructions = b.instructions.take position ++
        i :: b.instructions.drop (position + 1) ∧
      b.instructions.drop position = i :: b.instructions.drop (position + 1) ∧
      ∀ x ∈ b.instructions.take position, x.index ≠ i.index := by
  obtain ⟨x, i, hx, hi, hdrop⟩ := position_ok hposition
  rw [hb] at hx
  cases hx
  have hsplit : b.instructions = b.instructions.take position ++ i :: b.instructions.drop (position + 1) := by
    rw [← hdrop, List.take_append_drop]
  exact ⟨i, hi, hsplit, hdrop, Block.front_ne (numbered_iff.mp hc _ b hb).2 hsplit⟩

theorem operation_at {c : FlowGraph} (hc : c.Numbered) {operation : Operation} (hl : c.Holds l operation)
    {b : Block} (hb : c.block l.block = .ok b) {front back : List Instruction} {i : Instruction}
    (hsplit : b.instructions = front ++ i :: back) (hi : i.index = l.instruction) :
    i.operation = operation := by
  obtain ⟨b', i', hb', hi', hindex, rfl⟩ := hl
  rw [hb] at hb'
  cases hb'
  have hmem : i ∈ b.instructions := hsplit ▸ List.mem_append_right _ List.mem_cons_self
  rw [Block.eq_of_index_eq (numbered_iff.mp hc _ b hb).2.2 hmem hi' (hi.trans hindex.symm)]

theorem guard_both (h : f.Abreast m w o) {operation : Operation} (hl : f.Holds l operation)
    (notPhi : operation.isPhi = false) (original : l.instruction < m.numbers l.block)
    (avoids : v.Avoids m.temps) (hnumber : m.temps ≤ number) (hnumber' : m.temps ≤ number')
    (hposition : f.position l = .ok position) (hposition' : o.position l = .ok position')
    (hf : f.modifyBlock l.block (fun b => b.inject position tags (GuardCode.guards m.hooks v a number)) =
      .ok f')
    (ho : o.modifyBlock l.block
      (fun b => b.inject position' tags' (GuardCode.guards m.hooks v a number')) = .ok o') :
    f'.Abreast m w o' := by
  refine h.modify_both hf ho (Edit.keeps_inject _ _ _ _ f () f' h.left (Edit.step_ok.mpr hf))
    (Edit.keeps_inject _ _ _ _ o () o' h.right (Edit.step_ok.mpr ho)) ?_ ?_
  · exact fun b b' _ hb' i hi => ⟨i, Block.mem_of_inject hb' hi, fun v hv => hv⟩
  · intro b b' x x' hb hb' hx hx' hblock
    obtain ⟨i, hi, hsplit, hdrop, hfront⟩ := split_at h.left hposition hb
    obtain ⟨j, hj, hsplit', hdrop', hfront'⟩ := split_at h.right hposition' hb'
    obtain ⟨y, z, hguards, hguard⟩ := GuardCode.drafted_guards m tags v a hblock.left hnumber
    obtain ⟨y', z', hguards', hguard'⟩ := GuardCode.drafted_guards m tags' v a hblock.right hnumber'
    have hstrand := hblock.strand
    rw [hsplit, hsplit'] at hstrand
    have hnew := hstrand.insert (Strand.fits_guard hguard hguard' avoids) (by omega) (by omega) hfront
      hfront' (operation_at h.left hl hb hsplit hi ▸ notPhi)
    rw [Block.inject_ok hx, Block.inject_ok hx', hguards, hguards', hdrop, hdrop']
    have := hblock.left
    have := hblock.right
    exact ⟨hnew, by simp only; omega, by simp only; omega⟩

theorem guard_moved (h : f.Abreast m w o) {operation : Operation} (hl : f.Holds l operation)
    (notPhi : operation.isPhi = false) (original : l.instruction < m.numbers l.block)
    (avoids : v.Avoids m.temps) (hoisted : m.moved l.block v a) (hnumber : m.temps ≤ number)
    (hposition : f.position l = .ok position)
    (hf : f.modifyBlock l.block (fun b => b.inject position tags (GuardCode.guards m.hooks v a number)) =
      .ok f') : f'.Abreast m w o := by
  refine h.modify_left hf (Edit.keeps_inject _ _ _ _ f () f' h.left (Edit.step_ok.mpr hf)) ?_
  intro b b' x hb hb' hx hblock
  obtain ⟨i, hi, hsplit, hdrop, hfront⟩ := split_at h.left hposition hb
  have hmem : i ∈ b.instructions := hsplit ▸ List.mem_append_right _ List.mem_cons_self
  obtain ⟨j, hj, hindex⟩ := hblock.strand.exists_right hmem (by omega)
  obtain ⟨front, back, hsplit'⟩ := List.append_of_mem hj
  have hfront' := Block.front_ne (numbered_iff.mp h.right _ b' hb').2 hsplit'
  obtain ⟨y, z, hguards, hguard⟩ := GuardCode.drafted_guards m tags v a hblock.left hnumber
  have hstrand := hblock.strand
  rw [hsplit, hsplit'] at hstrand
  have hnew := hstrand.insert (Strand.fits_moved hguard hoisted avoids) (by omega) hindex.symm hfront
    hfront' (operation_at h.left hl hb hsplit hi ▸ notPhi)
  rw [List.nil_append, ← hsplit'] at hnew
  rw [Block.inject_ok hx, hguards, hdrop]
  have := hblock.left
  exact ⟨hnew, by simp only; omega, hblock.right⟩

end Guards

section Hoists

variable {tags : List (String × String)} {operations : List Operation} {position : Block → Nat}

def Hoistable (m : Margin) (tags : List (String × String)) (operations : List Operation) : Prop :=
  ∀ n next, n ≤ next → ∀ z ∈ Instruction.drafted tags next operations, z.IsHoisted m n

theorem hoisted_of_inject (hoisted : Hoistable m tags operations) {b b' : Block} {n : Nat}
    (h : b.inject n tags operations = .ok b') (hb : ∀ z ∈ b.instructions, z.IsHoisted m 0) :
    ∀ z ∈ b'.instructions, z.IsHoisted m 0 := by
  rw [Block.inject_ok h]
  intro z hz
  rcases List.mem_append.mp hz with hz | hz
  · exact hb z (List.mem_of_mem_take hz)
  · rcases List.mem_append.mp hz with hz | hz
    · exact hoisted 0 _ (Nat.zero_le _) z hz
    · exact hb z (List.mem_of_mem_drop hz)

theorem append_hoisted (h : f.Abreast m w o) (hoisted : Hoistable m tags operations)
    (ho : o.modifyBlock k (fun b => b.inject b.terminatorPosition tags operations) = .ok o') :
    f.Abreast m w o' := by
  refine h.modify_right ho (Edit.keeps_inject _ _ _ _ o () o' h.right (Edit.step_ok.mpr ho)) ?_ ?_ ?_
  · exact fun b b' _ hb' i hi => ⟨i, Block.mem_of_inject hb' hi, fun v hv => hv⟩
  · intro b b' x _ _ hx hblock
    rw [Block.inject_ok hx]
    refine ⟨?_, hblock.left, Nat.le_trans hblock.right (Nat.le_add_right _ _)⟩
    have hnew := hoisted _ _ hblock.right
    rcases Block.terminatorPosition_split b' with ⟨htake, hdrop⟩ | ⟨front, r, hsplit, hr, htake, hdrop⟩
    · rw [htake, hdrop, List.append_nil]
      exact hblock.strand.append_hoisted hnew
    · rw [htake, hdrop]
      have hstrand := hblock.strand
      rw [hsplit] at hstrand
      exact hstrand.insert_before_return hr hnew
  · exact fun b x _ _ hx hb => hoisted_of_inject hoisted hx hb

theorem fill_hoisted (h : f.Abreast m w o) (hoisted : Hoistable m tags operations) (hk : m.blocks ≤ k)
    (ho : o.modifyBlock k (fun b => b.inject (position b) tags operations) = .ok o') :
    f.Abreast m w o' := by
  refine h.modify_right ho (Edit.keeps_inject _ _ _ _ o () o' h.right (Edit.step_ok.mpr ho)) ?_ ?_ ?_
  · exact fun b b' _ hb' i hi => ⟨i, Block.mem_of_inject hb' hi, fun v hv => hv⟩
  · intro b b' x hb _ _ _
    have := (h.aligned.both k b hb).1
    omega
  · exact fun b x _ _ hx hb => hoisted_of_inject hoisted hx hb

end Hoists

end Abreast

end FlowGraph

end RegionGuard

import RegionGuard.Proofs.Rerouting
set_option autoImplicit false

namespace RegionGuard

namespace Block

variable {b : Block} {i : Instruction} {front back : List Instruction} {index : Nat}

def grow (b : Block) (front back : List Instruction) (o : Operation) : Block :=
  { b with nextIndex := b.nextIndex + 1, instructions := front ++ .make b.nextIndex o :: back }

theorem insertOperation_eq (hb : b.instructions = front ++ back) (o : Operation) :
    b.insertOperation front.length o =
      if b.nextIndex + 1 < Word.modulus then .ok (b.grow front back o) else .error (.fatal .overflow) := by
  have hle : ¬ b.instructions.length < front.length := by
    rw [hb, List.length_append]
    omega
  unfold insertOperation insertWith Failure.successor
  rw [if_neg hle, hb, insertIdx_eq _ (by simp), List.take_left, List.drop_left]
  split
  · rfl
  · rfl

theorem exists_first (h : ∃ i ∈ b.instructions, i.index = index) :
    ∃ front i back, i.index = index ∧ b.instructions = front ++ i :: back ∧ ∀ j ∈ front, j.index ≠ index := by
  obtain ⟨j, hj, hindex⟩ := h
  have hfound : (b.instructions.find? (·.index == index)).isSome :=
    List.find?_isSome.mpr ⟨j, hj, beq_iff_eq.mpr hindex⟩
  obtain ⟨i, hi⟩ := Option.isSome_iff_exists.mp hfound
  obtain ⟨hi, front, back, hb, hfront⟩ := List.find?_eq_some_iff_append.mp hi
  exact ⟨front, i, back, beq_iff_eq.mp hi, hb, fun j hj => by simpa using hfront j hj⟩

theorem position_eq (hb : b.instructions = front ++ i :: back) (hfront : ∀ j ∈ front, j.index ≠ i.index) :
    b.position i.index = .ok front.length := by
  have hnone : front.findIdx? (·.index == i.index) = none :=
    List.findIdx?_eq_none_iff.mpr fun j hj => beq_eq_false_iff_ne.mpr (hfront j hj)
  refine orRaise_eq_ok.mpr ?_
  unfold position?
  rw [hb, List.findIdx?_append, hnone, List.findIdx?_cons, beq_self_eq_true]
  simp

theorem instruction_eq (hb : b.instructions = front ++ i :: back) (hfront : ∀ j ∈ front, j.index ≠ i.index) :
    b.instruction i.index = .ok i :=
  orRaise_eq_ok.mpr (List.find?_eq_some_iff_append.mpr
    ⟨beq_self_eq_true i.index, front, back, hb, fun j hj => by simpa using hfront j hj⟩)

theorem position_of_absent (h : ¬ ∃ i ∈ b.instructions, i.index = index) :
    b.position index = .error (.error (.instructionNotFound b.index index)) := by
  have hnone : b.position? index = none :=
    List.findIdx?_eq_none_iff.mpr fun i hi => beq_eq_false_iff_ne.mpr fun hindex => h ⟨i, hi, hindex⟩
  unfold position
  rw [hnone]
  rfl

theorem remove_eq (hb : b.instructions = front ++ i :: back) (hfront : ∀ j ∈ front, j.index ≠ i.index) :
    b.remove i.index = .ok (i, { b with instructions := front ++ back }) := by
  have herase : b.instructions.eraseIdx front.length = front ++ back := by
    rw [hb, List.eraseIdx_append_of_length_le (Nat.le_refl _), Nat.sub_self]
    rfl
  refine bind_eq_ok.mpr ⟨_, position_eq hb hfront, bind_eq_ok.mpr ⟨i, instruction_eq hb hfront, ?_⟩⟩
  rw [herase]
  rfl

end Block

inductive BlockRequest where
  | append (o : Operation)
  | insert (position : Nat) (o : Operation)
  | insertBefore (index : Nat) (o : Operation)
  | insertAfter (index : Nat) (o : Operation)
  | remove (index : Nat)

namespace BlockRequest

def handOver (position : Nat) (changed : Outcome Block) : Outcome (Instruction × Block) := do
  let b ← changed
  let i ← Failure.orStop b.instructions[position]? .missingEntry
  return (i, b)

def apply : BlockRequest → Block → Outcome (Instruction × Block)
  | .append o, b => handOver b.instructions.length (b.append o)
  | .insert position o, b => handOver position (b.insertOperation position o)
  | .insertBefore index o, b => do
    let position ← b.position index
    handOver position (b.insertBefore index o)
  | .insertAfter index o, b => do
    let position ← b.position index
    handOver (position + 1) (b.insertAfter index o)
  | .remove index, b => b.remove index

def Possible (b : Block) : BlockRequest → Prop
  | .append _ => b.nextIndex + 1 < Word.modulus
  | .insert position _ => position ≤ b.instructions.length ∧ b.nextIndex + 1 < Word.modulus
  | .insertBefore index _ => (∃ i ∈ b.instructions, i.index = index) ∧ b.nextIndex + 1 < Word.modulus
  | .insertAfter index _ => (∃ i ∈ b.instructions, i.index = index) ∧ b.nextIndex + 1 < Word.modulus
  | .remove index => ∃ i ∈ b.instructions, i.index = index

/-- What a request does where it is granted: one instruction is put in or taken out, and the others stay in their order. -/
inductive Does (b : Block) : BlockRequest → Instruction → Block → Prop
  | append (o : Operation) : Does b (.append o) (.make b.nextIndex o) (b.grow b.instructions [] o)
  | insert {front back : List Instruction} (o : Operation) (hb : b.instructions = front ++ back) :
    Does b (.insert front.length o) (.make b.nextIndex o) (b.grow front back o)
  | insertBefore {front back : List Instruction} {i : Instruction} (o : Operation)
    (hb : b.instructions = front ++ i :: back) :
    Does b (.insertBefore i.index o) (.make b.nextIndex o) (b.grow front (i :: back) o)
  | insertAfter {front back : List Instruction} {i : Instruction} (o : Operation)
    (hb : b.instructions = front ++ i :: back) :
    Does b (.insertAfter i.index o) (.make b.nextIndex o) (b.grow (front ++ [i]) back o)
  | remove {front back : List Instruction} {i : Instruction} (hb : b.instructions = front ++ i :: back) :
    Does b (.remove i.index) i { b with instructions := front ++ back }

variable {b b' : Block} {i : Instruction} {front back : List Instruction} {r : BlockRequest}

theorem handOver_insert (hb : b.instructions = front ++ back) (o : Operation) :
    handOver front.length (b.insertOperation front.length o) =
      if b.nextIndex + 1 < Word.modulus then .ok (.make b.nextIndex o, b.grow front back o)
      else .error (.fatal .overflow) := by
  have hget : (b.grow front back o).instructions[front.length]? = some (.make b.nextIndex o) := by
    simp [Block.grow]
  rw [Block.insertOperation_eq hb]
  split
  · unfold handOver
    simp only [bind, Except.bind, hget]
    rfl
  · rfl

theorem insertion_cases (hb : b.instructions = front ++ back) (o : Operation)
    (hplace : r.apply b = handOver front.length (b.insertOperation front.length o))
    (hpossible : r.Possible b ↔ b.nextIndex + 1 < Word.modulus)
    (hdoes : r.Does b (.make b.nextIndex o) (b.grow front back o)) :
    (r.Possible b ∧ ∃ i b', r.apply b = .ok (i, b') ∧ r.Does b i b') ∨ (¬ r.Possible b ∧ ∃ f, r.apply b = .error f) := by
  rw [hplace, handOver_insert hb, hpossible]
  by_cases hroom : b.nextIndex + 1 < Word.modulus
  · rw [if_pos hroom]
    exact .inl ⟨hroom, _, _, rfl, hdoes⟩
  · rw [if_neg hroom]
    exact .inr ⟨hroom, _, rfl⟩

/-- A request is granted as it should be, or refused because it is not possible. -/
theorem apply_cases (r : BlockRequest) (b : Block) :
    (r.Possible b ∧ ∃ i b', r.apply b = .ok (i, b') ∧ r.Does b i b') ∨ (¬ r.Possible b ∧ ∃ f, r.apply b = .error f) := by
  cases r with
  | append o => exact insertion_cases (List.append_nil _).symm o rfl Iff.rfl (.append o)
  | insert position o =>
    by_cases hle : position ≤ b.instructions.length
    · obtain ⟨front, back, hb, rfl⟩ : ∃ front back, b.instructions = front ++ back ∧ front.length = position :=
        ⟨_, _, (List.take_append_drop position _).symm, List.length_take_of_le hle⟩
      exact insertion_cases hb o rfl (and_iff_right hle) (.insert o hb)
    · refine .inr ⟨fun h => hle h.1, .error (.request (.positionOutOfBounds position b.index)), ?_⟩
      have hlt : b.instructions.length < position := Nat.lt_of_not_le hle
      simp only [apply, Block.insertOperation, Block.insertWith, hlt]
      rfl
  | insertBefore index o =>
    by_cases hindex : ∃ i ∈ b.instructions, i.index = index
    · obtain ⟨front, i, back, rfl, hb, hfront⟩ := Block.exists_first hindex
      have hposition := Block.position_eq hb hfront
      refine insertion_cases hb o ?_ (and_iff_right hindex) (.insertBefore o hb)
      simp only [apply, Block.insertBefore, hposition]
      rfl
    · refine .inr ⟨fun h => hindex h.1, .error (.instructionNotFound b.index index), ?_⟩
      simp only [apply, Block.position_of_absent hindex]
      rfl
  | insertAfter index o =>
    by_cases hindex : ∃ i ∈ b.instructions, i.index = index
    · obtain ⟨front, i, back, rfl, hb, hfront⟩ := Block.exists_first hindex
      have hposition := Block.position_eq hb hfront
      have hsplit : b.instructions = (front ++ [i]) ++ back := hb.trans (List.append_cons front i back)
      refine insertion_cases hsplit o ?_ (and_iff_right hindex) (.insertAfter o hb)
      simp only [apply, Block.insertAfter, hposition, List.length_append, List.length_singleton]
      rfl
    · refine .inr ⟨fun h => hindex h.1, .error (.instructionNotFound b.index index), ?_⟩
      simp only [apply, Block.position_of_absent hindex]
      rfl
  | remove index =>
    by_cases hindex : ∃ i ∈ b.instructions, i.index = index
    · obtain ⟨front, i, back, rfl, hb, hfront⟩ := Block.exists_first hindex
      exact .inl ⟨hindex, _, _, Block.remove_eq hb hfront, .remove hb⟩
    · refine .inr ⟨hindex, .error (.instructionNotFound b.index index), ?_⟩
      simp only [apply, Block.remove, Block.position_of_absent hindex]
      rfl

theorem does_of_apply (h : r.apply b = .ok (i, b')) : r.Does b i b' := by
  rcases r.apply_cases b with ⟨-, j, c, happly, hdoes⟩ | ⟨-, f, happly⟩
  · cases h.symm.trans happly
    exact hdoes
  · cases h.symm.trans happly

theorem apply_succeeds_iff : (∃ i b', r.apply b = .ok (i, b')) ↔ r.Possible b := by
  rcases r.apply_cases b with ⟨hpossible, i, b', happly, -⟩ | ⟨hnot, f, happly⟩
  · exact iff_of_true ⟨i, b', happly⟩ hpossible
  · refine iff_of_false ?_ hnot
    rintro ⟨i, b', hok⟩
    cases hok.symm.trans happly

end BlockRequest

/-- A block with all that was put into it since it was new, and all that was taken out, each in turn. -/
structure BlockHistory where
  block : Block
  created : List Instruction
  removed : List Instruction

def BlockHistory.record (h : BlockHistory) (r : BlockRequest) : BlockHistory :=
  match r, r.apply h.block with
  | _, .error _ => h
  | .remove _, .ok (i, b) => { h with block := b, removed := h.removed ++ [i] }
  | _, .ok (i, b) => { h with block := b, created := h.created ++ [i] }

def Block.history (b : Block) (requests : List BlockRequest) : BlockHistory :=
  requests.foldl BlockHistory.record ⟨b, [], []⟩

namespace BlockHistory

variable {h : BlockHistory} {i : Instruction}

/-- The numbers were given out in turn, and what was created is in the block or was removed. -/
structure Sound (h : BlockHistory) : Prop where
  numbers : h.created.map (·.index) = List.range h.block.nextIndex
  kept : h.created.Perm (h.block.instructions ++ h.removed)

theorem Sound.insert (hs : h.Sound) {front back : List Instruction} (hb : h.block.instructions = front ++ back)
    (o : Operation) : Sound
      { h with block := h.block.grow front back o, created := h.created ++ [.make h.block.nextIndex o] } where
  numbers := by
    change (h.created ++ [_]).map _ = List.range (h.block.nextIndex + 1)
    rw [List.map_append, hs.numbers, List.range_succ]
    rfl
  kept := by
    refine (List.perm_append_singleton _ _).trans ((hs.kept.cons _).trans ?_)
    rw [hb]
    exact List.perm_middle.symm.append_right h.removed

theorem Sound.remove (hs : h.Sound) {front back : List Instruction} (hb : h.block.instructions = front ++ i :: back) :
    Sound { h with block := { h.block with instructions := front ++ back }, removed := h.removed ++ [i] } where
  numbers := hs.numbers
  kept := by
    refine hs.kept.trans ?_
    rw [hb, ← List.append_assoc]
    exact (List.perm_middle.append_right h.removed).trans (List.perm_append_singleton i _).symm

theorem Sound.record (hs : h.Sound) (r : BlockRequest) : (h.record r).Sound := by
  cases happly : r.apply h.block with
  | error f =>
    unfold BlockHistory.record
    rw [happly]
    exact hs
  | ok answer =>
    obtain ⟨i, b⟩ := answer
    have hdoes := BlockRequest.does_of_apply happly
    unfold BlockHistory.record
    rw [happly]
    cases hdoes with
    | append o => exact hs.insert (List.append_nil _).symm o
    | insert o hb => exact hs.insert hb o
    | insertBefore o hb => exact hs.insert hb o
    | @insertAfter front back i o hb => exact hs.insert (hb.trans (List.append_cons front i back)) o
    | remove hb => exact hs.remove hb

theorem sound_history (k : Nat) (requests : List BlockRequest) : ((Block.make k).history requests).Sound :=
  List.foldlRecOn requests _ ⟨rfl, .refl []⟩ fun _ hs r _ => hs.record r

/-- No two instructions that were ever put into the block share a number. -/
theorem Sound.distinct (hs : h.Sound) : ((h.block.instructions ++ h.removed).map (·.index)).Nodup :=
  (hs.kept.map _).nodup_iff.mp (hs.numbers ▸ List.nodup_range)

theorem Sound.numbered (hs : h.Sound) : h.block.Numbered := by
  refine ⟨fun i hi => ?_, ?_⟩
  · have hmem : i.index ∈ h.created.map (·.index) :=
      List.mem_map_of_mem (hs.kept.mem_iff.mpr (List.mem_append_left _ hi))
    rw [hs.numbers] at hmem
    exact List.mem_range.mp hmem
  · have hdistinct := hs.distinct
    rw [List.map_append] at hdistinct
    exact (List.nodup_append.mp hdistinct).1

theorem Sound.found (hs : h.Sound) (hi : i ∈ h.created) (hleft : i ∉ h.removed) : h.block.instruction i.index = .ok i ∧
    ∃ position, h.block.position i.index = .ok position ∧ h.block.instructions[position]? = some i := by
  have hmem : i ∈ h.block.instructions := (List.mem_append.mp (hs.kept.mem_iff.mp hi)).resolve_right hleft
  obtain ⟨front, j, back, hindex, hb, hfront⟩ := Block.exists_first ⟨i, hmem, rfl⟩
  cases Block.eq_of_index_eq hs.numbered.2 (hb ▸ List.mem_append_right front List.mem_cons_self) hmem hindex
  refine ⟨Block.instruction_eq hb hfront, front.length, Block.position_eq hb hfront, ?_⟩
  rw [hb]
  simp

/-- A number that was given to an instruction that is gone names nothing. -/
theorem Sound.gone (hs : h.Sound) (hi : i ∈ h.removed) : ∀ j ∈ h.block.instructions, j.index ≠ i.index := by
  intro j hj
  have hdistinct := hs.distinct
  rw [List.map_append] at hdistinct
  exact (List.nodup_append.mp hdistinct).2.2 _ (List.mem_map_of_mem hj) _ (List.mem_map_of_mem hi)

end BlockHistory

namespace FlowGraph

/-- Whatever a new block was asked for, and whether or not it was possible: its instructions have numbers of their own, below
the next one, and the numbers were given out in turn, each of them once. Every instruction that was put in is found under its
number until it is taken out, and then nothing is. Asked for something else, the block does it if it is possible, and all other
instructions stay in their order. -/
theorem numbers_stay {c c' : FlowGraph} {k : Nat} (hnew : c.newBlock = .ok (k, c')) (requests : List BlockRequest) :
    ∃ b, c'.block k = .ok b ∧
      let h := b.history requests
      (h.block.instructions.map (·.index)).Nodup ∧ (∀ i ∈ h.block.instructions, i.index < h.block.nextIndex) ∧
      h.created.map (·.index) = List.range h.block.nextIndex ∧
      (∀ i ∈ h.created, i ∉ h.removed → h.block.instruction i.index = .ok i ∧
        ∃ position, h.block.position i.index = .ok position ∧ h.block.instructions[position]? = some i) ∧
      (∀ i ∈ h.removed, i ∈ h.created ∧ ∀ j ∈ h.block.instructions, j.index ≠ i.index) ∧
      ∀ r : BlockRequest, ((∃ i b', r.apply h.block = .ok (i, b')) ↔ r.Possible h.block) ∧
        ∀ i b', r.apply h.block = .ok (i, b') → r.Does h.block i b' := by
  refine ⟨.make k, (block_newBlock hnew).1, ?_⟩
  intro h
  have hs : h.Sound := BlockHistory.sound_history k requests
  exact ⟨hs.numbered.2, hs.numbered.1, hs.numbers, fun i hi hleft => hs.found hi hleft,
    fun i hi => ⟨hs.kept.mem_iff.mpr (List.mem_append_right _ hi), hs.gone hi⟩,
    fun r => ⟨r.apply_succeeds_iff, fun i b' happly => r.does_of_apply happly⟩⟩

/-- Insertions of every kind between removals, and four requests that are refused. -/
def mixture : List BlockRequest :=
  [.append .nop, .append (.ret none), .insertBefore 0 .nop, .insertBefore 17 .nop, .insert 9 .nop, .remove 0,
    .insertAfter 2 .nop, .remove 0, .insertBefore 0 .nop]

theorem numbers_stay_mixture : ∃ c, empty.newBlock = .ok (0, c) ∧ ∃ b, c.block 0 = .ok b ∧
    (b.history mixture).block.instructions.map (·.index) = [2, 3, 1] ∧
    (b.history mixture).removed.map (·.index) = [0] ∧
    (b.history mixture).block.instruction 1 = .ok (.make 1 (.ret none)) ∧
    (b.history mixture).block.position 1 = .ok 2 ∧
    (∀ j ∈ (b.history mixture).block.instructions, j.index ≠ 0) ∧
    ¬ ∃ i b', (BlockRequest.remove 0).apply (b.history mixture).block = .ok (i, b') := by
  obtain ⟨c, hnew⟩ : ∃ c, empty.newBlock = .ok (0, c) := ⟨_, rfl⟩
  obtain ⟨b, hblock, -, -, -, hfound, hgone, hasked⟩ := numbers_stay hnew mixture
  cases (block_newBlock hnew).1.symm.trans hblock
  have hfirst : ∀ j ∈ ((Block.make 0).history mixture).block.instructions, j.index ≠ 0 :=
    (hgone (.make 0 .nop) (by decide +kernel)).2
  refine ⟨c, hnew, _, hblock, by decide +kernel, by decide +kernel,
    (hfound (.make 1 (.ret none)) (by decide +kernel) (by decide +kernel)).1, by decide +kernel, hfirst, fun hdone => ?_⟩
  obtain ⟨j, hj, hindex⟩ := (hasked (.remove 0)).1.mp hdone
  exact hfirst j hj hindex

end FlowGraph

end RegionGuard

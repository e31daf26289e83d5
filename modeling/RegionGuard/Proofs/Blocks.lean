import Mathlib.Data.List.Nodup
import RegionGuard.Instrument.Injection
import RegionGuard.Proofs.Outcomes
set_option autoImplicit false

namespace RegionGuard

namespace Instruction

@[simp] theorem setTag_operation (i : Instruction) (key value : String) :
    (i.setTag key value).operation = i.operation := rfl

@[simp] theorem setTag_index (i : Instruction) (key value : String) :
    (i.setTag key value).index = i.index := rfl

@[simp] theorem setTags_operation (i : Instruction) (tags : List (String × String)) :
    (i.setTags tags).operation = i.operation := by
  unfold setTags
  induction tags generalizing i with
  | nil => rfl
  | cons t rest ih => exact ih (i.setTag t.1 t.2)

@[simp] theorem setTags_index (i : Instruction) (tags : List (String × String)) :
    (i.setTags tags).index = i.index := by
  unfold setTags
  induction tags generalizing i with
  | nil => rfl
  | cons t rest ih => exact ih (i.setTag t.1 t.2)

def drafted (tags : List (String × String)) : Nat → List Operation → List Instruction
  | _, [] => []
  | next, o :: rest => (make next o).setTags tags :: drafted tags (next + 1) rest

theorem drafted_operations (tags : List (String × String)) (next : Nat) (operations : List Operation) :
    (drafted tags next operations).map (·.operation) = operations := by
  induction operations generalizing next with
  | nil => rfl
  | cons o rest ih => simp [drafted, ih, make]

theorem drafted_indices (tags : List (String × String)) (next : Nat) (operations : List Operation) :
    (drafted tags next operations).map (·.index) = List.range' next operations.length := by
  induction operations generalizing next with
  | nil => rfl
  | cons o rest ih => simp [drafted, ih, make, List.range'_succ]

theorem index_of_mem_drafted {tags : List (String × String)} {next : Nat} {operations : List Operation}
    {i : Instruction} (h : i ∈ drafted tags next operations) :
    next ≤ i.index ∧ i.index < next + operations.length := by
  have hi : i.index ∈ (drafted tags next operations).map (·.index) := List.mem_map_of_mem h
  rw [drafted_indices, List.mem_range'_1] at hi
  exact hi

end Instruction

namespace Block

/-- The numbers of the instructions are distinct and below the next number. -/
def Numbered (b : Block) : Prop :=
  (∀ i ∈ b.instructions, i.index < b.nextIndex) ∧ (b.instructions.map (·.index)).Nodup

instance (b : Block) : Decidable b.Numbered := inferInstanceAs (Decidable (_ ∧ _))

theorem insertIdx_eq {α : Type} (l : List α) {position : Nat} (h : position ≤ l.length) (x : α) :
    l.insertIdx position x = l.take position ++ x :: l.drop position := by
  induction l generalizing position with
  | nil =>
    cases Nat.le_zero.mp h
    rfl
  | cons y rest ih =>
    cases position with
    | zero => rfl
    | succ position => simp [ih (Nat.le_of_succ_le_succ h)]

theorem insertWith_ok {b b' : Block} {position : Nat} {make : Nat → Instruction}
    (h : b.insertWith position make = .ok b') :
    position ≤ b.instructions.length ∧
      b' = { b with
        nextIndex := b.nextIndex + 1
        instructions := b.instructions.take position ++ make b.nextIndex :: b.instructions.drop position } := by
  unfold insertWith at h
  split at h
  · cases h
  · rename_i hle
    obtain ⟨next, hnext, h⟩ := bind_eq_ok.mp h
    unfold Failure.successor at hnext
    split at hnext
    · cases hnext
      cases h
      have hle := Nat.le_of_not_lt hle
      exact ⟨hle, by rw [insertIdx_eq _ hle]⟩
    · cases hnext

theorem inject_ok {b b' : Block} {position : Nat} {tags : List (String × String)}
    {operations : List Operation} (h : b.inject position tags operations = .ok b') :
    b' = { b with
      nextIndex := b.nextIndex + operations.length
      instructions := b.instructions.take position ++
        (Instruction.drafted tags b.nextIndex operations ++ b.instructions.drop position) } := by
  induction operations generalizing b position with
  | nil =>
    cases h
    simp [Instruction.drafted]
  | cons o rest ih =>
    obtain ⟨c, hc, h⟩ := bind_eq_ok.mp h
    obtain ⟨hle, rfl⟩ := insertWith_ok hc
    rw [ih h]
    have hlen : (b.instructions.take position).length = position := by
      rw [List.length_take]
      omega
    have htake : ∀ (x : Instruction), (b.instructions.take position ++ x :: b.instructions.drop position).take
        (position + 1) = b.instructions.take position ++ [x] := by
      intro x
      rw [List.take_append, List.take_of_length_le (by omega), hlen]
      simp
    have hdrop : ∀ (x : Instruction), (b.instructions.take position ++ x :: b.instructions.drop position).drop
        (position + 1) = b.instructions.drop position := by
      intro x
      rw [List.drop_append, List.drop_of_length_le (by omega), hlen]
      simp
    simp only [htake, hdrop, Instruction.drafted, List.length_cons, List.append_assoc, List.cons_append,
      List.nil_append, Block.mk.injEq, and_true, true_and]
    omega

theorem numbered_of_insertWith {b b' : Block} {position : Nat} {make : Nat → Instruction}
    (hmake : (make b.nextIndex).index = b.nextIndex) (hb : b.Numbered)
    (h : b.insertWith position make = .ok b') : b'.Numbered := by
  obtain ⟨-, rfl⟩ := insertWith_ok h
  have hperm : (b.instructions.take position ++ make b.nextIndex :: b.instructions.drop position).Perm
      (make b.nextIndex :: b.instructions) := by
    refine List.perm_middle.trans ?_
    rw [List.take_append_drop]
  constructor
  · intro i hi
    rcases List.mem_cons.mp (hperm.mem_iff.mp hi) with rfl | hi
    · rw [hmake]
      exact Nat.lt_succ_self _
    · exact Nat.lt_succ_of_lt (hb.1 i hi)
  · rw [(hperm.map _).nodup_iff, List.map_cons, List.nodup_cons, hmake]
    refine ⟨fun hmem => ?_, hb.2⟩
    obtain ⟨i, hi, hindex⟩ := List.mem_map.mp hmem
    exact absurd (hb.1 i hi) (hindex ▸ Nat.lt_irrefl _)

theorem numbered_of_inject {b b' : Block} {position : Nat} {tags : List (String × String)}
    {operations : List Operation} (hb : b.Numbered) (h : b.inject position tags operations = .ok b') :
    b'.Numbered := by
  induction operations generalizing b position with
  | nil =>
    cases h
    exact hb
  | cons o rest ih =>
    obtain ⟨c, hc, h⟩ := bind_eq_ok.mp h
    exact ih (numbered_of_insertWith (Instruction.setTags_index _ _) hb hc) h

theorem position?_some {b : Block} {index position : Nat} (h : b.position? index = some position) :
    ∃ i, i.index = index ∧
      b.instructions.drop position = i :: b.instructions.drop (position + 1) := by
  obtain ⟨hlt, hp, -⟩ := List.findIdx?_eq_some_iff_getElem.mp h
  exact ⟨b.instructions[position], beq_iff_eq.mp hp, List.drop_eq_getElem_cons hlt⟩

theorem positionAfter_ok {b : Block} {index position : Nat} (h : b.positionAfter index = .ok position) :
    ∃ front i run, i.index = index ∧ (∀ j ∈ run, j.isInjected = true) ∧
      b.instructions.take position = front ++ i :: run := by
  obtain ⟨before, hbefore, hposition⟩ := bind_eq_ok.mp h
  cases hposition
  obtain ⟨i, hindex, hdrop⟩ := position?_some (orRaise_eq_ok.mp hbefore)
  refine ⟨b.instructions.take before, i, (b.instructions.drop (before + 1)).takeWhile Instruction.isInjected, hindex,
    fun j hj => List.all_eq_true.mp List.all_takeWhile j hj, ?_⟩
  rw [Nat.add_assoc, Nat.add_comm 1, List.take_add, hdrop, List.take_succ_cons,
    ← List.prefix_iff_eq_take.mp (List.takeWhile_prefix Instruction.isInjected)]

theorem eq_of_index_eq {b : Block} (distinct : (b.instructions.map (·.index)).Nodup) {i j : Instruction} (hi : i ∈ b.instructions)
    (hj : j ∈ b.instructions) (h : i.index = j.index) : i = j :=
  List.inj_on_of_nodup_map distinct hi hj h

theorem find?_eq_some_iff {b : Block} (distinct : (b.instructions.map (·.index)).Nodup) {index : Nat} {i : Instruction} :
    b.find? index = some i ↔ i ∈ b.instructions ∧ i.index = index := by
  constructor
  · intro h
    exact ⟨List.mem_of_find?_eq_some h, by simpa using List.find?_some h⟩
  · rintro ⟨hi, rfl⟩
    have hfound : (b.find? i.index).isSome := List.find?_isSome.mpr ⟨i, hi, beq_self_eq_true i.index⟩
    obtain ⟨j, hj⟩ := Option.isSome_iff_exists.mp hfound
    have hindex : j.index = i.index := by simpa using List.find?_some hj
    exact eq_of_index_eq distinct (List.mem_of_find?_eq_some hj) hi hindex ▸ hj

def changeAt (index : Nat) (f : Instruction → Instruction) (i : Instruction) : Instruction :=
  if i.index = index then f i else i

theorem modify_eq_map {l : List Instruction} (distinct : (l.map (·.index)).Nodup) (f : Instruction → Instruction)
    {position : Nat} {i : Instruction} (h : l[position]? = some i) :
    l.modify position f = l.map (changeAt i.index f) := by
  induction l generalizing position with
  | nil => cases h
  | cons x rest ih =>
    rw [List.map_cons, List.nodup_cons] at distinct
    have hrest : ∀ n, (∀ j ∈ rest, j.index ≠ n) → rest.map (changeAt n f) = rest := by
      intro n hn
      conv_rhs => rw [← List.map_id rest]
      refine List.map_congr_left fun j hj => ?_
      exact if_neg (hn j hj)
    cases position with
    | zero =>
      cases h
      rw [List.modify_zero_cons, List.map_cons, hrest]
      · simp [changeAt]
      · intro j hj hindex
        exact distinct.1 (List.mem_map.mpr ⟨j, hj, hindex⟩)
    | succ position =>
      rw [List.getElem?_cons_succ] at h
      have hx : x.index ≠ i.index := by
        intro hindex
        exact distinct.1 (List.mem_map.mpr ⟨i, List.mem_of_getElem? h, hindex.symm⟩)
      rw [List.modify_succ_cons, List.map_cons, ih distinct.2 h]
      simp [changeAt, hx]

theorem modify_ok {b b' : Block} {index : Nat} {f : Instruction → Instruction} (hb : b.Numbered)
    (h : b.modify index f = .ok b') :
    (∃ i ∈ b.instructions, i.index = index) ∧
      b' = { b with instructions := b.instructions.map (changeAt index f) } := by
  obtain ⟨position, hposition, h⟩ := bind_eq_ok.mp h
  cases h
  obtain ⟨i, rfl, hdrop⟩ := position?_some (orRaise_eq_ok.mp hposition)
  have hi : b.instructions[position]? = some i := by
    rw [← List.head?_drop, hdrop]
    rfl
  exact ⟨⟨i, List.mem_of_getElem? hi, rfl⟩, by rw [modify_eq_map hb.2 f hi]⟩

/-- A change by number takes what passes a test to what it makes of one instruction more. -/
theorem countP_changeAt {l : List Instruction} (distinct : (l.map (·.index)).Nodup) {i : Instruction} (hi : i ∈ l)
    {p : Instruction → Bool} (hp : p i = false) (f : Instruction → Instruction) :
    (l.map (changeAt i.index f)).countP p = l.countP p + if p (f i) then 1 else 0 := by
  obtain ⟨front, back, rfl⟩ := List.append_of_mem hi
  rw [List.map_append, List.map_cons] at distinct
  have hothers : ∀ m : List Instruction, (∀ j ∈ m, j.index ≠ i.index) → m.map (changeAt i.index f) = m := fun m hm => by
    conv_rhs => rw [← List.map_id m]
    exact List.map_congr_left fun j hj => if_neg (hm j hj)
  have hfront : ∀ j ∈ front, j.index ≠ i.index := fun j hj hindex =>
    (List.nodup_append.mp distinct).2.2 _ (List.mem_map_of_mem hj) _ List.mem_cons_self hindex
  have hback : ∀ j ∈ back, j.index ≠ i.index := fun j hj hindex =>
    (List.nodup_cons.mp (List.nodup_append.mp distinct).2.1).1 (hindex ▸ List.mem_map_of_mem hj)
  rw [List.map_append, List.map_cons, hothers front hfront, hothers back hback, changeAt, if_pos rfl]
  simp only [List.countP_append, List.countP_cons, hp, Bool.false_eq_true, if_false]
  omega

theorem changeAt_index {index : Nat} {f : Instruction → Instruction} (hf : ∀ i, (f i).index = i.index)
    (i : Instruction) : (changeAt index f i).index = i.index := by
  unfold changeAt
  split
  · exact hf i
  · rfl

theorem tagAt_index (index : Nat) (key value : String) (i : Instruction) :
    (changeAt index (·.setTag key value) i).index = i.index :=
  changeAt_index (f := (·.setTag key value)) (fun _ => rfl) i

theorem tagAt_operation (index : Nat) (key value : String) (i : Instruction) :
    (changeAt index (·.setTag key value) i).operation = i.operation := by
  unfold changeAt
  split <;> rfl

theorem numbered_of_map {b : Block} {f : Instruction → Instruction} (hf : ∀ i, (f i).index = i.index)
    (hb : b.Numbered) : Numbered { b with instructions := b.instructions.map f } := by
  constructor
  · intro i hi
    obtain ⟨j, hj, rfl⟩ := List.mem_map.mp hi
    rw [hf]
    exact hb.1 j hj
  · rw [List.map_map, show (fun i : Instruction => i.index) ∘ f = (·.index) from funext hf]
    exact hb.2

theorem numbered_of_modify {b b' : Block} {index : Nat} {f : Instruction → Instruction}
    (hf : ∀ i, (f i).index = i.index) (hb : b.Numbered) (h : b.modify index f = .ok b') :
    b'.Numbered := by
  rw [(modify_ok hb h).2]
  exact numbered_of_map (changeAt_index hf) hb

end Block

end RegionGuard

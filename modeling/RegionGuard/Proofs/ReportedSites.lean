import RegionGuard.Proofs.AdjoiningCode
import RegionGuard.Proofs.Dues
import RegionGuard.Proofs.SettledFunctions
import RegionGuard.Proofs.ShieldedAccesses
import RegionGuard.Proofs.Tallies
set_option autoImplicit false

namespace RegionGuard

open FlowGraph Edit Instruction

/-- Whether an instruction is injected code that notifies the runtime of something of a kind. -/
def Instruction.notifies (kind : String) (i : Instruction) : Bool :=
  decide (i.tag? Tag.injected = some kind) && i.operation.callee?.isSome

/-- Whether an instruction carries the mark of a report of a kind. -/
def Instruction.isTracked (kind : String) (i : Instruction) : Bool := decide (i.tag? Tag.tracked = some kind)

theorem Instruction.tag?_of_mem_drafted {v : String} {next : Nat} {operations : List Operation} {i : Instruction}
    (h : i ∈ drafted [(Tag.injected, v)] next operations) : i.tag? Tag.injected = some v := by
  induction operations generalizing next with
  | nil => cases h
  | cons o rest ih =>
    rcases List.mem_cons.mp h with rfl | h
    · exact (tag?_setTag _ _ _ _).trans (if_pos rfl)
    · exact ih h

theorem Instruction.tag?_tracked_of_mem_drafted {v : String} {next : Nat} {operations : List Operation} {i : Instruction}
    (h : i ∈ drafted [(Tag.injected, v)] next operations) : i.tag? Tag.tracked = none := by
  induction operations generalizing next with
  | nil => cases h
  | cons o rest ih =>
    rcases List.mem_cons.mp h with rfl | h
    · have hne : Tag.tracked ≠ Tag.injected := by decide
      exact (tag?_setTag _ _ _ _).trans (if_neg hne)
    · exact ih h

/-- Injected code notifies the runtime as often as it makes calls. -/
theorem Instruction.countP_notifies_drafted (v kind : String) (next : Nat) (operations : List Operation) :
    (drafted [(Tag.injected, v)] next operations).countP (·.notifies kind) =
      if v = kind then operations.countP (·.callee?.isSome) else 0 := by
  have hnotifies : ∀ i ∈ drafted [(Tag.injected, v)] next operations,
      i.notifies kind = (decide (v = kind) && i.operation.callee?.isSome) := fun i hi => by
    unfold notifies
    simp only [tag?_of_mem_drafted hi, Option.some.injEq]
  rw [List.countP_congr fun i hi => by rw [hnotifies i hi]]
  split
  · rename_i hkind
    conv_rhs => rw [← drafted_operations [(Tag.injected, v)] next operations, List.countP_map]
    exact List.countP_congr fun i _ => by simp [hkind]
  · rename_i hkind
    exact List.countP_eq_zero.mpr fun i _ => by simp [hkind]

theorem Instruction.countP_isTracked_drafted (v kind : String) (next : Nat) (operations : List Operation) :
    (drafted [(Tag.injected, v)] next operations).countP (·.isTracked kind) = 0 := by
  refine List.countP_eq_zero.mpr fun i hi => ?_
  unfold isTracked
  rw [tag?_tracked_of_mem_drafted hi]
  exact Bool.false_ne_true

namespace Block

def knows (b : Block) (i : Instruction) : Bool := b.instructions.any fun j => j.index = i.index

def isNotified (b : Block) (kind : String) (i : Instruction) : Bool := !b.knows i && i.notifies kind

/-- A block has injected code under new numbers, and without it the old instructions, each related to what it was. -/
structure Gains (R : Instruction → Instruction → Prop) (b b' : Block) : Prop where
  next : b.nextIndex ≤ b'.nextIndex
  kept : List.Forall₂ R b.instructions (b'.instructions.filter b.knows)
  added : ∀ i ∈ b'.instructions, b.knows i = false → i.isInjected = true

variable {b b₁ b₂ : Block} {R S : Instruction → Instruction → Prop} {i j : Instruction}

theorem knows_iff : b.knows i = true ↔ ∃ j ∈ b.instructions, j.index = i.index := by
  simp [knows, List.any_eq_true]

theorem knows_congr (h : j.index = i.index) : b.knows j = b.knows i := by
  unfold knows
  rw [h]

theorem knows_of_mem (hi : i ∈ b.instructions) : b.knows i = true := knows_iff.mpr ⟨i, hi, rfl⟩

theorem not_knows_of_mem_drafted (numbered : b.Numbered) {tags : List (String × String)} {next : Nat}
    (hnext : b.nextIndex ≤ next) {operations : List Operation} (hi : i ∈ drafted tags next operations) :
    b.knows i = false := by
  rw [← Bool.not_eq_true, knows_iff]
  rintro ⟨j, hj, hindex⟩
  have := numbered.1 j hj
  have := (index_of_mem_drafted hi).1
  omega

namespace Gains

theorem refl (hR : ∀ i ∈ b.instructions, R i i) : b.Gains R b where
  next := Nat.le_refl _
  kept := by
    rw [List.filter_eq_self.mpr fun i hi => knows_of_mem hi]
    exact List.forall₂_same.mpr hR
  added i hi hnew := by
    rw [knows_of_mem hi] at hnew
    cases hnew

theorem inject (h : b.Gains R b₁) (numbered : b.Numbered) {position : Nat} {v : String} {tags : List (String × String)}
    {operations : List Operation} (hb : b₁.inject position ((Tag.injected, v) :: tags) operations = .ok b₂) :
    b.Gains R b₂ := by
  rw [inject_ok hb]
  refine ⟨Nat.le_trans h.next (Nat.le_add_right _ _), ?_, fun i hi hnew => ?_⟩
  · have hnone : (drafted ((Tag.injected, v) :: tags) b₁.nextIndex operations).filter b.knows = [] :=
      List.filter_eq_nil_iff.mpr fun i hi => by
        rw [not_knows_of_mem_drafted numbered h.next hi]
        exact Bool.false_ne_true
    have hkept := h.kept
    rw [← List.take_append_drop position b₁.instructions, List.filter_append] at hkept
    rw [List.filter_append, List.filter_append, hnone, List.nil_append]
    exact hkept
  · rcases List.mem_append.mp hi with hi | hi
    · exact h.added i (List.mem_of_mem_take hi) hnew
    · rcases List.mem_append.mp hi with hi | hi
      · exact isInjected_of_mem_drafted hi
      · exact h.added i (List.mem_of_mem_drop hi) hnew

theorem map (h : b.Gains R b₁) {f : Instruction → Instruction}
    (hf : ∀ i, (f i).index = i.index ∧ (f i).isInjected = i.isInjected) (hR : ∀ i j, R i j → S i (f j)) :
    b.Gains S { b₁ with instructions := b₁.instructions.map f } where
  next := h.next
  kept := by
    have hknows : b.knows ∘ f = b.knows := funext fun i => knows_congr (hf i).1
    rw [List.filter_map, hknows, List.forall₂_map_right_iff]
    exact h.kept.imp hR
  added i hi hnew := by
    obtain ⟨j, hj, rfl⟩ := List.mem_map.mp hi
    rw [(hf j).2]
    rw [knows_congr (hf j).1] at hnew
    exact h.added j hj hnew

theorem mono (h : b.Gains R b₁) (hR : ∀ i ∈ b.instructions, ∀ j, R i j → S i j) : b.Gains S b₁ where
  next := h.next
  kept := List.Forall₂.imp (fun _ _ hij => hR _ hij.1 _ hij.2) ((List.forall₂_and_left _ _).mpr ⟨fun _ hi => hi, h.kept⟩)
  added := h.added

theorem exists_of_mem (h : b.Gains R b₁) (hi : i ∈ b.instructions) : ∃ j ∈ b₁.instructions, R i j := by
  obtain ⟨j, hj, hij⟩ := exists_of_mem_forall₂ (List.Forall₂.flip h.kept) hi
  exact ⟨j, List.mem_of_mem_filter hj, hij⟩

end Gains

def Unmarked (index : Nat) (b : Block) : Prop := ∀ i ∈ b.instructions, i.index = index → i.hasTag Tag.tracked = false

theorem Unmarked.inject {index position : Nat} {v : String} {operations : List Operation} (hb : b₁.Unmarked index)
    (hb' : b₁.inject position [(Tag.injected, v)] operations = .ok b₂) : b₂.Unmarked index := by
  rw [inject_ok hb']
  intro i hi hindex
  rcases List.mem_append.mp hi with hi | hi
  · exact hb i (List.mem_of_mem_take hi) hindex
  · rcases List.mem_append.mp hi with hi | hi
    · exact Option.not_isSome_iff_eq_none.mpr (tag?_tracked_of_mem_drafted hi) |> Bool.eq_false_iff.mpr
    · exact hb i (List.mem_of_mem_drop hi) hindex

end Block

/-- Nothing of two graphs differs but what is in their blocks, and how many temporaries they gave out. -/
structure FlowGraph.Framed (c c' : FlowGraph) : Prop where
  frame : c' = { c with graph := { c.graph with vertices := c'.graph.vertices }, nextTemp := c'.nextTemp }
  keys : c'.graph.vertices.keys = c.graph.vertices.keys

namespace FlowGraph.Framed

variable {c c' c'' : FlowGraph} {k : Nat}

theorem refl (c : FlowGraph) : c.Framed c := ⟨rfl, rfl⟩

theorem trans (h : c.Framed c') (h' : c'.Framed c'') : c.Framed c'' where
  frame := by
    rw [h'.frame, h.frame]
  keys := h'.keys.trans h.keys

theorem withTemps (c : FlowGraph) (next : Nat) : c.Framed (c.withTemps next) := ⟨rfl, rfl⟩

theorem modifyBlock {f : Block → Outcome Block} (h : c.modifyBlock k f = .ok c') : c.Framed c' := by
  obtain ⟨b, b', hb, -, rfl⟩ := modifyBlock_ok h
  refine ⟨rfl, Table.keys_congr fun j => ?_⟩
  unfold Graph.setVertex
  rw [Table.get?_insert]
  split
  · rename_i hj
    rw [hj, block_eq_ok.mp hb]
    rfl
  · rfl

theorem entry (h : c.Framed c') : c'.entry = c.entry := by rw [h.frame]

end FlowGraph.Framed

def Instruction.Marks (marked : String → Prop) (i j : Instruction) : Prop :=
  j = i ∨ ∃ v, marked v ∧ j = i.setTag Tag.tracked v

namespace Instruction.Marks

variable {marked : String → Prop} {i j : Instruction}

theorem index (h : i.Marks marked j) : j.index = i.index := by
  rcases h with rfl | ⟨v, -, rfl⟩ <;> rfl

theorem isInjected (h : i.Marks marked j) : j.isInjected = i.isInjected := by
  rcases h with rfl | ⟨v, -, rfl⟩
  · rfl
  · unfold Instruction.isInjected
    rw [hasTag_setTag, decide_eq_false (by decide), Bool.false_or]

theorem changeAt {place : Nat} {v : String} (h : i.Marks marked j) (hv : i.index = place → marked v) :
    i.Marks marked (Block.changeAt place (·.setTag Tag.tracked v) j) := by
  have hindex := h.index
  unfold Block.changeAt
  split
  · rename_i hplace
    refine .inr ⟨v, hv (hindex.symm.trans hplace), ?_⟩
    rcases h with rfl | ⟨w, -, rfl⟩
    · rfl
    · simp only [setTag, Table.insert_insert]
  · exact h

end Instruction.Marks

structure FlowGraph.Augments (marked : Location → String → Prop) (c₀ c : FlowGraph) : Prop where
  numbered : c.Numbered
  framed : c₀.Framed c
  blocks : ∀ k b, c₀.block k = .ok b → c.HasBlock k (b.Gains fun i => i.Marks (marked ⟨k, i.index⟩))

namespace FlowGraph.Augments

variable {marked : Location → String → Prop} {c₀ c c' : FlowGraph} {k : Nat} {l : Location}

theorem refl (numbered : c₀.Numbered) : c₀.Augments marked c₀ where
  numbered := numbered
  framed := .refl c₀
  blocks _ b hb := ⟨b, hb, .refl fun _ _ => .inl rfl⟩

theorem withTemps (h : c₀.Augments marked c) (next : Nat) : c₀.Augments marked (c.withTemps next) where
  numbered := h.numbered
  framed := h.framed.trans (.withTemps c next)
  blocks := h.blocks

theorem inject (h : c₀.Augments marked c) (numbered : c₀.Numbered) {position : Block → Nat} {v : String}
    {tags : List (String × String)} {operations : List Operation}
    (hc : c.modifyBlock k (fun b => b.inject (position b) ((Tag.injected, v) :: tags) operations) = .ok c') :
    c₀.Augments marked c' where
  numbered := numbered_of_inject h.numbered hc
  framed := h.framed.trans (.modifyBlock hc)
  blocks j b hb := (h.blocks j b hb).modifyBlock hc fun _ _ _ hgains hb' =>
    hgains.inject (numbered_iff.mp numbered j b hb).2 hb'

theorem setTag (h : c₀.Augments marked c) {v : String} (hv : marked l v)
    (hc : c.modifyInstruction l (·.setTag Tag.tracked v) = .ok c') : c₀.Augments marked c' where
  numbered := Edit.keeps_setTag l Tag.tracked v _ ⟨⟩ _ h.numbered (step_ok.mpr hc)
  framed := h.framed.trans (.modifyBlock hc)
  blocks j b hb := by
    obtain ⟨b₁, hb₁, hgains⟩ := h.blocks j b hb
    by_cases hj : j = l.block
    · subst hj
      obtain ⟨b₂, b', hb₂, hb', hl, -⟩ := block_modifyBlock hc
      cases hb₁.symm.trans hb₂
      refine ⟨b', hl, ?_⟩
      rw [(Block.modify_ok (numbered_iff.mp h.numbered _ b₁ hb₁).2 hb').2]
      refine hgains.map (fun i => ?_) fun i j hij => hij.changeAt fun hi => hi ▸ hv
      have hfollows : i.Follows (Block.changeAt l.instruction (·.setTag Tag.tracked v) i) := .setTag_changeAt (by decide)
      exact ⟨hfollows.index, hfollows.isInjected⟩
    · obtain ⟨_, _, _, _, _, hothers⟩ := block_modifyBlock hc
      exact ⟨b₁, (hothers j hj).trans hb₁, hgains⟩

theorem own (h : c₀.Augments marked c) {o : Operation} (hl : c₀.Stands l o) {b : Block} (hb : c.block l.block = .ok b)
    {i : Instruction} (hi : i ∈ b.instructions) (hindex : i.index = l.instruction) : i.isInjected = false := by
  obtain ⟨b₀, hb₀, i₀, hi₀, hindex₀, -, own₀⟩ := hl
  obtain ⟨b₁, hb₁, hgains⟩ := h.blocks _ b₀ hb₀
  cases hb.symm.trans hb₁
  obtain ⟨j, hj, hmarks⟩ := hgains.exists_of_mem hi₀
  have hsame : j.index = i.index := hmarks.index.trans (hindex₀.trans hindex.symm)
  obtain rfl := Block.eq_of_index_eq (numbered_iff.mp h.numbered _ b hb).2.2 hj hi hsame
  exact hmarks.isInjected.trans own₀

end FlowGraph.Augments

namespace ReportSite

variable {c : Configuration} {h : Hooks} {s s' : ReportSite} {l l' : Location} {c₀ c₁ c₂ : FlowGraph} {b b' : Block}

/-- What a site reports: the result of an allocator, the pointer that a deallocator takes, or the cell that a pointer is
stored to. -/
def subject : ReportSite → Value
  | .allocation _ dst _ => .variable dst
  | .free pointer => pointer
  | .escape destination => destination

def along : ReportSite → List Instruction → List Instruction
  | .free _, l => l.reverse
  | _, l => l

theorem along_congr (h : s'.tag = s.tag) : s'.along = s.along := by
  cases s <;> cases s' <;> first | rfl | simp [tag] at h

theorem along_map (f : Instruction → Instruction) (is : List Instruction) :
    s.along (is.map f) = (s.along is).map f := by
  cases s with
  | free => exact List.map_reverse.symm
  | _ => rfl

theorem mem_along {i : Instruction} {is : List Instruction} : i ∈ s.along is ↔ i ∈ is := by
  cases s with
  | free => exact List.mem_reverse
  | _ => exact Iff.rfl

theorem perm_along (is : List Instruction) : (s.along is).Perm is := by
  cases s with
  | free => exact List.reverse_perm is
  | _ => exact .refl _

theorem along_insert (front back : List Instruction) : ∃ front' back', s.along (front ++ back) = front' ++ back' ∧
    ∀ new, s.along (front ++ (new ++ back)) = front' ++ (s.along new ++ back') := by
  cases s with
  | free => exact ⟨back.reverse, front.reverse, by simp [along], fun new => by simp [along]⟩
  | _ => exact ⟨front, back, rfl, fun new => rfl⟩

theorem filter_along {test : Instruction → Bool} {is : List Instruction} {o : Operation}
    (h : (is.filter test).map (·.operation) = [o]) : ((s.along is).filter test).map (·.operation) = [o] := by
  cases s with
  | free =>
    change (is.reverse.filter test).map (·.operation) = [o]
    rw [List.filter_reverse, List.map_reverse, h]
    rfl
  | _ => exact h

/-- The report of a site goes next to it, with nothing but injected code in between. -/
theorem along_position {position : Nat} (hposition : s.position c₁ l = .ok position) (hb : c₁.block l.block = .ok b) :
    ∃ front i run back, i ∈ b.instructions ∧ i.index = l.instruction ∧ (∀ x ∈ run, x.isInjected = true) ∧
      s.along b.instructions = front ++ i :: (run ++ back) ∧
      ∀ new, s.along (b.instructions.take position ++ (new ++ b.instructions.drop position)) =
        front ++ i :: (run ++ (s.along new ++ back)) := by
  have behind : (do (← c₁.block l.block).positionAfter l.instruction) = Except.ok (ε := Failure) position →
      ∃ front i run back, i ∈ b.instructions ∧ i.index = l.instruction ∧ (∀ x ∈ run, x.isInjected = true) ∧
        b.instructions = front ++ i :: (run ++ back) ∧
        ∀ new, b.instructions.take position ++ (new ++ b.instructions.drop position) =
          front ++ i :: (run ++ (new ++ back)) := by
    intro hafter
    obtain ⟨b', hb', hafter⟩ := bind_eq_ok.mp hafter
    cases hb.symm.trans hb'
    obtain ⟨front, i, run, hindex, hrun, htake⟩ := Block.positionAfter_ok hafter
    have hall : b.instructions = front ++ i :: (run ++ b.instructions.drop position) := by
      conv_lhs => rw [← List.take_append_drop position b.instructions, htake]
      simp
    exact ⟨front, i, run, _, by rw [hall]; simp, hindex, hrun, hall, fun new => by rw [htake]; simp⟩
  cases s with
  | allocation => exact behind hposition
  | escape => exact behind hposition
  | free =>
    obtain ⟨b', i, hb', hindex, hdrop⟩ := position_ok hposition
    cases hb.symm.trans hb'
    refine ⟨(b.instructions.drop (position + 1)).reverse, i, [], (b.instructions.take position).reverse,
      List.mem_of_mem_drop (hdrop ▸ List.mem_cons_self), hindex, fun x hx => (List.not_mem_nil hx).elim, ?_,
      fun new => ?_⟩
    · change b.instructions.reverse = _
      conv_lhs => rw [← List.take_append_drop position b.instructions, hdrop]
      simp
    · rw [hdrop]
      simp [along]

/-- The report of a site ends with a call of its entry point about its subject, and calls nothing else. -/
theorem ends_operations (h : Hooks) (l : Location) (s : ReportSite) : Drafting.Ends (fun o => o.callee? = none)
    (fun o => ∃ arguments, o = .notify (s.hook h) (s.subject :: arguments)) (s.operations h l) := by
  have arg := fun arguments index => adds_argument (n := 0) (Q := fun o => o.callee? = none) l arguments index
  have widens := adds_widen (n := 0) (Q := fun o => o.callee? = none) fun _ _ _ _ _ => rfl
  have notifies := fun arguments => Drafting.Ends.perform (Q := fun o => o.callee? = none)
    (R := fun o => ∃ arguments, o = .notify (s.hook h) (s.subject :: arguments)) ⟨arguments, rfl⟩
  cases s with
  | allocation kind dst arguments =>
    cases kind with
    | malloc => exact .bind (arg _ _) fun _ => .bind (widens _) fun _ => notifies _
    | calloc =>
      exact .bind (arg _ _) fun _ => .bind (widens _) fun _ => .bind (arg _ _) fun _ => .bind (widens _) fun _ =>
        notifies _
    | realloc => exact .bind (arg _ _) fun _ => .bind (arg _ _) fun _ => .bind (widens _) fun _ => notifies _
  | free pointer => exact notifies _
  | escape destination => exact notifies _

theorem report_ok {u : Unit} (hrun : (s.report h l).run c₁ = .ok (u, c₂)) :
    ∃ next position operations arguments c₃, s.position c₁ l = .ok position ∧
      operations.filter (·.callee?.isSome) = [.notify (s.hook h) (s.subject :: arguments)] ∧
      (c₁.withTemps next).modifyBlock l.block (·.inject position [(Tag.injected, s.tag)] operations) = .ok c₃ ∧
      c₃.modifyInstruction l (·.setTag Tag.tracked s.tag) = .ok c₂ := by
  obtain ⟨⟨_, operations⟩, c₃, hcollect, hrest⟩ := Edit.bind_ok.mp hrun
  obtain ⟨position, c₄, hask, hmodify⟩ := Edit.bind_ok.mp hrest
  obtain ⟨hposition, rfl⟩ := ask_ok.mp hask
  obtain ⟨-, next, -, rfl⟩ := (adds_operations_extra (n := 0) (h := h) l s).collect_ok (Nat.zero_le _) hcollect
  obtain ⟨casts, _, rfl, hcasts, arguments, rfl⟩ := (ends_operations h l s).collect hcollect
  obtain ⟨c₅, hinject, htag⟩ := modifyBlock_bind (step_ok.mp hmodify)
  refine ⟨next, position, _, arguments, c₅, hposition, ?_, hinject, htag⟩
  rw [List.filter_append, List.filter_eq_nil_iff.mpr fun o ho => by rw [hcasts o ho]; exact Bool.false_ne_true]
  rfl

/-- Next to the instruction of a number stands new injected code that makes the given notifications of the kind of a
site. -/
def Adjoins (s : ReportSite) (b₀ : Block) (index : Nat) (notifications : List Operation) (b : Block) : Prop :=
  FollowedBy (b₀.isNotified s.tag) index notifications (s.along b.instructions)

section Adjoins

variable {b₀ : Block} {index position : Nat} {notifications operations : List Operation} {i : Instruction}

theorem adjoins_nil (hi : i ∈ b.instructions) (own : i.isInjected = false) : s.Adjoins b i.index [] b := by
  refine FollowedBy.of_mem (mem_along.mpr hi) own fun j hj => ?_
  unfold Block.isNotified
  rw [Block.knows_of_mem (mem_along.mp hj)]
  rfl

theorem Adjoins.setTag (hb : s.Adjoins b₀ index notifications b) {place : Nat} {key value : String}
    (hkey : Tag.injected ≠ key) :
    s.Adjoins b₀ index notifications
      { b with instructions := b.instructions.map (Block.changeAt place (·.setTag key value)) } := by
  unfold Adjoins
  rw [along_map]
  refine FollowedBy.map (fun j => ?_) hb
  have hfollows : j.Follows (Block.changeAt place (·.setTag key value) j) := .setTag_changeAt hkey
  refine ⟨hfollows.index, hfollows.isInjected, ?_, Block.tagAt_operation ..⟩
  unfold Block.isNotified Instruction.notifies
  rw [Block.knows_congr hfollows.index, hfollows.injected, Block.tagAt_operation]

/-- Code of another kind may go anywhere. -/
theorem Adjoins.inject_quiet (hb : s.Adjoins b₀ index notifications b) {v : String} (hv : v ≠ s.tag)
    (hb' : b.inject position [(Tag.injected, v)] operations = .ok b') : s.Adjoins b₀ index notifications b' := by
  unfold Adjoins at hb ⊢
  obtain ⟨front, back, hsplit, hinsert⟩ :=
    along_insert (s := s) (b.instructions.take position) (b.instructions.drop position)
  rw [List.take_append_drop] at hsplit
  rw [Block.inject_ok hb', hinsert]
  rw [hsplit] at hb
  refine hb.insert_quiet fun j hj => ?_
  have hj := mem_along.mp hj
  refine ⟨isInjected_of_mem_drafted hj, ?_⟩
  unfold Block.isNotified Instruction.notifies
  rw [tag?_of_mem_drafted hj, decide_eq_false fun heq => hv (Option.some.inj heq), Bool.false_and, Bool.and_false]

theorem Adjoins.inject_other (hb : s.Adjoins b₀ index notifications b) (hblock : c₁.block l'.block = .ok b)
    (hposition : s'.position c₁ l' = .ok position) (hl : l'.instruction ≠ index)
    (own : ∀ i ∈ b.instructions, i.index = l'.instruction → i.isInjected = false)
    (hb' : b.inject position [(Tag.injected, s'.tag)] operations = .ok b') : s.Adjoins b₀ index notifications b' := by
  by_cases htag : s'.tag = s.tag
  · obtain ⟨front, i, run, back, hi, hindex, hrun, hsplit, hinsert⟩ := along_position hposition hblock
    unfold Adjoins at hb ⊢
    rw [along_congr htag] at hsplit hinsert
    rw [hsplit] at hb
    rw [Block.inject_ok hb', hinsert]
    exact hb.insert_other (own i hi hindex) (hindex ▸ hl) hrun
  · exact hb.inject_quiet htag hb'

theorem Adjoins.inject_own (hb : s.Adjoins b₀ l.instruction [] b) (numbered₀ : b₀.Numbered) (numbered : b.Numbered)
    (hnext : b₀.nextIndex ≤ b.nextIndex) (hblock : c₁.block l.block = .ok b) (hposition : s.position c₁ l = .ok position)
    {o : Operation} (hoperations : operations.filter (·.callee?.isSome) = [o])
    (hb' : b.inject position [(Tag.injected, s.tag)] operations = .ok b') : s.Adjoins b₀ l.instruction [o] b' := by
  obtain ⟨front, i, run, back, hi, hindex, hrun, hsplit, hinsert⟩ := along_position hposition hblock
  unfold Adjoins at hb ⊢
  have distinct : ((s.along b.instructions).map (·.index)).Nodup := ((perm_along _).map _).nodup_iff.mpr numbered.2
  rw [hsplit] at hb distinct
  rw [Block.inject_ok hb', hinsert]
  have hnew := hb.insert_own distinct hindex hrun
    fun j (hj : j ∈ s.along (drafted [(Tag.injected, s.tag)] b.nextIndex operations)) =>
      isInjected_of_mem_drafted (mem_along.mp hj)
  -- All of the report is new and of the kind of the site, and one operation of it is a call.
  have hcalls : ∀ j ∈ drafted [(Tag.injected, s.tag)] b.nextIndex operations,
      b₀.isNotified s.tag j = j.operation.callee?.isSome := fun j hj => by
    unfold Block.isNotified Instruction.notifies
    rw [Block.not_knows_of_mem_drafted numbered₀ hnext hj, tag?_of_mem_drafted hj, decide_eq_true rfl]
    rfl
  rw [filter_along (o := o)] at hnew
  · exact hnew
  · rw [List.filter_congr hcalls, ← hoperations]
    conv_rhs => rw [← drafted_operations [(Tag.injected, s.tag)] b.nextIndex operations]
    rw [List.filter_map]
    rfl

end Adjoins

section Runs

variable {marked : Location → String → Prop} {b₀ : Block} {notifications : List Operation} {o : Operation}
  {sites : List (Location × ReportSite)}

theorem augments_report (hc : c₀.Augments marked c₁) (numbered : c₀.Numbered) (hmarked : marked l s.tag) {u : Unit}
    (hrun : (s.report h l).run c₁ = .ok (u, c₂)) : c₀.Augments marked c₂ := by
  obtain ⟨next, position, operations, arguments, c₃, -, -, hinject, htag⟩ := report_ok hrun
  exact ((hc.withTemps next).inject numbered hinject).setTag hmarked htag

theorem adjoins_report_other (hc : c₀.Augments marked c₁) (hl : c₀.Stands l' o) (hne : l' ≠ l)
    (hs : c₁.HasBlock l.block (s.Adjoins b₀ l.instruction notifications)) {u : Unit}
    (hrun : (s'.report h l').run c₁ = .ok (u, c₂)) :
    c₂.HasBlock l.block (s.Adjoins b₀ l.instruction notifications) := by
  obtain ⟨next, position, operations, arguments, c₃, hposition, -, hinject, htag⟩ := report_ok hrun
  have numbered₃ := numbered_of_inject (c := c₁.withTemps next) hc.numbered hinject
  have hs₃ : c₃.HasBlock l.block (s.Adjoins b₀ l.instruction notifications) := by
    obtain ⟨b, hb, hadjoins⟩ := hs
    obtain ⟨b₁, b', hb₁, hb', hl', hothers⟩ := block_modifyBlock hinject
    by_cases hblock : l.block = l'.block
    · rw [hblock] at hb ⊢
      cases hb.symm.trans hb₁
      refine ⟨b', hl', hadjoins.inject_other hb hposition (fun hindex => hne ?_) (fun i => hc.own hl hb) hb'⟩
      cases l
      cases hblock
      cases hindex
      rfl
    · exact ⟨b, (hothers _ hblock).trans hb, hadjoins⟩
  refine hs₃.modifyBlock htag fun b b' hb hadjoins hb' => ?_
  rw [(Block.modify_ok (numbered_iff.mp numbered₃ _ b hb).2 hb').2]
  exact hadjoins.setTag (by decide)

theorem adjoins_report_own (hc : c₀.Augments marked c₁) (numbered : c₀.Numbered) (hb₀ : c₀.block l.block = .ok b₀)
    (hs : c₁.HasBlock l.block (s.Adjoins b₀ l.instruction [])) {u : Unit} (hrun : (s.report h l).run c₁ = .ok (u, c₂)) :
    ∃ arguments, c₂.HasBlock l.block (s.Adjoins b₀ l.instruction [.notify (s.hook h) (s.subject :: arguments)]) := by
  obtain ⟨next, position, operations, arguments, c₃, hposition, hoperations, hinject, htag⟩ := report_ok hrun
  have numbered₃ := numbered_of_inject (c := c₁.withTemps next) hc.numbered hinject
  obtain ⟨b, hb, hgains⟩ := hc.blocks _ b₀ hb₀
  obtain ⟨b₁, hb₁, hadjoins⟩ := hs
  cases hb.symm.trans hb₁
  obtain ⟨b₂, b', hb₂, hb', hl, -⟩ := block_modifyBlock hinject
  cases hb.symm.trans hb₂
  have hs₃ : c₃.HasBlock l.block (s.Adjoins b₀ l.instruction [.notify (s.hook h) (s.subject :: arguments)]) :=
    ⟨b', hl, hadjoins.inject_own (numbered_iff.mp numbered _ b₀ hb₀).2 (numbered_iff.mp hc.numbered _ b hb).2 hgains.next
      hb hposition hoperations hb'⟩
  refine ⟨arguments, hs₃.modifyBlock htag fun b b' hb hadjoins hb' => ?_⟩
  rw [(Block.modify_ok (numbered_iff.mp numbered₃ _ b hb).2 hb').2]
  exact hadjoins.setTag (by decide)

theorem augments_reports (hc : c₀.Augments marked c₁) (numbered : c₀.Numbered)
    (hmarked : ∀ e ∈ sites, marked e.1 e.2.tag) {u : PUnit}
    (hrun : (sites.forM fun e => e.2.report h e.1).run c₁ = .ok (u, c₂)) : c₀.Augments marked c₂ :=
  Keeps.forM (P := c₀.Augments marked)
    (fun e he _ _ _ hc hrun => augments_report hc numbered (hmarked e he) hrun) c₁ u c₂ hc hrun

theorem adjoins_reports_other (hc : c₀.Augments marked c₁) (numbered : c₀.Numbered)
    (hsites : ∀ e ∈ sites, marked e.1 e.2.tag ∧ ∃ o, c₀.Stands e.1 o) (hne : l ∉ sites.map (·.1))
    (hs : c₁.HasBlock l.block (s.Adjoins b₀ l.instruction notifications)) {u : PUnit}
    (hrun : (sites.forM fun e => e.2.report h e.1).run c₁ = .ok (u, c₂)) :
    c₂.HasBlock l.block (s.Adjoins b₀ l.instruction notifications) := by
  refine (Keeps.forM (P := fun c => c₀.Augments marked c ∧ c.HasBlock l.block (s.Adjoins b₀ l.instruction notifications))
    (fun e he c u c' hc hrun => ?_) c₁ u c₂ ⟨hc, hs⟩ hrun).2
  obtain ⟨hmarked, o, hstands⟩ := hsites e he
  refine ⟨augments_report hc.1 numbered hmarked hrun, adjoins_report_other hc.1 hstands ?_ hc.2 hrun⟩
  rintro rfl
  exact hne (List.mem_map_of_mem he)

theorem adjoins_reports (hc : c₀.Augments marked c₁) (numbered : c₀.Numbered)
    (hsites : ∀ e ∈ sites, marked e.1 e.2.tag ∧ ∃ o, c₀.Stands e.1 o) (distinct : (sites.map (·.1)).Nodup)
    (hl : (l, s) ∈ sites) (hb₀ : c₀.block l.block = .ok b₀)
    (hs : c₁.HasBlock l.block (s.Adjoins b₀ l.instruction [])) {u : PUnit}
    (hrun : (sites.forM fun e => e.2.report h e.1).run c₁ = .ok (u, c₂)) :
    ∃ arguments, c₂.HasBlock l.block (s.Adjoins b₀ l.instruction [.notify (s.hook h) (s.subject :: arguments)]) := by
  induction sites generalizing c₁ with
  | nil => cases hl
  | cons e rest ih =>
    obtain ⟨_, c₃, hfirst, hrest⟩ := Edit.bind_ok.mp hrun
    rw [List.map_cons, List.nodup_cons] at distinct
    obtain ⟨hmarked, o, hstands⟩ := hsites e List.mem_cons_self
    have hc₃ := augments_report hc numbered hmarked hfirst
    have hothers := fun e he => hsites e (List.mem_cons_of_mem _ he)
    rcases List.mem_cons.mp hl with rfl | hl
    · obtain ⟨arguments, hs₃⟩ := adjoins_report_own hc numbered hb₀ hs hfirst
      exact ⟨arguments, adjoins_reports_other hc₃ numbered hothers distinct.1 hs₃ hrest⟩
    · have hne : e.1 ≠ l := by
        rintro rfl
        exact distinct.1 (List.mem_map.mpr ⟨_, hl, rfl⟩)
      exact ih hc₃ hothers distinct.2 hl (adjoins_report_other hc hstands hne hs hfirst) hrest

theorem tally_report (numbered : c₁.Numbered) (kind : String) {u : Unit} (hrun : (s.report h l).run c₁ = .ok (u, c₂)) :
    c₂.tally (·.notifies kind) = c₁.tally (·.notifies kind) + if s.tag = kind then 1 else 0 := by
  obtain ⟨next, position, operations, arguments, c₃, -, hoperations, hinject, htag⟩ := report_ok hrun
  have numbered₃ := numbered_of_inject (c := c₁.withTemps next) numbered hinject
  have hone : operations.countP (·.callee?.isSome) = 1 := by
    rw [List.countP_eq_length_filter, hoperations]
    rfl
  have hcount : ∀ next, (drafted [(Tag.injected, s.tag)] next operations).countP (·.notifies kind) =
      if s.tag = kind then 1 else 0 := fun next => by
    rw [countP_notifies_drafted, hone]
  rw [tally_modifyInstruction numbered₃ (fun i => ?_) htag, tally_inject hcount hinject]
  · rfl
  · have hfollows : i.Follows (Block.changeAt l.instruction (·.setTag Tag.tracked s.tag) i) := .setTag_changeAt (by decide)
    unfold Instruction.notifies
    rw [hfollows.injected, Block.tagAt_operation]

theorem tally_reports (numbered : c₁.Numbered) (kind : String) {u : PUnit}
    (hrun : (sites.forM fun e => e.2.report h e.1).run c₁ = .ok (u, c₂)) :
    c₂.tally (·.notifies kind) =
      c₁.tally (·.notifies kind) + (sites.map fun e => if e.2.tag = kind then 1 else 0).sum := by
  induction sites generalizing c₁ with
  | nil =>
    obtain ⟨-, rfl⟩ := pure_ok.mp hrun
    rfl
  | cons e rest ih =>
    obtain ⟨_, c₃, hfirst, hrest⟩ := Edit.bind_ok.mp hrun
    rw [ih (keeps_report h e.1 e.2 _ _ _ numbered hfirst) hrest, tally_report numbered kind hfirst, List.map_cons,
      List.sum_cons, Nat.add_assoc]

theorem unmarked_report_other (numbered : c₁.Numbered) (hne : l' ≠ l)
    (hs : c₁.HasBlock l.block (·.Unmarked l.instruction)) {u : Unit}
    (hrun : (s'.report h l').run c₁ = .ok (u, c₂)) : c₂.HasBlock l.block (·.Unmarked l.instruction) := by
  obtain ⟨next, position, operations, arguments, c₃, -, -, hinject, htag⟩ := report_ok hrun
  have numbered₃ := numbered_of_inject (c := c₁.withTemps next) numbered hinject
  obtain ⟨b, hb, hunmarked⟩ := HasBlock.modifyBlock (c := c₁.withTemps next) hs hinject fun _ _ _ hb hb' => hb.inject hb'
  obtain ⟨b₁, b', hb₁, hb', hl', hothers⟩ := block_modifyBlock htag
  by_cases hblock : l.block = l'.block
  · rw [hblock] at hb ⊢
    cases hb.symm.trans hb₁
    refine ⟨b', hl', ?_⟩
    rw [(Block.modify_ok (numbered_iff.mp numbered₃ _ b hb).2 hb').2]
    intro j hj hindex
    obtain ⟨i, hi, rfl⟩ := List.mem_map.mp hj
    rw [Block.tagAt_index] at hindex
    have hother : i.index ≠ l'.instruction := by
      intro heq
      refine hne ?_
      cases l
      cases hblock
      cases hindex.symm.trans heq
      rfl
    rw [Block.changeAt, if_neg hother]
    exact hunmarked i hi hindex
  · exact ⟨b, (hothers _ hblock).trans hb, hunmarked⟩

theorem tally_isTracked_report (numbered : c₁.Numbered) (hs : c₁.HasBlock l.block (·.Unmarked l.instruction))
    (kind : String) {u : Unit} (hrun : (s.report h l).run c₁ = .ok (u, c₂)) :
    c₂.tally (·.isTracked kind) = c₁.tally (·.isTracked kind) + if s.tag = kind then 1 else 0 := by
  obtain ⟨next, position, operations, arguments, c₃, -, -, hinject, htag⟩ := report_ok hrun
  have numbered₃ := numbered_of_inject (c := c₁.withTemps next) numbered hinject
  obtain ⟨b, hb, hunmarked⟩ := HasBlock.modifyBlock (c := c₁.withTemps next) hs hinject fun _ _ _ hb hb' => hb.inject hb'
  have hinjected : c₃.tally (·.isTracked kind) = c₁.tally (·.isTracked kind) + 0 :=
    tally_inject (c := c₁.withTemps next)
      (fun next => countP_isTracked_drafted s.tag kind next operations) hinject
  rw [← Nat.add_zero (c₁.tally _), ← hinjected]
  refine tally_modifyBlock (fun b₁ b' hb₁ hb' => ?_) htag
  cases hb.symm.trans hb₁
  have numbered' := (numbered_iff.mp numbered₃ _ b hb).2
  obtain ⟨⟨i, hi, hindex⟩, rfl⟩ := Block.modify_ok numbered' hb'
  have hnone : i.isTracked kind = false := decide_eq_false fun heq => by
    have hhas : i.hasTag Tag.tracked = true := Option.isSome_iff_exists.mpr ⟨_, heq⟩
    rw [hunmarked i hi hindex] at hhas
    cases hhas
  rw [← hindex, Block.countP_changeAt numbered'.2 hi hnone]
  congr 1
  unfold Instruction.isTracked
  simp only [tag?_setTag, if_true, Option.some.injEq, decide_eq_true_eq]

theorem tally_isTracked_reports (numbered : c₁.Numbered) (distinct : (sites.map (·.1)).Nodup)
    (hs : ∀ e ∈ sites, c₁.HasBlock e.1.block (·.Unmarked e.1.instruction)) (kind : String) {u : PUnit}
    (hrun : (sites.forM fun e => e.2.report h e.1).run c₁ = .ok (u, c₂)) :
    c₂.tally (·.isTracked kind) =
      c₁.tally (·.isTracked kind) + (sites.map fun e => if e.2.tag = kind then 1 else 0).sum := by
  induction sites generalizing c₁ with
  | nil =>
    obtain ⟨-, rfl⟩ := pure_ok.mp hrun
    rfl
  | cons e rest ih =>
    obtain ⟨_, c₃, hfirst, hrest⟩ := Edit.bind_ok.mp hrun
    rw [List.map_cons, List.nodup_cons] at distinct
    have hothers : ∀ e' ∈ rest, c₃.HasBlock e'.1.block (·.Unmarked e'.1.instruction) := fun e' he' =>
      unmarked_report_other numbered (fun hsame => distinct.1 (List.mem_map.mpr ⟨e', he', hsame.symm⟩))
        (hs e' (List.mem_cons_of_mem _ he')) hfirst
    rw [ih (keeps_report h e.1 e.2 _ _ _ numbered hfirst) distinct.2 hothers hrest,
      tally_isTracked_report numbered (hs e List.mem_cons_self) kind hfirst, List.map_cons, List.sum_cons, Nat.add_assoc]

end Runs

end ReportSite

end RegionGuard

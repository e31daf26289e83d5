import RegionGuard.Proofs.CustodyStates
import RegionGuard.Proofs.Lockstep
set_option autoImplicit false

namespace RegionGuard

namespace Instruction

theorem tag?_setTag (i : Instruction) (key value k : String) :
    (i.setTag key value).tag? k = if k = key then some value else i.tag? k := Table.get?_insert ..

theorem hasTag_setTag (i : Instruction) (key value k : String) :
    (i.setTag key value).hasTag k = (decide (k = key) || i.hasTag k) := by
  unfold hasTag Table.contains
  change ((i.setTag key value).tag? k).isSome = (decide (k = key) || (i.tag? k).isSome)
  rw [tag?_setTag]
  split <;> simp [*]

theorem hasTag_setTags {i : Instruction} {k : String} (h : i.hasTag k = true) (tags : List (String × String)) :
    (i.setTags tags).hasTag k = true := by
  unfold setTags
  induction tags generalizing i with
  | nil => exact h
  | cons t rest ih =>
    refine ih ?_
    rw [hasTag_setTag, h, Bool.or_true]

theorem isInjected_setTags (i : Instruction) (v : String) (tags : List (String × String)) :
    (i.setTags ((Tag.injected, v) :: tags)).isInjected = true := by
  refine hasTag_setTags (i := i.setTag Tag.injected v) ?_ tags
  rw [hasTag_setTag, decide_eq_true rfl, Bool.true_or]

theorem isInjected_of_mem_drafted {v : String} {tags : List (String × String)} {next : Nat} {operations : List Operation}
    {i : Instruction} (h : i ∈ drafted ((Tag.injected, v) :: tags) next operations) : i.isInjected = true := by
  induction operations generalizing next with
  | nil => cases h
  | cons o rest ih =>
    rcases List.mem_cons.mp h with rfl | h
    · exact isInjected_setTags _ v tags
    · exact ih h

end Instruction

namespace Instruction

/-- An instruction is due if it does what a pass looks for, was not injected and lacks the tag of the pass. -/
def IsDue (key : String) (wants : Operation → Prop) (i : Instruction) : Prop :=
  i.isInjected = false ∧ i.hasTag key = false ∧ wants i.operation

variable {key : String} {wants : Operation → Prop} {i : Instruction}

theorem not_isDue_setTag (value : String) : ¬ (i.setTag key value).IsDue key wants := by
  intro hdue
  have hnot := hdue.2.1
  rw [hasTag_setTag, decide_eq_true rfl, Bool.true_or] at hnot
  cases hnot

theorem isDue_of_setTag {k value : String} (hdue : (i.setTag k value).IsDue key wants) : i.IsDue key wants := by
  obtain ⟨hinjected, hkey, hwants⟩ := hdue
  unfold isInjected at hinjected
  rw [hasTag_setTag, Bool.or_eq_false_iff] at hinjected hkey
  exact ⟨hinjected.2, hkey.2, hwants⟩

theorem hasTag_renameIncoming (i : Instruction) (old new : Nat) (k : String) :
    (GuardDecision.renameIncoming old new i).hasTag k = i.hasTag k := by
  unfold GuardDecision.renameIncoming
  split <;> rfl

theorem isDue_of_renameIncoming (hphi : ∀ dst incoming, ¬ wants (.phi dst incoming)) {old new : Nat}
    (hdue : (GuardDecision.renameIncoming old new i).IsDue key wants) : i.IsDue key wants := by
  obtain ⟨hinjected, hkey, hwants⟩ := hdue
  unfold isInjected at hinjected
  rw [hasTag_renameIncoming] at hinjected hkey
  refine ⟨hinjected, hkey, ?_⟩
  unfold GuardDecision.renameIncoming at hwants
  split at hwants
  · exact absurd hwants (hphi _ _)
  · exact hwants

/-- The second instruction is the first, with other tags than that of injected code, and a phi may take something
else. -/
structure Follows (i j : Instruction) : Prop where
  index : j.index = i.index
  injected : j.tag? Tag.injected = i.tag? Tag.injected
  operation : i.operation.isPhi = false → j.operation = i.operation
  written : j.operation.written? = i.operation.written?

namespace Follows

theorem setTag_changeAt {index : Nat} {k value : String} (hk : Tag.injected ≠ k) :
    i.Follows (Block.changeAt index (·.setTag k value) i) where
  index := Block.tagAt_index index k value i
  injected := by
    unfold Block.changeAt
    split
    · rw [tag?_setTag, if_neg hk]
    · rfl
  operation _ := Block.tagAt_operation index k value i
  written := congrArg Operation.written? (Block.tagAt_operation index k value i)

theorem renameIncoming {old new : Nat} : i.Follows (GuardDecision.renameIncoming old new i) where
  index := (GuardDecision.renameIncoming_fields old new i).1
  injected := by
    unfold GuardDecision.renameIncoming
    split <;> rfl
  operation notPhi := by
    unfold GuardDecision.renameIncoming
    split
    · rename_i ho
      rw [ho] at notPhi
      cases notPhi
    · rfl
  written := by
    unfold GuardDecision.renameIncoming
    split
    · rename_i ho
      rw [ho]
      rfl
    · rfl

theorem isInjected {i j : Instruction} (h : i.Follows j) : j.isInjected = i.isInjected :=
  congrArg Option.isSome h.injected

end Follows

end Instruction

/-- Guards compute temporaries from a number on, and call the entry points for addresses and for the stack. -/
def Operation.IsGuarding (h : Hooks) (n : Nat) (o : Operation) : Prop :=
  (∃ dst, o.computes? = some dst ∧ dst.IsUpcoming n) ∨
    ∃ name, (name = h.guardAddress ∨ name = h.guardCalleeStack) ∧ ∃ arguments, o = .notify name arguments

theorem Operation.MayHoist.isGuarding {m : Margin} {o : Operation} (ho : o.MayHoist m) {n : Nat} (hn : n ≤ m.temps) :
    o.IsGuarding m.hooks n := by
  rcases ho with ⟨dst, hdst, hup⟩ | ⟨address, flag, rfl⟩
  · exact .inl ⟨dst, hdst, hup.mono hn⟩
  · exact .inr ⟨m.hooks.guardAddress, .inl rfl, _, rfl⟩

theorem GuardCode.isGuarding_of_mem {h : Hooks} {v : Value} {a : Access} {n number : Nat} (hn : n ≤ number)
    {o : Operation} (ho : o ∈ guards h v a number) : o.IsGuarding h n := by
  rcases List.mem_cons.mp ho with rfl | ho
  · exact .inl ⟨_, rfl, Variable.isUpcoming_temporary.mpr hn⟩
  · rw [List.mem_singleton.mp ho]
    exact .inr ⟨h.guardAddress, .inl rfl, _, rfl⟩

def Operation.callsGuard (h : Hooks) (o : Operation) : Bool :=
  o.callee? = some h.guardAddress || o.callee? = some h.guardCalleeStack

theorem Operation.Computes.callsGuard {n : Nat} {o : Operation} (ho : o.Computes n) (h : Hooks) :
    o.callsGuard h = false := by
  obtain ⟨dst, hdst, -⟩ := ho
  cases o with
  | call => cases hdst
  | _ => rfl

namespace GuardCode

open Drafting

variable {h : Hooks}

theorem callsGuard_guardAddress (arguments : List Value) :
    (Operation.notify h.guardAddress arguments).callsGuard h = true := by
  simp [Operation.callsGuard, Operation.callee?, Operation.notify, CallTarget.name?]

theorem callsGuard_guardCalleeStack (arguments : List Value) :
    (Operation.notify h.guardCalleeStack arguments).callsGuard h = true := by
  simp [Operation.callsGuard, Operation.callee?, Operation.notify, CallTarget.name?]

theorem counts_entersLoop (plan : RangePlan) : Counts (·.callsGuard h) 0 (entersLoop plan) :=
  .of_adds (adds_compute fun _ => rfl) fun _ ho => ho.callsGuard h

theorem counts_guardPointer (pointer : Value) (access : Access) :
    Counts (·.callsGuard h) 1 (guardPointer h pointer access) := by
  have haddress : Counts (·.callsGuard h) 0 (compute (.integer 64) (.cast · .ptrToInt pointer)) :=
    .of_adds (Q := (·.Computes 0)) (adds_compute fun _ => rfl) fun _ ho => ho.callsGuard h
  exact haddress.bind fun _ => .perform (callsGuard_guardAddress _)

theorem countP_guards (v : Value) (a : Access) (number : Nat) :
    (guards h v a number).countP (·.callsGuard h) = 1 := by
  have hcast : (Operation.cast (.temporary number (.integer 64)) .ptrToInt v).callsGuard h = false := rfl
  simp [guards, hcast, callsGuard_guardAddress]

theorem counts_guardRange (plan : RangePlan) (access : Access) (enters : Option Value) :
    Counts (·.callsGuard h) 2 (guardRange h plan access enters) := by
  have hpointer : ∀ value, Counts (·.callsGuard h) 0 (rebuildPointer plan value) := fun value =>
    .of_adds (adds_rebuildPointer plan value) fun _ ho => ho.callsGuard h
  have hlast : Counts (·.callsGuard h) 0 (lastIteration plan) :=
    .of_adds (adds_lastIteration plan) fun _ ho => ho.callsGuard h
  have hguards : ∀ first value, Counts (·.callsGuard h) 2 (do
      let last ← rebuildPointer plan value
      guardPointer h first access
      guardPointer h last access) := fun first value =>
    (hpointer value).bind fun last => (counts_guardPointer first access).bind fun _ =>
      counts_guardPointer last access
  have hall : Counts (·.callsGuard h) (0 + (0 + (0 + 2))) (guardRange h plan access enters) := by
    refine (hpointer _).bind fun first => hlast.bind fun counted => ?_
    cases enters with
    | some test =>
      exact (Counts.of_adds (Q := (·.Computes 0)) (adds_compute fun _ => rfl) fun _ ho => ho.callsGuard h).bind
        (hguards first)
    | none =>
      exact (Counts.of_adds (Q := (·.Computes 0)) (.answer _) fun _ ho => ho.callsGuard h).bind (hguards first)
  exact hall

end GuardCode

namespace FlowGraph

variable {c c' : FlowGraph} {k : Nat}

def DueOnly (key : String) (wants : Operation → Prop) (pending : Location → Prop) (c : FlowGraph) : Prop :=
  ∀ k b, c.block k = .ok b → ∀ i ∈ b.instructions, i.IsDue key wants → pending ⟨k, i.index⟩

def Marked (k : Nat) (value : String) (c : FlowGraph) : Prop :=
  ∃ b, c.block k = .ok b ∧ ∃ i ∈ b.instructions, i.tag? Tag.injected = some value

/-- What is left alone by the steps of a pass that injects tagged code and tags instructions. -/
structure Indifferent (P : FlowGraph → Prop) : Prop where
  temps : ∀ (c : FlowGraph) next, P c → P (c.withTemps next)
  blocks : ∀ (c c' : FlowGraph), P c → c'.graph.vertices = c.graph.vertices → c'.entry = c.entry → P c'
  newBlock : ∀ (c c' : FlowGraph) k, P c → c.newBlock = .ok (k, c') → P c'
  inject : ∀ (c c' : FlowGraph) k (position : Block → Nat) v tags operations, P c →
    c.modifyBlock k (fun b => b.inject (position b) ((Tag.injected, v) :: tags) operations) = .ok c' → P c'
  guarded : ∀ (c c' : FlowGraph) l value, P c → c.modifyInstruction l (·.setTag Tag.guarded value) = .ok c' → P c'
  renamed : ∀ (c c' : FlowGraph) k old new, P c → c.modifyBlock k (fun b => pure { b with
    instructions := b.instructions.map (GuardDecision.renameIncoming old new) }) = .ok c' → P c'

/-- What is left alone by the steps of the passes that inject guards, whatever code guards consist of. The
temporaries are those from a number on. -/
structure Steadfast (h : Hooks) (n : Nat) (P : FlowGraph → Prop) : Prop where
  bound : ∀ (c : FlowGraph), P c → n ≤ c.nextTemp
  temps : ∀ (c : FlowGraph) next, c.nextTemp ≤ next → P c → P (c.withTemps next)
  blocks : ∀ (c c' : FlowGraph), P c → c'.graph.vertices = c.graph.vertices → c'.entry = c.entry →
    c'.nextTemp = c.nextTemp → P c'
  newBlock : ∀ (c c' : FlowGraph) k, P c → c.newBlock = .ok (k, c') → P c'
  inject : ∀ (c c' : FlowGraph) k (position : Block → Nat) v tags operations, P c →
    (∀ o ∈ operations, o.IsGuarding h n) →
    c.modifyBlock k (fun b => b.inject (position b) ((Tag.injected, v) :: tags) operations) = .ok c' → P c'
  guarded : ∀ (c c' : FlowGraph) l value, P c → c.modifyInstruction l (·.setTag Tag.guarded value) = .ok c' → P c'
  renamed : ∀ (c c' : FlowGraph) k old new, P c → c.modifyBlock k (fun b => pure { b with
    instructions := b.instructions.map (GuardDecision.renameIncoming old new) }) = .ok c' → P c'

/-- What holds of a graph with a number of guards, and still does of more of them after the steps of the passes that
inject guards. Code goes to the start of a block, in front of its terminator, or where it fits. -/
structure Tallied (h : Hooks) (n : Nat) (fits : Block → Nat → Prop) (P : Nat → FlowGraph → Prop) : Prop where
  start : ∀ b : Block, fits b 0
  terminator : ∀ b : Block, fits b b.terminatorPosition
  bound : ∀ m (c : FlowGraph), P m c → n ≤ c.nextTemp
  temps : ∀ m (c : FlowGraph) next, c.nextTemp ≤ next → P m c → P m (c.withTemps next)
  blocks : ∀ m (c c' : FlowGraph), P m c → c'.graph.vertices = c.graph.vertices → c'.entry = c.entry →
    c'.nextTemp = c.nextTemp → P m c'
  newBlock : ∀ m (c c' : FlowGraph) k, P m c → c.newBlock = .ok (k, c') → P m c'
  inject : ∀ m (c c' : FlowGraph) k (position : Block → Nat) v tags operations, P m c →
    (∀ o ∈ operations, o.IsGuarding h n) → (∀ b, c.block k = .ok b → fits b (position b)) →
    c.modifyBlock k (fun b => b.inject (position b) ((Tag.injected, v) :: tags) operations) = .ok c' →
    P (m + operations.countP (·.callsGuard h)) c'
  guarded : ∀ m (c c' : FlowGraph) l value, P m c →
    c.modifyInstruction l (·.setTag Tag.guarded value) = .ok c' → P m c'
  renamed : ∀ m (c c' : FlowGraph) k old new, P m c → c.modifyBlock k (fun b => pure { b with
    instructions := b.instructions.map (GuardDecision.renameIncoming old new) }) = .ok c' → P m c'

theorem Steadfast.tallied {h : Hooks} {n : Nat} {P : FlowGraph → Prop} (hP : Steadfast h n P) :
    Tallied h n (fun _ _ => True) fun _ => P where
  start _ := trivial
  terminator _ := trivial
  bound _ := hP.bound
  temps _ := hP.temps
  blocks _ := hP.blocks
  newBlock _ := hP.newBlock
  inject _ c c' k position v tags operations hc ho _ hi := hP.inject c c' k position v tags operations hc ho hi
  guarded _ := hP.guarded
  renamed _ := hP.renamed

theorem Indifferent.steadfast {P : FlowGraph → Prop} (hP : Indifferent P) (h : Hooks) : Steadfast h 0 P where
  bound _ _ := Nat.zero_le _
  temps c next _ hc := hP.temps c next hc
  blocks c c' hc hv he _ := hP.blocks c c' hc hv he
  newBlock := hP.newBlock
  inject c c' k position v tags operations hc _ hi := hP.inject c c' k position v tags operations hc hi
  guarded := hP.guarded
  renamed := hP.renamed

theorem Tallied.insertEdge {h : Hooks} {n m : Nat} {fits : Block → Nat → Prop} {P : Nat → FlowGraph → Prop}
    (hP : Tallied h n fits P) {head tail : Nat} {condition : Option Condition} (hc : P m c)
    (hedge : c.insertEdge head tail condition = .ok c') : P m c' := by
  have hsame := (insertEdge_ok hedge).2
  exact hP.blocks m c c' hc (insertEdge_vertices hedge) (by rw [hsame]) (by rw [hsame])

theorem Tallied.removeEdge {h : Hooks} {n m : Nat} {fits : Block → Nat → Prop} {P : Nat → FlowGraph → Prop}
    (hP : Tallied h n fits P) {head tail : Nat} {e : Edge} (hc : P m c)
    (hedge : c.removeEdge head tail = .ok (e, c')) : P m c' := by
  have hsame := (removeEdge_ok hedge).2
  exact hP.blocks m c c' hc (removeEdge_vertices hedge) (by rw [hsame]) (by rw [hsame])

theorem indifferent_and {P Q : FlowGraph → Prop} (hp : Indifferent P) (hq : Indifferent Q) :
    Indifferent fun c => P c ∧ Q c where
  temps c next h := ⟨hp.temps c next h.1, hq.temps c next h.2⟩
  blocks c c' h hv he := ⟨hp.blocks c c' h.1 hv he, hq.blocks c c' h.2 hv he⟩
  newBlock c c' k h hn := ⟨hp.newBlock c c' k h.1 hn, hq.newBlock c c' k h.2 hn⟩
  inject c c' k position v tags operations h hi :=
    ⟨hp.inject c c' k position v tags operations h.1 hi, hq.inject c c' k position v tags operations h.2 hi⟩
  guarded c c' l value h hg := ⟨hp.guarded c c' l value h.1 hg, hq.guarded c c' l value h.2 hg⟩
  renamed c c' k old new h hr := ⟨hp.renamed c c' k old new h.1 hr, hq.renamed c c' k old new h.2 hr⟩

theorem indifferent_numbered : Indifferent Numbered where
  temps _ _ h := h
  blocks _ _ h hv _ := numbered_of_vertices h hv
  newBlock _ _ _ h hn := numbered_of_newBlock h hn
  inject _ _ _ _ _ _ _ h hi := numbered_of_inject h hi
  guarded _ _ l value h hg := Edit.keeps_setTag l Tag.guarded value _ ⟨⟩ _ h (Edit.step_ok.mpr hg)
  renamed _ _ _ old new h hr := numbered_of_modifyBlock (fun b b' hb hb' => by
    cases hb'
    exact ⟨Block.numbered_of_map (fun i => (GuardDecision.renameIncoming_fields _ _ i).1) hb, rfl⟩) h hr

theorem indifferent_entry (entry : Nat) : Indifferent (·.entry = some entry) where
  temps _ _ h := h
  blocks _ _ h _ he := he.trans h
  newBlock _ _ _ h hn := (newBlock_ok hn).2.2.1.trans h
  inject _ _ _ _ _ _ _ h hi := (modifyBlock_fields hi).1.trans h
  guarded _ _ _ _ h hg := (modifyBlock_fields hg).1.trans h
  renamed _ _ _ _ _ h hr := (modifyBlock_fields hr).1.trans h

theorem block_of_modifyBlock {f : Block → Outcome Block} (h : c.modifyBlock k f = .ok c') {j : Nat} {b : Block}
    (hb : c'.block j = .ok b) : (j ≠ k ∧ c.block j = .ok b) ∨ j = k ∧ ∃ b₀, c.block k = .ok b₀ ∧ f b₀ = .ok b := by
  obtain ⟨b₀, b', hb₀, hb', hk, hothers⟩ := block_modifyBlock h
  by_cases hj : j = k
  · subst hj
    cases hk.symm.trans hb
    exact .inr ⟨rfl, b₀, hb₀, hb'⟩
  · exact .inl ⟨hj, (hothers j hj).symm.trans hb⟩

section Due

variable {key : String} {wants : Operation → Prop} {pending : Location → Prop}

theorem DueOnly.inject (hc : c.DueOnly key wants pending) {position : Block → Nat} {v : String}
    {tags : List (String × String)} {operations : List Operation}
    (h : c.modifyBlock k (fun b => b.inject (position b) ((Tag.injected, v) :: tags) operations) = .ok c') :
    c'.DueOnly key wants pending := by
  intro j b hb i hi hdue
  rcases block_of_modifyBlock h hb with ⟨-, hb⟩ | ⟨rfl, b₀, hb₀, hinject⟩
  · exact hc j b hb i hi hdue
  · rw [Block.inject_ok hinject] at hi
    rcases List.mem_append.mp hi with hi | hi
    · exact hc j b₀ hb₀ i (List.mem_of_mem_take hi) hdue
    · rcases List.mem_append.mp hi with hi | hi
      · exact absurd (Instruction.isInjected_of_mem_drafted hi) (by rw [hdue.1]; exact Bool.false_ne_true)
      · exact hc j b₀ hb₀ i (List.mem_of_mem_drop hi) hdue

theorem DueOnly.setTag (hc : c.DueOnly key wants pending) (numbered : c.Numbered) {l : Location}
    {tag value : String} (h : c.modifyInstruction l (·.setTag tag value) = .ok c') : c'.DueOnly key wants pending := by
  intro j b hb i hi hdue
  rcases block_of_modifyBlock h hb with ⟨-, hb⟩ | ⟨rfl, b₀, hb₀, hmodify⟩
  · exact hc j b hb i hi hdue
  · obtain ⟨-, rfl⟩ := Block.modify_ok (numbered_iff.mp numbered _ b₀ hb₀).2 hmodify
    obtain ⟨i₀, hi₀, rfl⟩ := List.mem_map.mp hi
    rw [Block.changeAt_index (fun i => Instruction.setTag_index i tag value)]
    refine hc _ b₀ hb₀ i₀ hi₀ ?_
    unfold Block.changeAt at hdue
    split at hdue
    · exact Instruction.isDue_of_setTag hdue
    · exact hdue

theorem DueOnly.settle (hc : c.DueOnly key wants pending) (numbered : c.Numbered) {l : Location}
    {value : String} (h : c.modifyInstruction l (·.setTag key value) = .ok c') :
    c'.DueOnly key wants fun x => pending x ∧ x ≠ l := by
  intro j b hb i hi hdue
  refine ⟨hc.setTag numbered h j b hb i hi hdue, fun heq => ?_⟩
  have hblock : j = l.block := congrArg Location.block heq
  have hindex : i.index = l.instruction := congrArg Location.instruction heq
  rcases block_of_modifyBlock h hb with ⟨hne, -⟩ | ⟨-, b₀, hb₀, hmodify⟩
  · exact hne hblock
  · obtain ⟨-, rfl⟩ := Block.modify_ok (numbered_iff.mp numbered _ b₀ hb₀).2 hmodify
    obtain ⟨i₀, -, rfl⟩ := List.mem_map.mp hi
    rw [Block.changeAt_index (fun i => Instruction.setTag_index i key value)] at hindex
    rw [Block.changeAt, if_pos hindex] at hdue
    exact Instruction.not_isDue_setTag value hdue

theorem indifferent_dueOnly (hphi : ∀ dst incoming, ¬ wants (.phi dst incoming)) (pending : Location → Prop) :
    Indifferent fun c => c.Numbered ∧ c.DueOnly key wants pending where
  temps _ _ h := h
  blocks _ _ h hv _ := ⟨numbered_of_vertices h.1 hv, fun j b hb =>
    h.2 j b ((congrArg (Failure.orRaise · _) (congrArg (Table.get? · j) hv)).symm.trans hb)⟩
  newBlock c c' k h hn := by
    refine ⟨numbered_of_newBlock h.1 hn, fun j b hb i hi hdue => ?_⟩
    obtain ⟨hfresh, hothers⟩ := block_newBlock hn
    by_cases hj : j = k
    · subst hj
      cases hfresh.symm.trans hb
      cases hi
    · exact h.2 j b ((hothers j hj).symm.trans hb) i hi hdue
  inject c c' k position v tags operations h hi :=
    ⟨indifferent_numbered.inject c c' k position v tags operations h.1 hi, h.2.inject hi⟩
  guarded c c' l value h hg := ⟨indifferent_numbered.guarded c c' l value h.1 hg, h.2.setTag h.1 hg⟩
  renamed c c' k old new h hr := by
    refine ⟨indifferent_numbered.renamed c c' k old new h.1 hr, fun j b hb i hi hdue => ?_⟩
    rcases block_of_modifyBlock hr hb with ⟨-, hb⟩ | ⟨rfl, b₀, hb₀, heq⟩
    · exact h.2 j b hb i hi hdue
    · cases heq
      obtain ⟨i₀, hi₀, rfl⟩ := List.mem_map.mp hi
      rw [(GuardDecision.renameIncoming_fields old new i₀).1]
      exact h.2 j b₀ hb₀ i₀ hi₀ (Instruction.isDue_of_renameIncoming hphi hdue)

end Due

def HasBlock (k : Nat) (R : Block → Prop) (c : FlowGraph) : Prop := ∃ b, c.block k = .ok b ∧ R b

section HasBlock

variable {R : Block → Prop}

theorem HasBlock.of_vertices (hc : c.HasBlock k R) (h : c'.graph.vertices = c.graph.vertices) : c'.HasBlock k R := by
  obtain ⟨b, hb, hR⟩ := hc
  exact ⟨b, (congrArg (Failure.orRaise · _) (congrArg (Table.get? · k) h)).trans hb, hR⟩

theorem HasBlock.newBlock {j : Nat} (hc : c.HasBlock k R) (h : c.newBlock = .ok (j, c')) : c'.HasBlock k R := by
  obtain ⟨b, hb, hR⟩ := hc
  refine ⟨b, ((block_newBlock h).2 k ?_).trans hb, hR⟩
  rintro rfl
  obtain ⟨habsent, -⟩ := Graph.insertVertex_ok (newBlock_ok h).2.2.2.2
  cases (block_eq_ok.mp hb).symm.trans habsent

theorem HasBlock.modifyBlock {j : Nat} {f : Block → Outcome Block} (hc : c.HasBlock k R)
    (h : c.modifyBlock j f = .ok c') (hf : ∀ b b', c.block j = .ok b → R b → f b = .ok b' → R b') : c'.HasBlock k R := by
  obtain ⟨b, hb, hR⟩ := hc
  obtain ⟨b₀, b', hb₀, hb', hj, hothers⟩ := block_modifyBlock h
  by_cases hk : k = j
  · subst hk
    cases hb₀.symm.trans hb
    exact ⟨b', hj, hf _ b' hb₀ hR hb'⟩
  · exact ⟨b, (hothers k hk).trans hb, hR⟩

/-- What injected code leaves alone in a block, and what is the same of instructions that follow the old ones. -/
structure Stable (fits : Block → Nat → Prop) (R : Block → Prop) : Prop where
  inject : ∀ (b b' : Block) position v tags operations, R b → fits b position →
    b.inject position ((Tag.injected, v) :: tags) operations = .ok b' → R b'
  map : ∀ (b : Block) f, R b → (∀ i, Instruction.Follows i (f i)) → R { b with instructions := b.instructions.map f }

theorem Stable.guarded {fits : Block → Nat → Prop} (hR : Stable fits R) (numbered : c.Numbered) (hc : c.HasBlock k R)
    {l : Location} {value : String} (h : c.modifyInstruction l (·.setTag Tag.guarded value) = .ok c') :
    c'.HasBlock k R :=
  hc.modifyBlock h fun b b' hb hRb hb' => by
    obtain ⟨-, rfl⟩ := Block.modify_ok (numbered_iff.mp numbered _ b hb).2 hb'
    exact hR.map b _ hRb fun i => .setTag_changeAt (by decide)

theorem Stable.renamed {fits : Block → Nat → Prop} (hR : Stable fits R) (hc : c.HasBlock k R) {j old new : Nat}
    (h : c.modifyBlock j (fun b => pure { b with
      instructions := b.instructions.map (GuardDecision.renameIncoming old new) }) = .ok c') : c'.HasBlock k R :=
  hc.modifyBlock h fun b b' _ hRb hb' => by
    cases hb'
    exact hR.map b _ hRb fun i => .renameIncoming

theorem indifferent_hasBlock (hR : Stable (fun _ _ => True) R) (k : Nat) :
    Indifferent fun c => c.Numbered ∧ c.HasBlock k R where
  temps _ _ h := h
  blocks _ _ h hv _ := ⟨numbered_of_vertices h.1 hv, h.2.of_vertices hv⟩
  newBlock _ _ _ h hn := ⟨numbered_of_newBlock h.1 hn, h.2.newBlock hn⟩
  inject c c' j position v tags operations h hi := ⟨indifferent_numbered.inject c c' j position v tags operations h.1 hi,
    h.2.modifyBlock hi fun b b' _ hRb hb' => hR.inject b b' _ v tags operations hRb trivial hb'⟩
  guarded c c' l value h hg := ⟨indifferent_numbered.guarded c c' l value h.1 hg, hR.guarded h.1 h.2 hg⟩
  renamed c c' j old new h hr := ⟨indifferent_numbered.renamed c c' j old new h.1 hr, hR.renamed h.2 hr⟩

theorem tallied_hasBlock {fits : Block → Nat → Prop} (hR : Stable fits R) (start : ∀ b, fits b 0)
    (terminator : ∀ b : Block, fits b b.terminatorPosition) (h : Hooks) (k : Nat) :
    Tallied h 0 fits fun _ c => c.Numbered ∧ c.HasBlock k R where
  start := start
  terminator := terminator
  bound _ _ _ := Nat.zero_le _
  temps _ _ _ _ h := h
  blocks _ _ _ h hv _ _ := ⟨numbered_of_vertices h.1 hv, h.2.of_vertices hv⟩
  newBlock _ _ _ _ h hn := ⟨numbered_of_newBlock h.1 hn, h.2.newBlock hn⟩
  inject _ c c' j position v tags operations h _ hfits hi :=
    ⟨indifferent_numbered.inject c c' j position v tags operations h.1 hi,
      h.2.modifyBlock hi fun b b' hb hRb hb' => hR.inject b b' _ v tags operations hRb (hfits b hb) hb'⟩
  guarded _ c c' l value h hg := ⟨indifferent_numbered.guarded c c' l value h.1 hg, hR.guarded h.1 h.2 hg⟩
  renamed _ c c' j old new h hr := ⟨indifferent_numbered.renamed c c' j old new h.1 hr, hR.renamed h.2 hr⟩

theorem stable_exists {Q : Instruction → Prop} (hQ : ∀ i j : Instruction, i.Follows j → Q i → Q j)
    (fits : Block → Nat → Prop) : Stable fits fun b => ∃ i ∈ b.instructions, Q i where
  inject b b' position v tags operations hb _ hb' := by
    obtain ⟨i, hi, hQi⟩ := hb
    refine ⟨i, ?_, hQi⟩
    rw [Block.inject_ok hb']
    rw [← List.take_append_drop position b.instructions] at hi
    rcases List.mem_append.mp hi with hi | hi
    · exact List.mem_append_left _ hi
    · exact List.mem_append_right _ (List.mem_append_right _ hi)
  map b f hb hf := by
    obtain ⟨i, hi, hQi⟩ := hb
    exact ⟨f i, List.mem_map_of_mem hi, hQ i (f i) (hf i) hQi⟩

end HasBlock

section Marked

variable {value : String}

theorem indifferent_marked (k : Nat) (value : String) : Indifferent fun c => c.Numbered ∧ c.Marked k value :=
  indifferent_hasBlock (stable_exists (fun _ _ hij htag => hij.injected.trans htag) _) k

theorem marked_of_inject {position : Block → Nat} {o : Operation} {operations : List Operation}
    (h : c.modifyBlock k (fun b => b.inject (position b) [(Tag.injected, value)] (o :: operations)) = .ok c') :
    c'.Marked k value := by
  obtain ⟨b, b', hb, hb', hk, -⟩ := block_modifyBlock h
  refine ⟨b', hk, (Instruction.make b.nextIndex o).setTags [(Tag.injected, value)], ?_, ?_⟩
  · rw [Block.inject_ok hb']
    exact List.mem_append_right _ (List.mem_append_left _ List.mem_cons_self)
  · exact (Instruction.tag?_setTag _ Tag.injected value Tag.injected).trans (if_pos rfl)

end Marked

end FlowGraph

namespace GuardDecision

open FlowGraph

variable {P : FlowGraph → Prop} {c c' : FlowGraph} {h : Hooks} {n : Nat} {d : GuardDecision} {hoisted hoisted' : Hoisted}

section Tallied

variable {T : Nat → FlowGraph → Prop} {fits : Block → Nat → Prop} {m : Nat}

theorem tallied_injectRange (hP : Tallied h n fits T) {plan : RangePlan} {entering header join : Nat} (hc : T m c)
    (hrun : (d.injectRange h plan entering header).run c = .ok (join, c')) : T (m + 2) c' := by
  let margin := c.margin h fun _ _ _ => False
  have bound := hP.bound m c hc
  have hfits : ∀ (c : FlowGraph) k b, c.block k = .ok b → fits b b.terminatorPosition :=
    fun _ _ b _ => hP.terminator b
  cases tested : plan.topTested with
  | false =>
    obtain ⟨operations, c₁, -, hcollect, hinject⟩ := injectRange_above_ok tested hrun
    obtain ⟨hoperations, next, hnext, rfl⟩ := Drafting.Adds.collect_ok
      ((GuardCode.adds_entersLoop (m := margin) plan).bind fun _ => GuardCode.adds_guardRange plan d.access _)
      (Nat.le_refl _) hcollect
    have hcount : operations.countP (·.callsGuard h) = 0 + 2 :=
      ((GuardCode.counts_entersLoop plan).bind fun _ => GuardCode.counts_guardRange plan d.access _).collect hcollect
    have hc₂ := hP.inject m _ _ _ _ _ _ _ (hP.temps m c next hnext hc)
      (fun o ho => (hoperations o ho).isGuarding bound) (hfits _ _) hinject
    rw [hcount] at hc₂
    exact hc₂
  | true =>
    obtain ⟨_, test, c₁, c₂, operations, c₃, guards, c₄, c₅, c₆, e, c₇, c₈, c₉, c₁₀, c₁₁, htest, hinject, hcollect, hguards,
      hfill, hjoin, hremove, hthrough, hpast, hpasses, hjoins, hrename⟩ := injectRange_around_ok tested hrun
    have hnone : test.countP (·.callsGuard h) = 0 := (GuardCode.counts_entersLoop plan).collect htest
    have htwo : operations.countP (·.callsGuard h) = 2 :=
      (GuardCode.counts_guardRange plan d.access none).collect hcollect
    obtain ⟨htests, next, hnext, rfl⟩ :=
      (GuardCode.adds_entersLoop (m := margin) plan).collect_ok (Nat.le_refl _) htest
    have hc₂ := hP.inject m _ _ _ _ _ _ _ (hP.temps m c next hnext hc)
      (fun o ho => (htests o ho).isGuarding bound) (hfits _ _) hinject
    rw [hnone] at hc₂
    obtain ⟨hoperations, next', hnext', rfl⟩ := (GuardCode.adds_guardRange (m := c₂.margin h fun _ _ _ => False) plan
      d.access none).collect_ok (Nat.le_refl _) hcollect
    have hc₄ := hP.newBlock m _ _ _ (hP.temps m c₂ next' hnext' hc₂) hguards
    have hc₅ := hP.inject m _ _ _ _ _ _ _ hc₄ (fun o ho => (hoperations o ho).isGuarding (hP.bound m c₂ hc₂))
      (fun b _ => hP.start b) hfill
    rw [htwo] at hc₅
    have hc₆ := hP.newBlock _ _ _ _ hc₅ hjoin
    have hc₇ := hP.removeEdge hc₆ hremove
    have hc₈ := hP.insertEdge hc₇ hthrough
    have hc₉ := hP.insertEdge hc₈ hpast
    have hc₁₀ := hP.insertEdge hc₉ hpasses
    have hc₁₁ := hP.insertEdge hc₁₀ hjoins
    exact hP.renamed _ _ _ _ _ _ hc₁₁ hrename

theorem tallied_injectHoisted (hP : Tallied h n fits T) {header preheader count : Nat} (hc : T m c)
    (hrun : (d.injectHoisted h hoisted header preheader).run c = .ok ((count, hoisted'), c')) :
    T (m + count) c' := by
  unfold injectHoisted at hrun
  simp only at hrun
  split at hrun
  · obtain ⟨hanswer, rfl⟩ := Edit.pure_ok.mp hrun
    cases hanswer
    exact hc
  · obtain ⟨_, c₁, hask, hplace⟩ := Edit.bind_ok.mp hrun
    obtain ⟨-, rfl⟩ := Edit.ask_ok.mp hask
    cases hd : d.shape with
    | single =>
      rw [hd] at hplace
      obtain ⟨k, c₂, hinjection, hcount⟩ := Edit.bind_ok.mp hplace
      obtain ⟨hanswer, rfl⟩ := Edit.pure_ok.mp hcount
      cases hanswer
      obtain ⟨⟨_, operations⟩, c₃, hcollect, hcode⟩ := Edit.bind_ok.mp hinjection
      obtain ⟨_, c₄, hinject, hone⟩ := Edit.bind_ok.mp hcode
      obtain ⟨rfl, rfl⟩ := Edit.pure_ok.mp hone
      have hcalls : operations.countP (·.callsGuard h) = 1 :=
        (GuardCode.counts_guardPointer d.pointer d.access).collect hcollect
      obtain ⟨hoperations, next, hnext, rfl⟩ := (GuardCode.adds_guardPointer
        (m := c₁.margin h fun _ _ _ => False) d.pointer d.access).collect_ok (Nat.le_refl _) hcollect
      have hc₄ := hP.inject m _ _ _ _ _ _ _ (hP.temps m c₁ next hnext hc)
        (fun o ho => (hoperations o ho).isGuarding (hP.bound m c₁ hc)) (fun b _ => hP.terminator b)
        (Edit.step_ok.mp hinject)
      rw [hcalls] at hc₄
      exact hc₄
    | range plan =>
      rw [hd] at hplace
      obtain ⟨join, c₂, hinjection, hcount⟩ := Edit.bind_ok.mp hplace
      obtain ⟨hanswer, rfl⟩ := Edit.pure_ok.mp hcount
      cases hanswer
      exact tallied_injectRange hP hc hinjection

/-- What holds once an access is marked holds with its guards, if the place directly before it is one where code
fits. -/
theorem tallied_inject (hP : Tallied h n fits T) {count : Nat}
    (hfits : ∀ l, d.placement = .before l → ∀ c₁ position b, T m c₁ → c₁.position l = .ok position →
      c₁.block l.block = .ok b → fits b position)
    (htagged : ∀ c₁, c.modifyInstruction d.location (·.setTag Tag.guarded d.rule.text) = .ok c₁ → T m c₁)
    (hrun : (d.inject h hoisted).run c = .ok ((count, hoisted'), c')) : T (m + count) c' := by
  obtain ⟨c₁, htag, ⟨hnone, hone⟩, hplace⟩ := inject_ok hrun
  have hc₁ := htagged c₁ htag
  cases hd : d.placement with
  | omitted =>
    rw [hd] at hplace
    obtain ⟨-, rfl⟩ := hplace
    rw [hnone hd]
    exact hc₁
  | preheader header preheader =>
    rw [hd] at hplace
    exact tallied_injectHoisted hP hc₁ hplace
  | before l =>
    rw [hd] at hplace
    obtain ⟨-, position, hposition, hinject⟩ := hplace
    have hc' := hP.inject m _ _ _ (fun _ => position) _ _ _ (hP.temps m c₁ _ (Nat.le_succ _) hc₁)
      (fun o ho => GuardCode.isGuarding_of_mem (hP.bound m c₁ hc₁) ho)
      (fun b hb => hfits l hd c₁ position b hc₁ hposition hb) hinject
    rw [GuardCode.countP_guards] at hc'
    rw [hone l hd]
    exact hc'

theorem tallied_injectAll (hP : Tallied h n fits T) {ds : List GuardDecision} {count : Nat}
    (hfits : ∀ d ∈ ds, ∀ l, d.placement = .before l → ∀ m c₁ position b, T m c₁ → c₁.position l = .ok position →
      c₁.block l.block = .ok b → fits b position)
    (hc : T m c) (hrun : (injectAll h ds hoisted).run c = .ok (count, c')) : T (m + count) c' := by
  induction ds generalizing hoisted c count m with
  | nil =>
    obtain ⟨rfl, rfl⟩ := Edit.pure_ok.mp hrun
    exact hc
  | cons d rest ih =>
    obtain ⟨⟨k, hoisted₁⟩, c₁, hfirst, hrest⟩ := Edit.bind_ok.mp hrun
    obtain ⟨k', c₂, hothers, hcount⟩ := Edit.bind_ok.mp hrest
    obtain ⟨rfl, rfl⟩ := Edit.pure_ok.mp hcount
    have hc₁ := tallied_inject hP (fun l hl => hfits d List.mem_cons_self l hl m)
      (fun c₁ htag => hP.guarded m _ _ _ _ hc htag) hfirst
    rw [← Nat.add_assoc]
    exact ih (fun d hd => hfits d (List.mem_cons_of_mem _ hd)) hc₁ hothers

end Tallied

/-- What holds once an access is marked, and is left alone by injections, holds when its guards are in place. -/
theorem steadfast_inject (hP : Steadfast h n P) {count : Nat}
    (htagged : ∀ c₁, c.modifyInstruction d.location (·.setTag Tag.guarded d.rule.text) = .ok c₁ → P c₁)
    (hrun : (d.inject h hoisted).run c = .ok ((count, hoisted'), c')) : P c' :=
  tallied_inject (m := 0) hP.tallied (fun _ _ _ _ _ _ _ _ => trivial) htagged hrun

theorem steadfast_injectAll (hP : Steadfast h n P) {ds : List GuardDecision} {count : Nat} (hc : P c)
    (hrun : (injectAll h ds hoisted).run c = .ok (count, c')) : P c' :=
  tallied_injectAll (m := 0) hP.tallied (fun _ _ _ _ _ _ _ _ _ _ _ => trivial) hc hrun

theorem indifferent_injectAll (hP : Indifferent P) {ds : List GuardDecision} {count : Nat} (hc : P c)
    (hrun : (injectAll h ds hoisted).run c = .ok (count, c')) : P c' :=
  steadfast_injectAll (hP.steadfast h) hc hrun

theorem dueOnly_injectAll {wants : Operation → Prop} (hphi : ∀ dst incoming, ¬ wants (.phi dst incoming))
    {pending : Location → Prop} {ds : List GuardDecision} {count : Nat}
    (hc : c.Numbered ∧ c.DueOnly Tag.guarded wants pending)
    (hrun : (injectAll h ds hoisted).run c = .ok (count, c')) :
    c'.DueOnly Tag.guarded wants fun l => pending l ∧ ∀ d ∈ ds, l ≠ d.location := by
  induction ds generalizing hoisted c count pending with
  | nil =>
    obtain ⟨-, rfl⟩ := Edit.pure_ok.mp hrun
    exact fun k b hb i hi hdue => ⟨hc.2 k b hb i hi hdue, fun d hd => (List.not_mem_nil hd).elim⟩
  | cons d rest ih =>
    obtain ⟨⟨n, hoisted₁⟩, c₁, hfirst, hrest⟩ := Edit.bind_ok.mp hrun
    obtain ⟨n', c₂, hothers, hcount⟩ := Edit.bind_ok.mp hrest
    obtain ⟨-, rfl⟩ := Edit.pure_ok.mp hcount
    have hsettled : c₁.Numbered ∧ c₁.DueOnly Tag.guarded wants fun l => pending l ∧ l ≠ d.location :=
      steadfast_inject ((indifferent_dueOnly hphi _).steadfast h)
        (fun c₁ htag => ⟨indifferent_numbered.guarded _ _ _ _ hc.1 htag, hc.2.settle hc.1 htag⟩) hfirst
    intro k b hb i hi hdue
    obtain ⟨⟨hpending, hne⟩, hrest⟩ := ih hsettled hothers k b hb i hi hdue
    refine ⟨hpending, fun e he => ?_⟩
    rcases List.mem_cons.mp he with rfl | he
    · exact hne
    · exact hrest e he

end GuardDecision

namespace StackGuardDecision

open FlowGraph

variable {P : FlowGraph → Prop} {c c' : FlowGraph} {h : Hooks} {ds : List StackGuardDecision} {u : PUnit}

theorem keeps_forM (hP : ∀ (c c' : FlowGraph) k position size, P c → c.modifyBlock k (fun b =>
      b.inject position [(Tag.injected, "stack-guard")] [.notify h.guardCalleeStack [.ofWord size 64]]) = .ok c' → P c')
    (hc : P c) (hrun : (ds.forM fun d => d.inject h).run c = .ok (u, c')) : P c' := by
  induction ds generalizing c with
  | nil =>
    obtain ⟨-, rfl⟩ := Edit.pure_ok.mp hrun
    exact hc
  | cons d rest ih =>
    obtain ⟨_, c₁, hfirst, hrest⟩ := Edit.bind_ok.mp hrun
    obtain ⟨k, position, -, hinject⟩ := inject_ok hfirst
    exact ih (hP _ _ _ _ _ hc hinject) hrest

theorem tallied_forM {n m : Nat} {fits : Block → Nat → Prop} {T : Nat → FlowGraph → Prop} (hP : Tallied h n fits T)
    (hfits : ∀ d ∈ ds, ∀ m c₁ k position b, T m c₁ → d.place c₁ = .ok (k, position) → c₁.block k = .ok b →
      fits b position)
    (hc : T m c) (hrun : (ds.forM fun d => d.inject h).run c = .ok (u, c')) : T (m + ds.length) c' := by
  induction ds generalizing c m with
  | nil =>
    obtain ⟨-, rfl⟩ := Edit.pure_ok.mp hrun
    exact hc
  | cons d rest ih =>
    obtain ⟨_, c₁, hfirst, hrest⟩ := Edit.bind_ok.mp hrun
    obtain ⟨k, position, hplace, hinject⟩ := inject_ok hfirst
    have hc₁ := hP.inject m _ _ _ (fun _ => position) _ _ _ hc
      (fun o ho => by
        rw [List.mem_singleton.mp ho]
        exact .inr ⟨h.guardCalleeStack, .inr rfl, _, rfl⟩)
      (fun b hb => hfits d List.mem_cons_self m c k position b hc hplace hb) hinject
    rw [List.countP_singleton, if_pos (GuardCode.callsGuard_guardCalleeStack _)] at hc₁
    rw [List.length_cons, Nat.add_comm rest.length, ← Nat.add_assoc]
    exact ih (fun d hd => hfits d (List.mem_cons_of_mem _ hd)) hc₁ hrest

theorem steadfast_forM {n : Nat} (hP : Steadfast h n P) (hc : P c)
    (hrun : (ds.forM fun d => d.inject h).run c = .ok (u, c')) : P c' :=
  tallied_forM (m := 0) hP.tallied (fun _ _ _ _ _ _ _ _ _ _ => trivial) hc hrun

theorem indifferent_forM (hP : Indifferent P) (hc : P c)
    (hrun : (ds.forM fun d => d.inject h).run c = .ok (u, c')) : P c' :=
  steadfast_forM (hP.steadfast h) hc hrun

theorem marked_forM (numbered : c.Numbered) (hds : ds ≠ []) (hrun : (ds.forM fun d => d.inject h).run c = .ok (u, c')) :
    ∃ k, c'.Marked k "stack-guard" := by
  cases ds with
  | nil => exact absurd rfl hds
  | cons d rest =>
    obtain ⟨_, c₁, hfirst, hrest⟩ := Edit.bind_ok.mp hrun
    obtain ⟨k, position, -, hinject⟩ := inject_ok hfirst
    have numbered₁ := indifferent_numbered.inject _ _ _ (fun _ => position) _ _ _ numbered hinject
    exact ⟨k, (indifferent_forM (indifferent_marked k "stack-guard") ⟨numbered₁, marked_of_inject hinject⟩ hrest).2⟩

end StackGuardDecision

end RegionGuard

import RegionGuard.Flow.WellFormed
import RegionGuard.Proofs.CustodyStates
import RegionGuard.Proofs.Instrumented
set_option autoImplicit false

namespace RegionGuard

namespace DataflowProblem

variable {σ : Type} (p : DataflowProblem σ)

def recordNext (block : Nat) : σ × DataflowSolution σ → Instruction → Outcome (σ × DataflowSolution σ) :=
  fun (s, solution) i => do
    let s' ← p.transfer ⟨block, i.index⟩ i s
    return (s', { solution with
      stateIn := solution.stateIn.insert (block, i.index) s
      stateOut := solution.stateOut.insert (block, i.index) s' })

theorem record_eq (solution : DataflowSolution σ) (b : Block) (s : σ) :
    p.record solution b s = (do
      let (s', solution) ← b.instructions.foldlM (p.recordNext b.index)
        (s, { solution with blockIn := solution.blockIn.insert b.index s })
      return { solution with blockOut := solution.blockOut.insert b.index s' }) := rfl

end DataflowProblem

namespace Custody

variable {d : DefUse} {c : FlowGraph} {entry : Nat} {order : List Nat} {ends : Table Nat (List Validation)}

/-- What is written down before an instruction: what came to the block, and what the instructions in front
of it validate. -/
def Recorded (d : DefUse) (solution : DataflowSolution (List Validation)) (block : Nat) (s : List Validation)
    (l : List Instruction) : Prop :=
  ∀ k i, l[k]? = some i → ∃ t, solution.stateIn.get? (block, i.index) = some t ∧
    ∀ x, x ∈ t ↔ x ∈ s ∨ Passed d (l.take k) x

theorem recordNext_ok (block : Nat) {l : List Instruction} (hl : ∀ i ∈ l, ∃ l, (l, i) ∈ d.function.located)
    (hdistinct : (l.map (·.index)).Nodup) {s : List Validation} (hs : IsState d.function s)
    (solution : DataflowSolution (List Validation)) :
    ∃ s' solution', l.foldlM ((problem d).recordNext block) (s, solution) = .ok (s', solution') ∧
      Recorded d solution' block s l ∧
      ∀ b i, (∀ j ∈ l, (b, i) ≠ (block, j.index)) → solution'.stateIn.get? (b, i) = solution.stateIn.get? (b, i) := by
  induction l generalizing s solution with
  | nil => exact ⟨s, solution, rfl, fun k i hk => (by cases hk), fun b i _ => rfl⟩
  | cons i rest ih =>
    obtain ⟨hfresh, hdistinct⟩ := List.nodup_cons.mp hdistinct
    obtain ⟨s₁, h₁, hs₁, hmem₁⟩ := transfer_ok (l := ⟨block, i.index⟩) (hl i List.mem_cons_self) hs
    obtain ⟨s', solution', hrest, hrecorded, hkept⟩ :=
      ih (fun j hj => hl j (List.mem_cons_of_mem i hj)) hdistinct hs₁
        { solution with
          stateIn := solution.stateIn.insert (block, i.index) s
          stateOut := solution.stateOut.insert (block, i.index) s₁ }
    refine ⟨s', solution', ?_, fun k j hj => ?_, fun b j hother => ?_⟩
    · rw [List.foldlM_cons, DataflowProblem.recordNext, h₁]
      exact hrest
    · cases k with
      | zero =>
        cases hj
        refine ⟨s, ?_, fun x => by simp [Passed]⟩
        rw [hkept block i.index fun j hj heq => ?_, Table.get?_insert, if_pos rfl]
        exact hfresh (List.mem_map.mpr ⟨j, hj, (Prod.mk.inj heq).2.symm⟩)
      | succ k =>
        obtain ⟨t, ht, hmem⟩ := hrecorded k j hj
        refine ⟨t, ht, fun x => ?_⟩
        rw [hmem, hmem₁, or_assoc, List.take_succ_cons]
        simp [Passed]
    · rw [hkept b j fun i' hi' => hother i' (List.mem_cons_of_mem i hi'), Table.get?_insert,
        if_neg (hother i List.mem_cons_self)]

theorem record_ok {B : Block} (hB : ∀ i ∈ B.instructions, ∃ l, (l, i) ∈ d.function.located) (hnumbers : (B.instructions.map (·.index)).Nodup)
    {s : List Validation} (hs : IsState d.function s) (solution : DataflowSolution (List Validation)) :
    ∃ solution', (problem d).record solution B s = .ok solution' ∧
      Recorded d solution' B.index s B.instructions ∧
      ∀ b i, b ≠ B.index → solution'.stateIn.get? (b, i) = solution.stateIn.get? (b, i) := by
  obtain ⟨s', solution', hfold, hrecorded, hkept⟩ := recordNext_ok B.index hB hnumbers hs
    { solution with blockIn := solution.blockIn.insert B.index s }
  refine ⟨{ solution' with blockOut := solution'.blockOut.insert B.index s' }, ?_, hrecorded,
    fun b i hb => hkept b i fun j _ heq => hb (Prod.mk.inj heq).1⟩
  rw [DataflowProblem.record_eq, hfold]
  rfl

/-- A block out of reach gets a state, too: the empty one. -/
theorem entering_total (h : Ordered d c entry order) (hassigned : Assigned d.function ends order) (b : Nat) :
    ∃ s, (problem d).entering c entry order ends b = .ok s ∧ IsState d.function s ∧
      (b ∈ order → ∀ x, x ∈ s ↔ Arrives c entry order ends x b) := by
  by_cases hb : b ∈ order
  · obtain ⟨s, hs, hstate, hmem⟩ := entering_ok h hassigned hb
    exact ⟨s, hs, hstate, fun _ => hmem⟩
  · refine ⟨[], ?_, isState_nil _, fun hb' => absurd hb' hb⟩
    unfold DataflowProblem.entering
    rw [if_pos (.inr hb)]
    rfl

theorem records_ok (h : Ordered d c entry order) (hassigned : Assigned d.function ends order) {blocks : List Block}
    (hblocks : ∀ B ∈ blocks, c.block B.index = .ok B) (hdistinct : (blocks.map Block.index).Nodup)
    (solution : DataflowSolution (List Validation)) :
    ∃ solution', blocks.foldlM (fun solution b => do
        let s ← (problem d).entering c entry order ends b.index
        (problem d).record solution b s) solution = .ok solution' ∧
      (∀ B ∈ blocks, ∃ s, Recorded d solution' B.index s B.instructions ∧
        (B.index ∈ order → ∀ x, x ∈ s ↔ Arrives c entry order ends x B.index)) ∧
      ∀ b i, (∀ B ∈ blocks, b ≠ B.index) → solution'.stateIn.get? (b, i) = solution.stateIn.get? (b, i) := by
  induction blocks generalizing solution with
  | nil => exact ⟨solution, rfl, fun B hB => (List.not_mem_nil hB).elim, fun b i _ => rfl⟩
  | cons B rest ih =>
    obtain ⟨hfresh, hdistinct⟩ := List.nodup_cons.mp hdistinct
    have hB := hblocks B List.mem_cons_self
    obtain ⟨s, hs, hstate, hmem⟩ := entering_total h hassigned B.index
    obtain ⟨solution₁, h₁, hrecorded₁, hkept₁⟩ := record_ok (h.located_of_block hB)
      (FlowGraph.addressable_iff.mp h.addressable _ _ hB).2 hstate solution
    obtain ⟨solution', hrest, hrecorded, hkept⟩ :=
      ih (fun B' hB' => hblocks B' (List.mem_cons_of_mem B hB')) hdistinct solution₁
    refine ⟨solution', ?_, fun B' hB' => ?_, fun b i hother => ?_⟩
    · rw [List.foldlM_cons, hs]
      change ((problem d).record solution B s >>= _) = _
      rw [h₁]
      exact hrest
    · rcases List.mem_cons.mp hB' with rfl | hB'
      · refine ⟨s, fun k i hk => ?_, hmem⟩
        obtain ⟨t, ht, hmem⟩ := hrecorded₁ k i hk
        refine ⟨t, (hkept B'.index i.index fun B hB heq => ?_).trans ht, hmem⟩
        exact hfresh (List.mem_map.mpr ⟨B, hB, heq.symm⟩)
      · exact hrecorded B' hB'
    · rw [hkept b i fun B' hB' => hother B' (List.mem_cons_of_mem B hB'), hkept₁ b i (hother B List.mem_cons_self)]

theorem get?_start (h : Ordered d c entry order) {b : Nat} (hb : b ∈ order) :
    (Table.ofList (c.blocks.map fun b => (b.index, (problem d).top))).get? b = some (allTracked d.function) := by
  obtain ⟨B, hB⟩ := h.block hb
  have hindex := (FlowGraph.addressable_iff.mp h.addressable b B hB).1
  have hmem : B ∈ c.blocks := Table.mem_values_of_get? (FlowGraph.block_eq_ok.mp hB)
  exact hindex ▸ Table.get?_ofList_of_mem Block.index _ hmem

theorem holds_start (h : Ordered d c entry order) {x : Validation} {b : Nat} (hb : b ∈ order) :
    Holds (Table.ofList (c.blocks.map fun b => (b.index, (problem d).top))) x b ↔
      x ∈ allTracked d.function := by
  unfold Holds
  rw [get?_start h hb]
  simp only [Option.some.injEq, exists_eq_left']

theorem assigned_start (h : Ordered d c entry order) :
    Assigned d.function (Table.ofList (c.blocks.map fun b => (b.index, (problem d).top))) order :=
  fun _ hb => ⟨_, get?_start h hb, isState_allTracked d.function⟩

theorem complete_start (h : Ordered d c entry order) :
    Complete d c order (Table.ofList (c.blocks.map fun b => (b.index, (problem d).top))) where
  assigned := assigned_start h
  holds b hb x htracked hmust := by
    refine (holds_start h hb).mpr (mem_allTracked.mpr ⟨?_, htracked⟩)
    rcases hmust with hensured | ⟨B, hB, hadds⟩
    · obtain ⟨passed, hpassed⟩ := h.exists_passes hb
      exact (hensured passed hpassed).mem_carrier (h.located_of_passes hpassed)
    · exact hadds.mem_carrier (h.located_of_block hB)

/-- The analysis comes to an end. Before an instruction within reach it has the tracked validations that every
way to the block passes, and those of the instructions in front. -/
theorem solve_ok (h : Ordered d c entry order) (horder : c.graph.reversePostOrder entry = .ok order) :
    ∃ solution, (problem d).solve c = .ok solution ∧
      ∀ b ∈ order, ∀ B, c.block b = .ok B → ∀ k i, B.instructions[k]? = some i →
        ∃ t, solution.stateIn.get? (b, i.index) = some t ∧
          ∀ x, isTracked x.1 = true → (x ∈ t ↔ Ensured d c x b ∨ Passed d (B.instructions.take k) x) := by
  obtain ⟨ends, hends⟩ := iterate_ok h fun b hb => get?_start h hb
  have hblocks : ∀ B ∈ c.blocks, c.block B.index = .ok B := by
    intro B hB
    obtain ⟨k, hk⟩ := Table.mem_values_iff.mp hB
    have hindex := (FlowGraph.addressable_iff.mp h.addressable k B (FlowGraph.block_eq_ok.mpr hk)).1
    exact hindex ▸ FlowGraph.block_eq_ok.mpr hk
  have hkeys : c.blocks.map Block.index = c.graph.vertices.keys := by
    unfold FlowGraph.blocks Table.values Table.keys
    rw [List.map_map]
    exact List.map_congr_left fun e he => (h.addressable e he).1
  have hassigned := (complete_of_iterate h (complete_start h) hends).assigned
  obtain ⟨solution, hsolution, hrecorded, -⟩ := records_ok h hassigned hblocks
    (hkeys ▸ Table.nodup_keys _) ⟨∅, ∅, ∅, ∅⟩
  refine ⟨solution, ?_, fun b hb B hB k i hi => ?_⟩
  · unfold DataflowProblem.solve
    have hentry : c.entryIndex = .ok entry := orRaise_eq_ok.mpr h.starts
    rw [hentry]
    change (c.graph.reversePostOrder entry >>= _) = _
    rw [horder]
    change ((problem d).iterate c entry order _ order _ >>= _) = _
    rw [hends]
    exact hsolution
  · have hindex := (FlowGraph.addressable_iff.mp h.addressable b B hB).1
    obtain ⟨s, hrecorded, hmem⟩ := hrecorded B (Table.mem_values_of_get? (FlowGraph.block_eq_ok.mp hB))
    obtain ⟨t, ht, hbefore⟩ := hrecorded k i hi
    refine ⟨t, hindex ▸ ht, fun x htracked => ?_⟩
    rw [hbefore, hmem (hindex.symm ▸ hb), hindex, arrives_iff_ensured h (complete_start h) hends hb htracked]

/-- A load or a store whose pointer derives from a value, with an access it validates. -/
inductive Validates (d : DefUse) : Operation → Value → Access → Prop
  | load {dst : Variable} {pointer v : Value} : v ∈ chain d pointer → Validates d (.load dst pointer) v .read
  | store {pointer stored v : Value} {a : Access} : v ∈ chain d pointer → Validates d (.store pointer stored) v a

theorem mem_validates {o : Operation} {v : Value} {a : Access} : (v, a) ∈ validates d o ↔ Validates d o v a := by
  have hpairs : ∀ (pointer : Value) (isWrite : Bool),
      (v, a) ∈ (chain d pointer).flatMap (fun v => (Access.ofIsWrite isWrite).covered.map fun a => (v, a)) ↔
        v ∈ chain d pointer ∧ a ∈ (Access.ofIsWrite isWrite).covered := by
    intro pointer isWrite
    simp only [List.mem_flatMap, List.mem_map, Prod.mk.injEq]
    exact ⟨fun ⟨w, hw, a', ha, hv, heq⟩ => ⟨hv ▸ hw, heq ▸ ha⟩, fun ⟨hv, ha⟩ => ⟨v, hv, a, ha, rfl, rfl⟩⟩
  constructor
  · intro h
    unfold validates at h
    cases o with
    | load dst pointer =>
      obtain ⟨hv, ha⟩ := (hpairs pointer false).mp h
      exact List.mem_singleton.mp ha ▸ .load hv
    | store pointer stored => exact .store ((hpairs pointer true).mp h).1
    | _ => exact (List.not_mem_nil h).elim
  · rintro (hv | hv)
    · exact (hpairs _ false).mpr ⟨hv, List.mem_singleton.mpr rfl⟩
    · refine (hpairs _ true).mpr ⟨hv, ?_⟩
      cases a <;> simp [Access.ofIsWrite, Access.covered]

theorem passed_iff {l : List Instruction} {v : Value} {a : Access} :
    Passed d l (v, a) ↔ ∃ i ∈ l, Validates d i.operation v a := by
  simp only [Passed, mem_validates]

theorem ordered_of_verified {p : Program} {f : Function} (hbody : f.body = some c) (wired : c.graph.Wired)
    (addressable : c.Addressable) (hverified : p.verifyFunction f = .ok ()) :
    ∃ d entry order, DefUse.ofFunction f = .ok d ∧ Ordered d c entry order ∧
      c.graph.reversePostOrder entry = .ok order := by
  obtain ⟨c', hc', h⟩ := bind_eq_ok.mp hverified
  cases hbody.symm.trans (orRaise_eq_ok.mp hc')
  obtain ⟨entry, hentry, h⟩ := bind_eq_ok.mp h
  obtain ⟨d, hd, h⟩ := bind_eq_ok.mp h
  obtain ⟨dominators, -, h⟩ := bind_eq_ok.mp h
  obtain ⟨order, horder, -⟩ := bind_eq_ok.mp h
  have hdefUse : DefUse.ofFunction f = .ok d := by
    unfold WellFormed.definitions at hd
    split at hd
    · cases hd
    · exact hd
  have hfunction : d.function = f := by
    obtain ⟨c', -, hd⟩ := bind_eq_ok.mp hdefUse
    obtain ⟨definitions, -, hd⟩ := bind_eq_ok.mp hd
    cases hd
    rfl
  obtain ⟨hnodup, hmem⟩ := Graph.reversePostOrder_ok horder
  exact ⟨d, entry, order, hdefUse,
    { body := hfunction ▸ hbody
      wired := wired
      addressable := addressable
      starts := orRaise_eq_ok.mp hentry
      vertex := Graph.hasVertex_of_reversePostOrder horder
      nodup := hnodup
      mem := hmem }, horder⟩

/-- Custody is exact. The analysis of a well-formed function comes to an end, and at every place within
reach it says that a value is validated for an access exactly if a load or store of the like stands earlier on
every way there. Only function addresses are not promised this. -/
theorem validatedIn_iff_every_way {p : Program} {f : Function} (hbody : f.body = some c) (wired : c.graph.Wired)
    (addressable : c.Addressable) (hverified : p.verifyFunction f = .ok ()) :
    ∃ d custody, DefUse.ofFunction f = .ok d ∧ ofDefUse d = .ok custody ∧
      ∀ (l : Location) (reaching : List Instruction) (b : Block) (k : Nat), c.Passes reaching l.block →
        c.block l.block = .ok b → b.position? l.instruction = some k →
          ∃ s, custody.validatedIn? l = some s ∧ ∀ (v : Value) (a : Access), (∀ name, v ≠ .function name) →
            ((v, a) ∈ s ↔ ∀ passed, c.Passes passed l.block →
              ∃ i ∈ passed ++ b.instructions.take k, Validates d i.operation v a) := by
  obtain ⟨d, entry, order, hd, h, horder⟩ := ordered_of_verified hbody wired addressable hverified
  obtain ⟨solution, hsolution, hexact⟩ := solve_ok h horder
  refine ⟨d, ⟨allTracked d.function, solution⟩, hd, ?_, fun l reaching b k hreaching hb hk => ?_⟩
  · have hgraph : d.function.flowGraph = .ok c := orRaise_eq_ok.mpr h.body
    unfold ofDefUse
    rw [hgraph]
    change ((problem d).solve c >>= _) = _
    rw [hsolution]
    rfl
  · obtain ⟨hlt, hindex, -⟩ := List.findIdx?_eq_some_iff_getElem.mp hk
    have hindex : b.instructions[k].index = l.instruction := eq_of_beq hindex
    obtain ⟨t, ht, hmem⟩ := hexact l.block (h.mem_of_passes hreaching) b hb k b.instructions[k]
      (List.getElem?_eq_getElem hlt)
    rw [hindex] at ht
    refine ⟨t, ht, fun v a hv => ?_⟩
    have htracked : isTracked v = true := by
      cases v with
      | function name => exact absurd rfl (hv name)
      | _ => rfl
    rw [hmem (v, a) htracked, Ensured]
    simp only [← passed_iff, passed_append]
    constructor
    · exact fun hmust passed hpassed => hmust.imp_left (· passed hpassed)
    · intro hmust
      by_cases hlast : Passed d (b.instructions.take k) (v, a)
      · exact .inr hlast
      · exact .inl fun passed hpassed => (hmust passed hpassed).resolve_right hlast

/-- Fills a slot until what it reads back is zero, then reads the slot again. -/
def refilling : Function :=
  let slot : Variable := ⟨"slot", .pointer⟩
  let left : Variable := ⟨"left", .integer 64⟩
  .ofCode "refill" [] [
    [.alloca slot (.integer 64) (.constant (.make 1 64))],
    [.store (.variable slot) (.constant (.make 0 64)), .load left (.variable slot)],
    [.load ⟨"last", .integer 64⟩ (.variable slot)]]
    [(0, 1, none), (1, 1, some (.isTrue (.variable left))), (1, 2, some (.isFalse (.variable left)))]

theorem refilling_slot_validated :
    ∃ c d custody s, refilling.body = some c ∧ c.graph.Wired ∧ c.Addressable ∧ Program.empty.verifyFunction refilling = .ok () ∧
      DefUse.ofFunction refilling = .ok d ∧ ofDefUse d = .ok custody ∧ custody.validatedIn? ⟨2, 0⟩ = some s ∧
        (((.variable ⟨"slot", .pointer⟩, .write) : Validation) ∈ s ↔ ∀ passed, c.Passes passed 2 →
          ∃ i ∈ passed, Validates d i.operation (.variable ⟨"slot", .pointer⟩) .write) := by
  have hverified : Program.empty.verifyFunction refilling = .ok () := by decide +kernel
  have hcode : ∃ c ∈ refilling.body, c.entry = some 0 ∧ (∃ b ∈ (c.block 0).toOption, b.index = 0) ∧
      (∃ b ∈ (c.block 1).toOption, b.index = 1) ∧ (c.graph.edges.get? (0, 1)).isSome = true ∧
      (c.graph.edges.get? (1, 2)).isSome = true ∧ ∃ b ∈ (c.block 2).toOption, b.position? 0 = some 0 := by
    decide +kernel
  obtain ⟨c, hbody, hentry, ⟨b₀, hb₀, -⟩, ⟨b₁, hb₁, -⟩, h₀₁, h₁₂, b₂, hb₂, hposition⟩ := hcode
  have hmade := Function.made_of_ofCode c hbody
  obtain ⟨d, custody, hd, hcustody, hexact⟩ :=
    validatedIn_iff_every_way hbody hmade.wired hmade.numbered.addressable hverified
  have hreaching := ((FlowGraph.Passes.start hentry).follow (toOption_eq_some.mp hb₀) h₀₁).follow
    (toOption_eq_some.mp hb₁) h₁₂
  obtain ⟨s, hs, hmem⟩ := hexact ⟨2, 0⟩ _ b₂ 0 hreaching (toOption_eq_some.mp hb₂) hposition
  refine ⟨c, d, custody, s, hbody, hmade.wired, hmade.numbered.addressable, hverified, hd, hcustody, hs, ?_⟩
  simpa using hmem (.variable ⟨"slot", .pointer⟩) .write fun name => by simp

def loadsTwice : Function :=
  let pointer : Value := .argument ⟨0, "pointer", .pointer⟩
  let code : Function := .ofCode "load" [⟨0, "pointer", .pointer⟩]
    [[.load ⟨"first", .integer 64⟩ pointer, .load ⟨"second", .integer 64⟩ pointer]] []
  code.renumber 0 [0, 0]

/-- Of two loads of one number the first one is found, and what is validated before the second one is said of it: the
pointer counts as read at the start of the entry, where nothing was. -/
theorem shared_number_validated :
    ∃ c d custody b s, loadsTwice.body = some c ∧ c.Built ∧ Program.empty.verifyFunction loadsTwice = .ok () ∧
      DefUse.ofFunction loadsTwice = .ok d ∧ ofDefUse d = .ok custody ∧ c.Passes [] 0 ∧ c.block 0 = .ok b ∧
      b.position? 0 = some 0 ∧ custody.validatedIn? ⟨0, 0⟩ = some s ∧
      ((.argument ⟨0, "pointer", .pointer⟩, .read) : Validation) ∈ s ∧
      ¬ ∀ passed, c.Passes passed 0 → ∃ i ∈ passed ++ b.instructions.take 0,
        Validates d i.operation (.argument ⟨0, "pointer", .pointer⟩) .read := by
  have hcode : ∃ c ∈ loadsTwice.body, c.entry = some 0 ∧ ∃ b ∈ (c.block 0).toOption, b.position? 0 = some 0 := by
    decide +kernel
  have hsaid : ∃ d ∈ (DefUse.ofFunction loadsTwice).toOption, ∃ custody ∈ (ofDefUse d).toOption,
      ∃ s ∈ custody.validatedIn? ⟨0, 0⟩, ((.argument ⟨0, "pointer", .pointer⟩, .read) : Validation) ∈ s := by
    decide +kernel
  obtain ⟨c, hbody, hentry, b, hb, hposition⟩ := hcode
  obtain ⟨d, hd, custody, hcustody, s, hs, hmem⟩ := hsaid
  have hpasses : c.Passes [] 0 := .start hentry
  refine ⟨c, d, custody, b, s, hbody, Function.built_renumber Function.built_of_ofCode 0 _ c hbody, by decide +kernel,
    toOption_eq_some.mp hd, toOption_eq_some.mp hcustody, hpasses, toOption_eq_some.mp hb, hposition, hs, hmem,
    fun hevery => ?_⟩
  obtain ⟨i, hi, -⟩ := hevery [] hpasses
  cases hi

end Custody

end RegionGuard

import RegionGuard.Flow.Custody
import RegionGuard.Proofs.FallingStates
import RegionGuard.Proofs.Worklists
set_option autoImplicit false

/-!
# States of the custody analysis

While blocks are visited, tracked validations only leave the end of a block, and untracked ones only come to
it. So the visits come to an end. A tracked validation stays at the end of every block where all ways
that lead there pass it.
-/

namespace RegionGuard

namespace Function

theorem located_of_mem {f : Function} {b : Block} {i : Instruction} (hb : b ∈ f.blocks) (hi : i ∈ b.instructions) :
    (⟨b.index, i.index⟩, i) ∈ f.located :=
  List.mem_flatMap.mpr ⟨b, hb, List.mem_map.mpr ⟨i, hi, rfl⟩⟩

theorem mem_blocks {f : Function} {c : FlowGraph} (hf : f.body = some c) {k : Nat} {b : Block}
    (hb : c.block k = .ok b) : b ∈ f.blocks := by
  unfold blocks
  rw [hf]
  exact Table.mem_values_of_get? (FlowGraph.block_eq_ok.mp hb)

theorem located_iff {f : Function} {c : FlowGraph} (hbody : f.body = some c) (addressable : c.Addressable)
    {l : Location} {i : Instruction} : (l, i) ∈ f.located ↔ ∃ b, c.block l.block = .ok b ∧ i ∈ b.instructions ∧ i.index = l.instruction := by
  have hblocks : f.blocks = c.blocks := by
    unfold blocks
    rw [hbody]
    rfl
  constructor
  · intro h
    obtain ⟨b, hb, hi⟩ := List.mem_flatMap.mp h
    obtain ⟨j, hj, heq⟩ := List.mem_map.mp hi
    cases heq
    rw [hblocks] at hb
    obtain ⟨k, hk⟩ := Table.mem_values_iff.mp hb
    have hk := FlowGraph.block_eq_ok.mpr hk
    rw [← (FlowGraph.addressable_iff.mp addressable k b hk).1] at hk
    exact ⟨b, hk, hj, rfl⟩
  · rintro ⟨b, hb, hi, hindex⟩
    have := located_of_mem (mem_blocks hbody hb) hi
    rw [(FlowGraph.addressable_iff.mp addressable _ b hb).1, hindex] at this
    exact this

theorem nodup_located {f : Function} {body : FlowGraph} (hbody : f.body = some body)
    (numbered : body.Numbered) : (f.located.map (·.1)).Nodup := by
  have hblocks : f.blocks = body.blocks := by
    unfold blocks
    rw [hbody]
    rfl
  unfold located
  rw [hblocks, List.map_flatMap, List.nodup_flatMap]
  constructor
  · intro b hb
    obtain ⟨k, hk⟩ := Table.mem_values_iff.mp hb
    have distinct := (FlowGraph.numbered_iff.mp numbered k b (FlowGraph.block_eq_ok.mpr hk)).2.2
    rw [List.map_map]
    refine List.Nodup.of_map Location.instruction ?_
    rw [List.map_map]
    exact distinct
  · refine List.pairwise_map.mpr (body.graph.vertices.sorted.imp_of_mem fun {x y} hx hy hlt => ?_)
    intro l hl hl'
    obtain ⟨_, hi, rfl⟩ := List.mem_map.mp hl
    obtain ⟨_, hj, heq⟩ := List.mem_map.mp hl'
    obtain ⟨i, -, rfl⟩ := List.mem_map.mp hi
    obtain ⟨j, -, rfl⟩ := List.mem_map.mp hj
    have hsame : y.2.index = x.2.index := congrArg Location.block heq
    rw [(numbered x hx).1, (numbered y hy).1] at hsame
    rw [hsame] at hlt
    simp at hlt

theorem located_of_instruction? {f : Function} {l : Location} {i : Instruction} (h : f.instruction? l = some i) :
    ∃ l', (l', i) ∈ f.located := by
  obtain ⟨c, hc, h⟩ := Option.bind_eq_some_iff.mp h
  obtain ⟨b, hb, h⟩ := bind_eq_ok.mp (toOption_eq_some.mp h)
  exact ⟨_, located_of_mem (mem_blocks hc hb) (List.mem_of_find?_eq_some (orRaise_eq_ok.mp h))⟩

theorem instruction?_eq_some_iff {f : Function} (numbered : ∀ c ∈ f.body, c.Numbered) {l : Location} {i : Instruction} :
    f.instruction? l = some i ↔ (l, i) ∈ f.located := by
  cases hbody : f.body with
  | none =>
    unfold instruction? located blocks
    rw [hbody]
    exact ⟨fun h => (nomatch h), fun h => (List.not_mem_nil h).elim⟩
  | some c =>
    have hc := numbered c hbody
    rw [located_iff hbody hc.addressable]
    unfold instruction?
    rw [hbody]
    change (c.instruction l).toOption = some i ↔ _
    rw [toOption_eq_some]
    have hfound : ∀ b, c.block l.block = .ok b →
        (b.find? l.instruction = some i ↔ i ∈ b.instructions ∧ i.index = l.instruction) := fun b hb =>
      Block.find?_eq_some_iff (FlowGraph.numbered_iff.mp hc _ b hb).2.2
    constructor
    · intro h
      obtain ⟨b, hb, h⟩ := bind_eq_ok.mp h
      exact ⟨b, hb, (hfound b hb).mp (orRaise_eq_ok.mp h)⟩
    · rintro ⟨b, hb, hi⟩
      exact bind_eq_ok.mpr ⟨b, hb, orRaise_eq_ok.mpr ((hfound b hb).mpr hi)⟩

end Function

theorem DefUse.function_ofFunction {f : Function} {d : DefUse} (h : ofFunction f = .ok d) : d.function = f := by
  obtain ⟨_, -, h⟩ := bind_eq_ok.mp h
  obtain ⟨_, -, h⟩ := bind_eq_ok.mp h
  exact congrArg function (Except.ok.inj h).symm

namespace Custody

variable {d : DefUse} {f : Function} {s t : List Validation} {x : Validation}

theorem mem_carrier {v : Value} {a : Access} : (v, a) ∈ carrier f ↔ v ∈ valuesOf f := by
  unfold carrier
  rw [List.mem_flatMap]
  constructor
  · rintro ⟨w, hw, hmem⟩
    obtain ⟨b, -, heq⟩ := List.mem_map.mp hmem
    cases heq
    exact List.mem_eraseDups.mp hw
  · intro hv
    refine ⟨v, List.mem_eraseDups.mpr hv, List.mem_map.mpr ⟨a, ?_, rfl⟩⟩
    cases a <;> simp [Access.covered]

theorem read_mem_valuesOf {l : Location} {i : Instruction} (hi : (l, i) ∈ f.located) {v : Value}
    (hv : v ∈ i.operation.reads) : v ∈ valuesOf f :=
  List.mem_append_left _ (List.mem_flatMap.mpr ⟨(l, i), hi, List.mem_append_right _ hv⟩)

theorem origin_mem_valuesOf {v w : Value} (h : origin? d v = some w) : w ∈ valuesOf d.function := by
  unfold origin? at h
  cases ho : d.definingOperation? v with
  | none =>
    rw [ho] at h
    cases h
  | some o =>
    rw [ho] at h
    obtain ⟨written, -, ho⟩ := Option.bind_eq_some_iff.mp ho
    obtain ⟨i, hi, ho⟩ := Option.bind_eq_some_iff.mp ho
    obtain ⟨l, hlocated⟩ : ∃ l, (l, i) ∈ d.function.located := by
      obtain ⟨place, -, hi⟩ := Option.bind_eq_some_iff.mp hi
      exact Function.located_of_instruction? hi
    cases ho
    refine read_mem_valuesOf hlocated ?_
    split at h
    · rename_i ho
      rw [Option.some.inj ho]
      split at h
      · cases h
        exact List.mem_singleton.mpr rfl
      · cases h
    · rename_i ho
      cases h
      rw [Option.some.inj ho]
      exact List.mem_cons_self
    · cases h

theorem chainFrom_subset (steps : Nat) (found : List Value) (v : Value)
    (hfound : ∀ w ∈ found, w ∈ valuesOf d.function) (hv : v ∈ valuesOf d.function) :
    ∀ w ∈ chainFrom d steps found v, w ∈ valuesOf d.function := by
  induction steps generalizing found v with
  | zero => exact hfound
  | succ steps ih =>
    have hmore : ∀ w ∈ found ++ [v], w ∈ valuesOf d.function := fun w hw =>
      (List.mem_append.mp hw).elim (hfound w) fun hw => List.mem_singleton.mp hw ▸ hv
    unfold chainFrom
    split
    · exact hfound
    · split
      · rename_i u hu
        exact ih _ u hmore (origin_mem_valuesOf hu)
      · exact hmore

theorem validates_subset {l : Location} {i : Instruction} (hi : (l, i) ∈ d.function.located) :
    ∀ x ∈ validates d i.operation, x ∈ carrier d.function := by
  intro x hx
  unfold validates at hx
  cases hpointer : i.operation.pointer? with
  | none =>
    rw [hpointer] at hx
    exact (List.not_mem_nil hx).elim
  | some pointer =>
    rw [hpointer] at hx
    obtain ⟨v, hv, hx⟩ := List.mem_flatMap.mp hx
    obtain ⟨a, -, rfl⟩ := List.mem_map.mp hx
    have hread : pointer ∈ i.operation.reads := by
      cases ho : i.operation <;> simp_all [Operation.pointer?, Operation.reads]
    exact mem_carrier.mpr (chainFrom_subset _ _ _ (fun w hw => (List.not_mem_nil hw).elim)
      (read_mem_valuesOf hi hread) v hv)

def Passed (d : DefUse) (l : List Instruction) (x : Validation) : Prop := ∃ i ∈ l, x ∈ validates d i.operation

def IsState (f : Function) (s : List Validation) : Prop := ∃ q : Validation → Bool, s = (carrier f).filter q

theorem isState_nil (f : Function) : IsState f [] := ⟨fun _ => false, by simp⟩

theorem isState_allTracked (f : Function) : IsState f (allTracked f) := ⟨_, rfl⟩

theorem IsState.filter (h : IsState f s) (q : Validation → Bool) : IsState f (s.filter q) := by
  obtain ⟨r, rfl⟩ := h
  exact ⟨fun x => q x && r x, by rw [List.filter_filter]⟩

theorem IsState.subset (h : IsState f s) (hx : x ∈ s) : x ∈ carrier f := by
  obtain ⟨q, rfl⟩ := h
  exact (List.mem_filter.mp hx).1

theorem IsState.ext (hs : IsState f s) (ht : IsState f t) (h : ∀ x ∈ carrier f, x ∈ s ↔ x ∈ t) : s = t := by
  obtain ⟨q, rfl⟩ := hs
  obtain ⟨r, rfl⟩ := ht
  refine List.filter_congr fun x hx => ?_
  have := h x hx
  simp only [List.mem_filter, hx, true_and] at this
  exact Bool.eq_iff_iff.mpr this

theorem transfer_ok {l : Location} {i : Instruction} (hi : ∃ l, (l, i) ∈ d.function.located)
    (hs : IsState d.function s) :
    ∃ s', (problem d).transfer l i s = .ok s' ∧ IsState d.function s' ∧
      ∀ x, x ∈ s' ↔ x ∈ s ∨ x ∈ validates d i.operation := by
  obtain ⟨l', hi⟩ := hi
  refine ⟨_, rfl, ?_, fun x => ?_⟩
  · split
    · exact hs
    · exact ⟨_, rfl⟩
  · split
    · rename_i hempty
      rw [List.isEmpty_iff.mp hempty]
      simp
    · have := validates_subset hi x
      have := hs.subset (x := x)
      simp only [List.mem_filter, Bool.or_eq_true, List.contains_iff_mem]
      tauto

theorem through_ok (k : Nat) {l : List Instruction} (hl : ∀ i ∈ l, ∃ l, (l, i) ∈ d.function.located)
    (hs : IsState d.function s) :
    ∃ s', l.foldlM (fun s i => (problem d).transfer ⟨k, i.index⟩ i s) s = .ok s' ∧ IsState d.function s' ∧
      ∀ x, x ∈ s' ↔ x ∈ s ∨ Passed d l x := by
  induction l generalizing s with
  | nil => exact ⟨s, rfl, hs, fun x => by simp [Passed]⟩
  | cons i rest ih =>
    obtain ⟨s₁, h₁, hs₁, hmem₁⟩ := transfer_ok (l := ⟨k, i.index⟩) (hl i List.mem_cons_self) hs
    obtain ⟨s₂, h₂, hs₂, hmem₂⟩ := ih (fun j hj => hl j (List.mem_cons_of_mem i hj)) hs₁
    refine ⟨s₂, ?_, hs₂, fun x => ?_⟩
    · rw [List.foldlM_cons, h₁]
      exact h₂
    · rw [hmem₂, hmem₁, or_assoc]
      simp [Passed]

def Holds (ends : Table Nat (List Validation)) (x : Validation) (b : Nat) : Prop :=
  ∃ s, ends.get? b = some s ∧ x ∈ s

def Assigned (f : Function) (ends : Table Nat (List Validation)) (blocks : List Nat) : Prop :=
  ∀ b ∈ blocks, ∃ s, ends.get? b = some s ∧ IsState f s

theorem joinMore_ok {ends : Table Nat (List Validation)} {blocks : List Nat}
    (hassigned : Assigned d.function ends blocks) (hs : IsState d.function s) :
    ∃ s', blocks.foldlM ((problem d).joinNext ends) (some s) = .ok (some s') ∧ IsState d.function s' ∧
      ∀ x, x ∈ s' ↔ x ∈ s ∧ ∀ b ∈ blocks, Holds ends x b := by
  induction blocks generalizing s with
  | nil => exact ⟨s, rfl, hs, fun x => by simp⟩
  | cons b rest ih =>
    obtain ⟨t, ht, -⟩ := hassigned b List.mem_cons_self
    obtain ⟨s', hs', hstate, hmem⟩ := ih (fun b' hb' => hassigned b' (List.mem_cons_of_mem b hb')) (hs.filter t.contains)
    refine ⟨s', ?_, hstate, fun x => ?_⟩
    · rw [List.foldlM_cons, DataflowProblem.joinNext_some ht rfl]
      exact hs'
    · have hb : Holds ends x b ↔ x ∈ t := by simp [Holds, ht]
      rw [hmem, List.mem_filter, List.forall_mem_cons, hb, List.contains_iff_mem, and_assoc]

theorem joinEnds_ok {ends : Table Nat (List Validation)} {blocks : List Nat}
    (hassigned : Assigned d.function ends blocks) (hblocks : blocks ≠ []) :
    ∃ s, (problem d).joinEnds ends blocks = .ok (some s) ∧ IsState d.function s ∧
      ∀ x, x ∈ s ↔ ∀ b ∈ blocks, Holds ends x b := by
  cases blocks with
  | nil => exact absurd rfl hblocks
  | cons b rest =>
    obtain ⟨t, ht, hstate⟩ := hassigned b List.mem_cons_self
    obtain ⟨s, hs, hstate, hmem⟩ := joinMore_ok (fun b' hb' => hassigned b' (List.mem_cons_of_mem b hb')) hstate
    refine ⟨s, ?_, hstate, fun x => ?_⟩
    · rw [DataflowProblem.joinEnds_eq, List.foldlM_cons, DataflowProblem.joinNext_none ht]
      exact hs
    · have hb : Holds ends x b ↔ x ∈ t := by simp [Holds, ht]
      rw [hmem, List.forall_mem_cons, hb]

end Custody

namespace FlowGraph

inductive Passes (c : FlowGraph) : List Instruction → Nat → Prop
  | start {entry : Nat} : c.entry = some entry → Passes c [] entry
  | follow {passed : List Instruction} {v w : Nat} {b : Block} : Passes c passed v → c.block v = .ok b →
      (c.graph.edges.get? (v, w)).isSome → Passes c (passed ++ b.instructions) w

end FlowGraph

namespace Custody

/-- A function with its graph, its entry and an order of the blocks within reach. -/
structure Ordered (d : DefUse) (c : FlowGraph) (entry : Nat) (order : List Nat) : Prop where
  body : d.function.body = some c
  wired : c.graph.Wired
  addressable : c.Addressable
  starts : c.entry = some entry
  vertex : (c.graph.vertices.get? entry).isSome
  nodup : order.Nodup
  mem : ∀ v, v ∈ order ↔ Search.Reaches c.graph.successorsOf entry v

variable {d : DefUse} {c : FlowGraph} {entry : Nat} {order : List Nat} {ends : Table Nat (List Validation)}
variable {x : Validation} {b : Nat}

namespace Ordered

variable (h : Ordered d c entry order)

include h

theorem isVertex (hb : b ∈ order) : (c.graph.vertices.get? b).isSome :=
  h.wired.vertex_of_reaches h.vertex ((h.mem b).mp hb)

theorem block (hb : b ∈ order) : ∃ B, c.block b = .ok B := by
  obtain ⟨B, hB⟩ := Option.isSome_iff_exists.mp (h.isVertex hb)
  exact ⟨B, FlowGraph.block_eq_ok.mpr hB⟩

theorem entry_mem : entry ∈ order := (h.mem entry).mpr .refl

theorem mem_of_edge {w : Nat} (hb : b ∈ order) (hedge : (c.graph.edges.get? (b, w)).isSome) : w ∈ order :=
  (h.mem w).mpr (((h.mem b).mp hb).tail ((h.wired.successors b w).mpr hedge))

theorem exists_predecessor (hb : b ∈ order) (hentry : b ≠ entry) : ∃ p ∈ order, p ∈ c.graph.predecessorsOf b := by
  rcases (Relation.ReflTransGen.cases_tail ((h.mem b).mp hb)) with heq | ⟨p, hp, hlast⟩
  · exact absurd heq hentry
  · exact ⟨p, (h.mem p).mpr hp, (h.wired.predecessors p b).mpr ((h.wired.successors p b).mp hlast)⟩

theorem mem_of_passes {passed : List Instruction} (hpasses : c.Passes passed b) : b ∈ order := by
  induction hpasses with
  | start hstart => exact Option.some.inj (h.starts.symm.trans hstart) ▸ h.entry_mem
  | follow _ _ hedge ih => exact h.mem_of_edge ih hedge

theorem exists_passes (hb : b ∈ order) : ∃ passed, c.Passes passed b := by
  have hreaches := (h.mem b).mp hb
  clear hb
  induction hreaches with
  | refl => exact ⟨[], .start h.starts⟩
  | tail hreach hlast ih =>
    obtain ⟨passed, hpassed⟩ := ih
    obtain ⟨B, hB⟩ := h.block ((h.mem _).mpr hreach)
    exact ⟨_, .follow hpassed hB ((h.wired.successors _ _).mp hlast)⟩

theorem located_of_block {B : Block} (hB : c.block b = .ok B) :
    ∀ i ∈ B.instructions, ∃ l, (l, i) ∈ d.function.located :=
  fun _ hi => ⟨_, Function.located_of_mem (Function.mem_blocks h.body hB) hi⟩

theorem located_of_passes {passed : List Instruction} (hpasses : c.Passes passed b) :
    ∀ i ∈ passed, ∃ l, (l, i) ∈ d.function.located := by
  induction hpasses with
  | start _ => exact fun i hi => (List.not_mem_nil hi).elim
  | follow _ hB _ ih => exact fun i hi => (List.mem_append.mp hi).elim (ih i) (h.located_of_block hB i)

end Ordered

def Arrives (c : FlowGraph) (entry : Nat) (order : List Nat) (ends : Table Nat (List Validation)) (x : Validation)
    (b : Nat) : Prop :=
  b ≠ entry ∧ ∀ p ∈ order, p ∈ c.graph.predecessorsOf b → Holds ends x p

/-- What the instructions of a block validate. -/
def Adds (d : DefUse) (c : FlowGraph) (x : Validation) (b : Nat) : Prop :=
  ∃ B, c.block b = .ok B ∧ Passed d B.instructions x

theorem Arrives.mono {ends' : Table Nat (List Validation)} (h : Arrives c entry order ends x b)
    (hends : ∀ p ∈ order, Holds ends x p → Holds ends' x p) : Arrives c entry order ends' x b :=
  ⟨h.1, fun p hp hpredecessor => hends p hp (h.2 p hp hpredecessor)⟩

theorem entering_ok (h : Ordered d c entry order) (hassigned : Assigned d.function ends order) (hb : b ∈ order) :
    ∃ s, (problem d).entering c entry order ends b = .ok s ∧ IsState d.function s ∧
      ∀ x, x ∈ s ↔ Arrives c entry order ends x b := by
  unfold DataflowProblem.entering
  by_cases hentry : b = entry
  · rw [if_pos (.inl hentry)]
    exact ⟨[], rfl, isState_nil _, fun x => by simp [Arrives, hentry]⟩
  · rw [if_neg (by simp [hentry, hb])]
    have hpredecessors : c.predecessors b = .ok (c.graph.predecessorsOf b) :=
      h.wired.predecessors_ok (h.isVertex hb)
    obtain ⟨p, hp, hmem⟩ := h.exists_predecessor hb hentry
    have hne : (c.graph.predecessorsOf b).filter order.contains ≠ [] :=
      List.ne_nil_of_mem (List.mem_filter.mpr ⟨hmem, List.contains_iff_mem.mpr hp⟩)
    have hends : Assigned d.function ends ((c.graph.predecessorsOf b).filter order.contains) :=
      fun q hq => hassigned q (List.contains_iff_mem.mp (List.mem_filter.mp hq).2)
    obtain ⟨s, hs, hstate, hjoined⟩ := joinEnds_ok hends hne
    refine ⟨s, ?_, hstate, fun x => ?_⟩
    · rw [hpredecessors]
      change (DataflowProblem.joinEnds _ _ _ >>= _) = _
      rw [hs]
      rfl
    · rw [hjoined]
      constructor
      · exact fun hall => ⟨hentry, fun q hq hmem =>
          hall q (List.mem_filter.mpr ⟨hmem, List.contains_iff_mem.mpr hq⟩)⟩
      · exact fun harrives q hq =>
          harrives.2 q (List.contains_iff_mem.mp (List.mem_filter.mp hq).2) (List.mem_filter.mp hq).1

theorem ending_ok (h : Ordered d c entry order) (hassigned : Assigned d.function ends order) (hb : b ∈ order) :
    ∃ s, (problem d).ending c entry order ends b = .ok s ∧ IsState d.function s ∧
      ∀ x, x ∈ s ↔ Arrives c entry order ends x b ∨ Adds d c x b := by
  obtain ⟨s, hs, hstate, hmem⟩ := entering_ok h hassigned hb
  obtain ⟨B, hB⟩ := h.block hb
  obtain ⟨s', hs', hstate', hmem'⟩ := through_ok B.index (h.located_of_block hB) hstate
  refine ⟨s', ?_, hstate', fun x => ?_⟩
  · unfold DataflowProblem.ending
    rw [hs, hB]
    exact hs'
  · rw [hmem', hmem]
    simp [Adds, hB]

theorem holds_insert {s : List Validation} {b' : Nat} :
    Holds (ends.insert b s) x b' ↔ b' = b ∧ x ∈ s ∨ b' ≠ b ∧ Holds ends x b' := by
  unfold Holds
  rw [Table.get?_insert]
  by_cases hb : b' = b <;> simp [hb]

theorem Assigned.insert {s : List Validation} (h : Assigned d.function ends order) (hs : IsState d.function s) :
    Assigned d.function (ends.insert b s) order := by
  intro b' hb'
  rw [Table.get?_insert]
  split
  · exact ⟨s, rfl, hs⟩
  · exact h b' hb'

def hasMoved (s : List Validation) (x : Validation) : Bool := isTracked x.1 != s.contains x

theorem hasMoved_of_below {s t : List Validation} (hdown : isTracked x.1 = true → x ∈ s → x ∈ t)
    (hup : isTracked x.1 = false → x ∈ t → x ∈ s) (h : hasMoved t x = true) : hasMoved s x = true := by
  cases htracked : isTracked x.1
  · simpa [hasMoved, htracked] using hup htracked (by simpa [hasMoved, htracked] using h)
  · simpa [hasMoved, htracked] using mt (hdown htracked) (by simpa [hasMoved, htracked] using h)

def rank (f : Function) (s : List Validation) : Nat := (carrier f).countP (hasMoved s)

theorem rank_le (f : Function) (s : List Validation) : rank f s ≤ (carrier f).length := List.countP_le_length

theorem rank_lt {f : Function} {s t : List Validation} (hs : IsState f s) (ht : IsState f t) (hne : s ≠ t)
    (hbelow : ∀ x ∈ carrier f, hasMoved t x = true → hasMoved s x = true) : rank f t < rank f s := by
  obtain ⟨y, hy, hdiff⟩ : ∃ y ∈ carrier f, hasMoved t y ≠ hasMoved s y := by
    by_contra hsame
    push Not at hsame
    refine hne (hs.ext ht fun x hx => ?_)
    have hcontains := hsame x hx
    unfold hasMoved at hcontains
    rw [← List.contains_iff_mem, ← List.contains_iff_mem]
    cases htracked : isTracked x.1 <;> simp_all
  have hmoved := hbelow y hy
  refine countP_lt hbelow hy ?_ ?_
  · cases hbefore : hasMoved t y
    · rfl
    · exact absurd (hbefore.trans (hmoved hbefore).symm) hdiff
  · cases hbefore : hasMoved t y
    · exact Bool.ne_false_iff.mp fun hafter => hdiff (hbefore.trans hafter.symm)
    · exact hmoved hbefore

theorem mem_allTracked {f : Function} : x ∈ allTracked f ↔ x ∈ carrier f ∧ isTracked x.1 = true := List.mem_filter

/-- A state is below another one if it has no more tracked validations, and no fewer untracked ones. -/
def Below (f : Function) (s t : List Validation) : Prop :=
  ∀ x ∈ carrier f, (isTracked x.1 = true → x ∈ s → x ∈ t) ∧ (isTracked x.1 = false → x ∈ t → x ∈ s)

theorem falls_problem (h : Ordered d c entry order) : (problem d).Falls c (IsState d.function) (Below d.function)
    fun s => (carrier d.function).length - rank d.function s where
  refl s x _ := ⟨fun _ => id, fun _ => id⟩
  trans s t u hst htu x hx :=
    ⟨fun htracked => (htu x hx).1 htracked ∘ (hst x hx).1 htracked,
      fun htracked => (hst x hx).2 htracked ∘ (htu x hx).2 htracked⟩
  boundary := isState_nil _
  top := isState_allTracked _
  below_top s _ x hx := by
    refine ⟨fun htracked _ => mem_allTracked.mpr ⟨hx, htracked⟩, fun htracked hmem => ?_⟩
    rw [(mem_allTracked.mp hmem).2] at htracked
    cases htracked
  transfer k B hB i hi s s' hs hs' := by
    obtain ⟨_, hok, hstate, -⟩ := transfer_ok (l := ⟨B.index, i.index⟩) (h.located_of_block hB i hi) hs
    cases hs'.symm.trans hok
    exact hstate
  transfer_below k B hB i hi s t s' t' hs ht hbelow hs' ht' x hx := by
    obtain ⟨_, hok, -, hmem⟩ := transfer_ok (l := ⟨B.index, i.index⟩) (h.located_of_block hB i hi) hs
    obtain ⟨_, hok', -, hmem'⟩ := transfer_ok (l := ⟨B.index, i.index⟩) (h.located_of_block hB i hi) ht
    cases hs'.symm.trans hok
    cases ht'.symm.trans hok'
    rw [hmem, hmem']
    exact ⟨fun htracked => Or.imp_left ((hbelow x hx).1 htracked), fun htracked => Or.imp_left ((hbelow x hx).2 htracked)⟩
  join s t u hs _ hu := by
    cases hu
    exact hs.filter _
  join_below s s' t t' u u' _ _ _ _ hs ht hu hu' x hx := by
    cases hu
    cases hu'
    simp only [List.mem_filter, List.contains_iff_mem]
    exact ⟨fun htracked => And.imp ((hs x hx).1 htracked) ((ht x hx).1 htracked),
      fun htracked => And.imp ((hs x hx).2 htracked) ((ht x hx).2 htracked)⟩
  credit_le s := Nat.sub_le _ _
  credit_lt s t hs ht hbelow hne := by
    have hle := rank_le d.function s
    have hlt := rank_lt hs ht hne fun x hx => hasMoved_of_below (hbelow x hx).1 (hbelow x hx).2
    omega

theorem iterate_ok (h : Ordered d c entry order) (htop : ∀ b ∈ order, ends.get? b = some (allTracked d.function)) :
    ∃ ends', (problem d).iterate c entry order ((problem d).visitBound order.length) order ends = .ok ends' := by
  rcases (falls_problem h).iterate_ends h.wired (fun b hb => h.isVertex hb) htop with
    ⟨ends', -, hends⟩ | ⟨b, hb, ends', e, hstates, he, -⟩
  · exact ⟨ends', hends⟩
  · obtain ⟨s, hs, -⟩ := ending_ok h hstates hb
    cases hs.symm.trans he

def Ensured (d : DefUse) (c : FlowGraph) (x : Validation) (b : Nat) : Prop :=
  ∀ passed, c.Passes passed b → Passed d passed x

theorem passed_append {l m : List Instruction} : Passed d (l ++ m) x ↔ Passed d l x ∨ Passed d m x := by
  simp only [Passed, List.mem_append, or_and_right, exists_or]

theorem Passed.mem_carrier {l : List Instruction} (hl : ∀ i ∈ l, ∃ l, (l, i) ∈ d.function.located)
    (h : Passed d l x) : x ∈ carrier d.function := by
  obtain ⟨i, hi, hx⟩ := h
  obtain ⟨l, hlocated⟩ := hl i hi
  exact validates_subset hlocated x hx

theorem not_ensured_entry (h : Ordered d c entry order) : ¬ Ensured d c x entry := fun hensured => by
  obtain ⟨i, hi, -⟩ := hensured [] (.start h.starts)
  exact List.not_mem_nil hi

theorem Ensured.predecessor (hwired : c.graph.Wired) (h : Ensured d c x b) {p : Nat} {B : Block}
    (hp : p ∈ c.graph.predecessorsOf b) (hB : c.block p = .ok B) : Ensured d c x p ∨ Adds d c x p := by
  by_cases hadds : Passed d B.instructions x
  · exact .inr ⟨B, hB, hadds⟩
  · refine .inl fun passed hpassed => ?_
    have hlonger := h _ (.follow hpassed hB ((hwired.predecessors p b).mp hp))
    exact (passed_append.mp hlonger).resolve_right hadds

structure Complete (d : DefUse) (c : FlowGraph) (order : List Nat) (ends : Table Nat (List Validation)) : Prop where
  assigned : Assigned d.function ends order
  holds : ∀ b ∈ order, ∀ x, isTracked x.1 = true → Ensured d c x b ∨ Adds d c x b → Holds ends x b

theorem Complete.arrives (h : Ordered d c entry order) (hcomplete : Complete d c order ends)
    (htracked : isTracked x.1 = true) (hensured : Ensured d c x b) : Arrives c entry order ends x b := by
  refine ⟨fun heq => not_ensured_entry h (heq ▸ hensured), fun p hp hpredecessor => ?_⟩
  obtain ⟨B, hB⟩ := h.block hp
  exact hcomplete.holds p hp x htracked (hensured.predecessor h.wired hpredecessor hB)

theorem Complete.insert {s : List Validation} (h : Ordered d c entry order) (hcomplete : Complete d c order ends)
    (hstate : IsState d.function s) (hs : ∀ x, x ∈ s ↔ Arrives c entry order ends x b ∨ Adds d c x b) :
    Complete d c order (ends.insert b s) where
  assigned := hcomplete.assigned.insert hstate
  holds b' hb' x htracked hmust := by
    by_cases heq : b' = b
    · refine holds_insert.mpr (.inl ⟨heq, (hs x).mpr ?_⟩)
      exact (heq ▸ hmust).imp_left (hcomplete.arrives h htracked)
    · exact holds_insert.mpr (.inr ⟨heq, hcomplete.holds b' hb' x htracked hmust⟩)

theorem complete_of_iterate (h : Ordered d c entry order) (hcomplete : Complete d c order ends) {visits : Nat}
    {ends' : Table Nat (List Validation)} (hends : (problem d).iterate c entry order visits order ends = .ok ends') :
    Complete d c order ends' := by
  refine (DataflowProblem.iterate_induction
    (I := fun queue ends => (∀ b ∈ queue, b ∈ order) ∧ Complete d c order ends) ?_ ?_
    ⟨fun b hb => hb, hcomplete⟩ hends).2
  · exact fun b queue ends s ⟨hqueue, hcomplete⟩ _ _ => ⟨fun b' hb' => hqueue b' (List.mem_cons_of_mem b hb'), hcomplete⟩
  · intro b queue ends s successors ⟨hqueue, hcomplete⟩ hs _
    obtain ⟨s', hs', hstate, hmem⟩ := ending_ok h hcomplete.assigned (hqueue b List.mem_cons_self)
    cases hs.symm.trans hs'
    refine ⟨fun b' hb' => ?_, hcomplete.insert h hstate hmem⟩
    rcases List.mem_append.mp hb' with hb' | hb'
    · exact hqueue b' (List.mem_cons_of_mem b hb')
    · have := (List.mem_filter.mp hb').2
      simp_all

/-- When the visits have come to an end, a tracked validation arrives at a block exactly if every way to the
block passes it. -/
theorem arrives_iff_ensured (h : Ordered d c entry order) (hcomplete : Complete d c order ends) {visits : Nat}
    {ends' : Table Nat (List Validation)} (hends : (problem d).iterate c entry order visits order ends = .ok ends')
    (hb : b ∈ order) (htracked : isTracked x.1 = true) :
    Arrives c entry order ends' x b ↔ Ensured d c x b := by
  have hcomplete' := complete_of_iterate h hcomplete hends
  have hsettled := DataflowProblem.settled_of_iterate h.wired (fun b hb => hb) hends
  refine ⟨fun harrives passed hpassed => ?_, hcomplete'.arrives h htracked⟩
  -- Along a way, what arrives at a block was validated on the way.
  induction hpassed generalizing x with
  | start hstart => exact absurd (Option.some.inj (hstart.symm.trans h.starts)) harrives.1
  | @follow passed v w B hpassed hB hedge ih =>
    have hv := h.mem_of_passes hpassed
    obtain ⟨s, hs, hheld⟩ := hsettled v hv
    obtain ⟨s', hs', -, hmem⟩ := ending_ok h hcomplete'.assigned hv
    cases hs.symm.trans hs'
    have hholds : x ∈ s := by
      obtain ⟨s', hs', hx⟩ := harrives.2 v hv ((h.wired.predecessors v w).mpr hedge)
      cases hheld.symm.trans hs'
      exact hx
    refine passed_append.mpr (((hmem x).mp hholds).imp (ih hv htracked) ?_)
    rintro ⟨B', hB', hx⟩
    cases hB.symm.trans hB'
    exact hx

end Custody

end RegionGuard

import Mathlib.Data.Finset.Card
import Mathlib.Data.Finset.Dedup
import RegionGuard.Flow.WrittenNames
import RegionGuard.Proofs.DataflowSolutions
set_option autoImplicit false

namespace RegionGuard

theorem KeySet.ext_keys {κ : Type} [Ord κ] [Std.TransOrd κ] [Std.LawfulEqOrd κ] [DecidableEq κ] {s t : KeySet κ}
    (h : ∀ k, k ∈ s.keys ↔ k ∈ t.keys) : s = t := by
  have hkeys : s.keys = t.keys := Table.keys_congr fun k => Bool.eq_iff_iff.mpr <| by
    rw [← Table.mem_keys_iff, ← Table.mem_keys_iff, h]
  exact Table.ext (List.map_injective_iff.mpr (fun e e' he => Prod.ext he rfl) hkeys)

namespace DataflowProblem

section Failures

variable {σ : Type} {p : DataflowProblem σ} {c : FlowGraph} {entry : Nat} {order : List Nat} {ends : Table Nat σ}
variable {e : Failure}

theorem transfer_of_through {b : Block} {s : σ} (h : p.throughBlock b s = .error e) :
    ∃ l i s, p.transfer l i s = .error e := by
  obtain ⟨i, -, s', hs'⟩ := foldlM_eq_error h
  exact ⟨_, i, s', hs'⟩

theorem transfer_of_record {solution : DataflowSolution σ} {b : Block} {s : σ}
    (h : p.record solution b s = .error e) : ∃ l i s, p.transfer l i s = .error e := by
  rw [record_eq] at h
  rcases bind_eq_error.mp h with h | ⟨_, -, h⟩
  · obtain ⟨i, -, x, hx⟩ := foldlM_eq_error h
    rcases bind_eq_error.mp hx with hx | ⟨_, -, hx⟩
    · exact ⟨_, i, x.1, hx⟩
    · cases hx
  · cases h

variable (joins : ∀ s t, ∃ u, p.join s t = .ok u)

include joins

theorem joinEnds_total {blocks : List Nat} (hends : ∀ b ∈ blocks, ∃ s, ends.get? b = some s) :
    ∃ s?, p.joinEnds ends blocks = .ok s? := by
  rw [joinEnds_eq]
  generalize (none : Option σ) = s?
  induction blocks generalizing s? with
  | nil => exact ⟨s?, rfl⟩
  | cons b rest ih =>
    obtain ⟨t, ht⟩ := hends b List.mem_cons_self
    have hnext : ∃ u?, p.joinNext ends s? b = .ok u? := by
      cases s? with
      | none => exact ⟨_, joinNext_none ht⟩
      | some s =>
        obtain ⟨u, hu⟩ := joins s t
        exact ⟨_, joinNext_some ht hu⟩
    obtain ⟨u?, hu?⟩ := hnext
    rw [List.foldlM_cons, hu?]
    exact ih (fun b' hb' => hends b' (List.mem_cons_of_mem b hb')) u?

theorem entering_total (hwired : c.graph.Wired) (hvertex : ∀ b ∈ order, (c.graph.vertices.get? b).isSome)
    (hends : ∀ b ∈ order, ∃ s, ends.get? b = some s) (block : Nat) :
    ∃ s, p.entering c entry order ends block = .ok s := by
  unfold entering
  split
  · exact ⟨_, rfl⟩
  · rename_i hin
    obtain ⟨s?, hs?⟩ := joinEnds_total joins fun b hb =>
      hends b (List.contains_iff_mem.mp (List.mem_filter.mp hb).2)
    refine ⟨_, bind_eq_ok.mpr ⟨_, hwired.predecessors_ok (hvertex block ?_), bind_eq_ok.mpr ⟨s?, hs?, rfl⟩⟩⟩
    exact Decidable.not_not.mp fun hout => hin (.inr hout)

/-- Where states can only fall and can be joined, a problem is solved unless a transfer fails. -/
theorem solve_ends [DecidableEq σ] {possible : σ → Prop} {below : σ → σ → Prop} {credit : σ → Nat}
    (h : p.Falls c possible below credit) (hwired : c.graph.Wired) (addressable : c.Addressable)
    (starts : c.entry = some entry) (stands : c.graph.hasVertex entry) :
    (∃ solution, p.solve c = .ok solution) ∨ ∃ l i s e, p.transfer l i s = .error e ∧ p.solve c = .error e := by
  obtain ⟨order, horder⟩ : ∃ order, c.graph.reversePostOrder entry = .ok order := ⟨_, hwired.reversePostOrder_ok stands⟩
  have hvertex : ∀ b ∈ order, (c.graph.vertices.get? b).isSome := fun b hb =>
    hwired.vertex_of_reaches stands (((Graph.reversePostOrder_ok horder).2 b).mp hb)
  have hsolve : p.solve c = (do
      let ends ← p.iterate c entry order (p.visitBound order.length) order
        (Table.ofList (c.blocks.map fun b => (b.index, p.top)))
      c.blocks.foldlM (fun solution b => do
        let s ← p.entering c entry order ends b.index
        p.record solution b s) ⟨∅, ∅, ∅, ∅⟩) := by
    unfold solve
    rw [show c.entryIndex = .ok entry from orRaise_eq_ok.mpr starts]
    change (c.graph.reversePostOrder entry >>= _) = _
    rw [horder]
    rfl
  have hstart : ∀ b ∈ order, (Table.ofList (c.blocks.map fun b => (b.index, p.top))).get? b = some p.top :=
    fun b hb => by
      obtain ⟨B, hB⟩ := Option.isSome_iff_exists.mp (hvertex b hb)
      have hindex := (FlowGraph.addressable_iff.mp addressable b B (FlowGraph.block_eq_ok.mpr hB)).1
      exact hindex ▸ Table.get?_ofList_of_mem Block.index _ (Table.mem_values_of_get? hB)
  rcases h.iterate_ends hwired hvertex hstart with ⟨ends, hassigned, hends⟩ | ⟨b, hb, ends, e, hassigned, he, hends⟩
  · rw [hends] at hsolve
    have hentering : ∀ block, ∃ s, p.entering c entry order ends block = .ok s :=
      entering_total joins hwired hvertex fun b hb => (hassigned b hb).imp fun _ ht => ht.1
    cases hrecords : p.solve c with
    | ok solution => exact .inl ⟨solution, rfl⟩
    | error e =>
      obtain ⟨B, -, solution, hB⟩ := foldlM_eq_error (hsolve.symm.trans hrecords)
      obtain ⟨s, hs⟩ := hentering B.index
      rw [hs] at hB
      obtain ⟨l, i, s, he⟩ := transfer_of_record (show p.record solution B s = .error e from hB)
      exact .inr ⟨l, i, s, e, he, rfl⟩
  · rw [hends] at hsolve
    obtain ⟨s, hs⟩ := entering_total joins hwired hvertex (fun b hb => (hassigned b hb).imp fun _ ht => ht.1) b
    obtain ⟨B, hB⟩ := Option.isSome_iff_exists.mp (hvertex b hb)
    unfold ending at he
    rw [hs, FlowGraph.block_eq_ok.mpr hB] at he
    obtain ⟨l, i, s, he⟩ := transfer_of_through (show p.throughBlock B _ = .error e from he)
    exact .inr ⟨l, i, s, e, he, hsolve⟩

end Failures

section Heights

variable {σ : Type} [DecidableEq σ] {p : DataflowProblem σ} {c : FlowGraph}

theorem iterate_height (height entry : Nat) (reachable : List Nat) (visits : Nat) (queue : List Nat) (ends : Table Nat σ) :
    { p with height := height }.iterate c entry reachable visits queue ends =
      p.iterate c entry reachable visits queue ends := by
  induction visits generalizing queue ends with
  | zero => cases queue <;> rfl
  | succ visits ih =>
    cases queue with
    | nil => rfl
    | cons block queue =>
      rw [iterate_cons, iterate_cons]
      simp only [ih]
      rfl

/-- A greater bound on the visits makes no difference, unless the visits ran out. -/
theorem solve_of_le {height : Nat} (hle : p.height ≤ height) (hends : p.solve c ≠ .error (.fatal .unbounded)) :
    { p with height := height }.solve c = p.solve c := by
  unfold solve at hends ⊢
  cases hentry : c.entryIndex with
  | error e => rfl
  | ok entry =>
    rw [hentry] at hends
    change (c.graph.reversePostOrder entry >>= _) = (c.graph.reversePostOrder entry >>= _)
    change (c.graph.reversePostOrder entry >>= _) ≠ _ at hends
    cases horder : c.graph.reversePostOrder entry with
    | error e => rfl
    | ok order =>
      rw [horder] at hends
      have hbound : p.visitBound order.length ≤ { p with height := height }.visitBound order.length := by
        exact Nat.add_le_add_left (Nat.mul_le_mul_left _ (Nat.succ_le_succ hle)) _
      have hsame := (iterate_height height entry order ({ p with height := height }.visitBound order.length) order
        (Table.ofList (c.blocks.map fun b => (b.index, p.top)))).trans
          (iterate_of_le (p := p) (c := c) hbound fun h => hends (by
            change (p.iterate c entry order _ order _ >>= _) = _
            rw [h]
            rfl))
      change (iterate _ c entry order _ order _ >>= _) = (p.iterate c entry order _ order _ >>= _)
      rw [hsame]
      rfl

end Heights

variable {p : DataflowProblem (KeySet String)} {c : FlowGraph} {generated : Location → Instruction → KeySet String}

/-- Instructions add names of their own, if they do not raise an error. -/
def Adds (p : DataflowProblem (KeySet String)) (generated : Location → Instruction → KeySet String) : Prop :=
  ∀ l i s, (∃ e, p.transfer l i s = .error (.error e)) ∨
    ∃ t, p.transfer l i s = .ok t ∧ ∀ n, n ∈ t.keys ↔ n ∈ s.keys ∨ n ∈ (generated l i).keys

/-- States meet in their union. -/
def Unites (p : DataflowProblem (KeySet String)) : Prop :=
  ∀ s t, ∃ u, p.join s t = .ok u ∧ ∀ n, n ∈ u.keys ↔ n ∈ s.keys ∨ n ∈ t.keys

/-- States meet in their intersection. -/
def Intersects (p : DataflowProblem (KeySet String)) : Prop :=
  ∀ s t, ∃ u, p.join s t = .ok u ∧ ∀ n, n ∈ u.keys ↔ n ∈ s.keys ∧ n ∈ t.keys

/-- The names of the boundary and those that the instructions of a graph add. -/
def names (p : DataflowProblem (KeySet String)) (c : FlowGraph)
    (generated : Location → Instruction → KeySet String) : List String :=
  p.boundary.keys ++ c.blocks.flatMap fun b => b.instructions.flatMap fun i => (generated ⟨b.index, i.index⟩ i).keys

theorem mem_names_of_generated {k : Nat} {b : Block} (hb : c.block k = .ok b) {i : Instruction}
    (hi : i ∈ b.instructions) {n : String} (hn : n ∈ (generated ⟨b.index, i.index⟩ i).keys) :
    n ∈ p.names c generated :=
  List.mem_append_right _ (List.mem_flatMap.mpr
    ⟨b, Table.mem_values_of_get? (FlowGraph.block_eq_ok.mp hb), List.mem_flatMap.mpr ⟨i, hi, hn⟩⟩)

theorem Adds.mem_keys (h : p.Adds generated) {l : Location} {i : Instruction} {s t : KeySet String}
    (ht : p.transfer l i s = .ok t) (n : String) : n ∈ t.keys ↔ n ∈ s.keys ∨ n ∈ (generated l i).keys := by
  rcases h l i s with ⟨e, he⟩ | ⟨t', ht', hmem⟩
  · cases ht.symm.trans he
  · cases ht.symm.trans ht'
    exact hmem n

theorem Unites.mem_keys (h : p.Unites) {s t u : KeySet String} (hu : p.join s t = .ok u) (n : String) :
    n ∈ u.keys ↔ n ∈ s.keys ∨ n ∈ t.keys := by
  obtain ⟨u', hu', hmem⟩ := h s t
  cases hu.symm.trans hu'
  exact hmem n

theorem Intersects.mem_keys (h : p.Intersects) {s t u : KeySet String} (hu : p.join s t = .ok u) (n : String) :
    n ∈ u.keys ↔ n ∈ s.keys ∧ n ∈ t.keys := by
  obtain ⟨u', hu', hmem⟩ := h s t
  cases hu.symm.trans hu'
  exact hmem n

/-- A smaller set of names has fewer of some names, if the greater one has no others. -/
theorem card_inter_lt {names : Finset String} {s t : KeySet String} (ht : ∀ n ∈ t.keys, n ∈ names) (hle : s.keys ⊆ t.keys)
    (hne : s ≠ t) : (names ∩ s.keys.toFinset).card < (names ∩ t.keys.toFinset).card := by
  obtain ⟨n, hn, hnew⟩ : ∃ n ∈ t.keys, n ∉ s.keys := by
    by_contra hall
    push Not at hall
    exact hne (KeySet.ext_keys fun n => ⟨@hle n, hall n⟩)
  refine Finset.card_lt_card (Finset.ssubset_iff_subset_ne.mpr ⟨?_, fun heq => hnew ?_⟩)
  · exact Finset.inter_subset_inter_left fun n => by
      rw [List.mem_toFinset, List.mem_toFinset]
      exact @hle n
  · have hmem : n ∈ names ∩ t.keys.toFinset :=
      Finset.mem_inter.mpr ⟨ht n hn, List.mem_toFinset.mpr hn⟩
    exact List.mem_toFinset.mp (Finset.mem_inter.mp (heq ▸ hmem)).2

/-- From nothing by unions, the sets at the ends of blocks grow. -/
theorem falls_of_unites (adds : p.Adds generated) (unites : p.Unites) (htop : p.top = ∅)
    (hheight : (p.names c generated).toFinset.card ≤ p.height) :
    p.Falls c (fun s => s.keys ⊆ p.names c generated) (fun s t => t.keys ⊆ s.keys)
      fun s => (p.names c generated).toFinset.card - ((p.names c generated).toFinset ∩ s.keys.toFinset).card where
  refl _ := List.Subset.refl _
  trans _ _ _ hst htu := List.Subset.trans htu hst
  boundary := List.subset_append_left _ _
  top := by
    rw [htop]
    exact List.nil_subset _
  below_top _ _ := by
    rw [htop]
    exact List.nil_subset _
  transfer _ _ hb _ hi _ _ hs hs' n hn :=
    ((adds.mem_keys hs' n).mp hn).elim (@hs n) (mem_names_of_generated hb hi)
  transfer_below _ _ _ _ _ _ _ _ _ _ _ hle hs' ht' n hn :=
    (adds.mem_keys hs' n).mpr (((adds.mem_keys ht' n).mp hn).imp_left (@hle n))
  join _ _ _ hs ht hu n hn := ((unites.mem_keys hu n).mp hn).elim (@hs n) (@ht n)
  join_below _ _ _ _ _ _ _ _ _ _ hs ht hu hu' n hn :=
    (unites.mem_keys hu n).mpr (((unites.mem_keys hu' n).mp hn).imp (@hs n) (@ht n))
  credit_le _ := (Nat.sub_le _ _).trans hheight
  credit_lt s _ hs _ hle hne := by
    have hlt := card_inter_lt (fun _ hn => List.mem_toFinset.mpr (hs hn)) hle hne.symm
    have hle : ((p.names c generated).toFinset ∩ s.keys.toFinset).card ≤ (p.names c generated).toFinset.card :=
      Finset.card_le_card Finset.inter_subset_left
    omega

/-- From everything by intersections, the sets at the ends of blocks shrink. -/
theorem falls_of_intersects (adds : p.Adds generated) (intersects : p.Intersects)
    (htop : p.names c generated ⊆ p.top.keys) (hheight : p.top.keys.toFinset.card ≤ p.height) :
    p.Falls c (fun s => s.keys ⊆ p.top.keys) (fun s t => s.keys ⊆ t.keys)
      fun s => (p.top.keys.toFinset ∩ s.keys.toFinset).card where
  refl _ := List.Subset.refl _
  trans _ _ _ hst htu := List.Subset.trans hst htu
  boundary := List.Subset.trans (List.subset_append_left _ _) htop
  top := List.Subset.refl _
  below_top _ hs := hs
  transfer _ _ hb _ hi _ _ hs hs' n hn :=
    ((adds.mem_keys hs' n).mp hn).elim (@hs n) fun hn => htop (mem_names_of_generated hb hi hn)
  transfer_below _ _ _ _ _ _ _ _ _ _ _ hle hs' ht' n hn :=
    (adds.mem_keys ht' n).mpr (((adds.mem_keys hs' n).mp hn).imp_left (@hle n))
  join _ _ _ hs _ hu n hn := hs ((intersects.mem_keys hu n).mp hn).1
  join_below _ _ _ _ _ _ _ _ _ _ hs ht hu hu' n hn :=
    (intersects.mem_keys hu' n).mpr (((intersects.mem_keys hu n).mp hn).imp (@hs n) (@ht n))
  credit_le _ := (Finset.card_le_card Finset.inter_subset_left).trans hheight
  credit_lt _ _ _ ht hle hne :=
    card_inter_lt (fun _ hn => List.mem_toFinset.mpr (ht hn)) hle hne

/-- Whatever transfers and joins do, a solved problem is answered by a solution. Sets of names that instructions add
to are solved by unions from nothing, and by intersections from all the names, unless an instruction raises an error:
more visits than some make no difference. -/
theorem answers_are_solutions {entry : Nat} (wired : c.graph.Wired) (addressable : c.Addressable)
    (starts : c.entry = some entry) (stands : c.graph.hasVertex entry) :
    (∀ {σ : Type} [DecidableEq σ] (p : DataflowProblem σ) (solution : DataflowSolution σ),
      p.solve c = .ok solution → solution.Solves p c entry) ∧
    ∀ (p : DataflowProblem (KeySet String)) (generated : Location → Instruction → KeySet String), p.Adds generated →
      (p.Unites ∧ p.top = ∅ ∨ p.Intersects ∧ p.names c generated ⊆ p.top.keys) →
        ∃ n result, (∀ height, n ≤ height → { p with height := height }.solve c = result) ∧
          ((∃ solution, result = .ok solution) ∨
            ∃ l i s e, p.transfer l i s = .error (.error e) ∧ result = .error (.error e)) := by
  refine ⟨fun p solution h => solves_of_solve wired addressable starts h, fun p generated adds meets => ?_⟩
  have joins : ∀ s t, ∃ u, p.join s t = .ok u := fun s t => by
    rcases meets with ⟨unites, -⟩ | ⟨intersects, -⟩
    · exact (unites s t).imp fun _ hu => hu.1
    · exact (intersects s t).imp fun _ hu => hu.1
  obtain ⟨n, possible, below, credit, falls⟩ : ∃ n possible below credit,
      ({ p with height := n } : DataflowProblem (KeySet String)).Falls c possible below credit := by
    rcases meets with ⟨unites, htop⟩ | ⟨intersects, htop⟩
    · exact ⟨(p.names c generated).toFinset.card, _, _, _,
        falls_of_unites (p := { p with height := (p.names c generated).toFinset.card }) adds unites htop (Nat.le_refl _)⟩
    · exact ⟨p.top.keys.toFinset.card, _, _, _,
        falls_of_intersects (p := { p with height := p.top.keys.toFinset.card }) adds intersects htop (Nat.le_refl _)⟩
  have ends : (∃ solution, { p with height := n }.solve c = .ok solution) ∨
      ∃ l i s e, p.transfer l i s = .error (.error e) ∧ { p with height := n }.solve c = .error (.error e) := by
    rcases solve_ends (p := { p with height := n }) joins falls wired addressable starts stands with hok | ⟨l, i, s, e, he, hends⟩
    · exact .inl hok
    · rcases adds l i s with ⟨e', he'⟩ | ⟨t, ht, -⟩
      · cases (show p.transfer l i s = .error e from he).symm.trans he'
        exact .inr ⟨l, i, s, e', he', hends⟩
      · cases (show p.transfer l i s = .error e from he).symm.trans ht
  refine ⟨n, { p with height := n }.solve c, fun height hle => ?_, ends⟩
  refine solve_of_le (p := { p with height := n }) hle fun hunbounded => ?_
  rcases ends with ⟨solution, hok⟩ | ⟨-, -, -, e, -, hfails⟩
  · cases hunbounded.symm.trans hok
  · cases hunbounded.symm.trans hfails

end DataflowProblem

namespace WrittenNames

variable (f : Function) (boundary : List String) (forbidden : Option String)

def writes (_ : Location) (i : Instruction) : KeySet String :=
  KeySet.ofKeys (i.operation.written?.map (·.name)).toList

theorem mem_keys_transfer (l : Location) (i : Instruction) (s : KeySet String) :
    (∃ e, transfer forbidden l i s = .error (.error e)) ∨
      ∃ t, transfer forbidden l i s = .ok t ∧ ∀ n, n ∈ t.keys ↔ n ∈ s.keys ∨ n ∈ (writes l i).keys := by
  unfold transfer writes
  cases i.operation.written? with
  | none => exact .inr ⟨s, rfl, fun n => by simp [KeySet.mem_keys_ofKeys]⟩
  | some v =>
    dsimp only
    split
    · exact .inl ⟨_, rfl⟩
    · refine .inr ⟨_, rfl, fun n => ?_⟩
      rw [KeySet.mem_keys_add, KeySet.mem_keys_ofKeys, or_comm]
      simp

theorem adds_onSomePath : (onSomePath f boundary forbidden).Adds writes := mem_keys_transfer forbidden

theorem adds_onEveryPath : (onEveryPath f boundary forbidden).Adds writes := mem_keys_transfer forbidden

theorem unites_onSomePath : (onSomePath f boundary forbidden).Unites := fun s t =>
  ⟨_, rfl, fun n => by rw [KeySet.mem_keys_foldl_add, or_comm]⟩

theorem intersects_onEveryPath : (onEveryPath f boundary forbidden).Intersects := fun s t =>
  ⟨_, rfl, fun n => by
    rw [Table.keys_filter, List.mem_filter, Table.mem_keys_iff (t := t)]
    rfl⟩

/-- A loop that is entered from code out of reach as well. -/
def revisited : Function :=
  let slot : Variable := ⟨"slot", .pointer⟩
  let left : Variable := ⟨"left", .integer 64⟩
  .ofCode "revisit" [] [
    [.alloca slot (.integer 64) (.constant (.make 1 64))],
    [.load left (.variable slot)],
    [.load ⟨"last", .integer 64⟩ (.variable slot)],
    [.alloca ⟨"spare", .pointer⟩ (.integer 64) (.constant (.make 1 64))]]
    [(0, 1, none), (1, 1, some (.isTrue (.variable left))), (1, 2, some (.isFalse (.variable left))), (3, 1, none)]

/-- On every path to the loop the slot is written, and on some path what is left; more visits find nothing else. -/
theorem revisited_solved :
    ∃ c must may, revisited.body = some c ∧ c.graph.Wired ∧ c.Addressable ∧ c.entry = some 0 ∧ c.graph.hasVertex 0 = true ∧
      (onEveryPath revisited ["base"] none).solve c = .ok must ∧
        must.Solves (onEveryPath revisited ["base"] none) c 0 ∧
          (must.blockIn? 1).map Table.keys = some ["base", "slot"] ∧
      (onSomePath revisited ["base"] none).solve c = .ok may ∧
        may.Solves (onSomePath revisited ["base"] none) c 0 ∧
          (may.blockIn? 1).map Table.keys = some ["base", "left", "slot"] ∧
      (onEveryPath revisited ["base"] none).names c writes ⊆ (onEveryPath revisited ["base"] none).top.keys ∧
      (∃ n result, ∀ height, n ≤ height →
        { onEveryPath revisited ["base"] none with height := height }.solve c = result) ∧
      ∃ n result, ∀ height, n ≤ height →
        { onSomePath revisited ["base"] none with height := height }.solve c = result := by
  have hcode : ∃ c ∈ revisited.body, c.entry = some 0 ∧ c.graph.hasVertex 0 = true ∧
      (onEveryPath revisited ["base"] none).names c writes ⊆ (onEveryPath revisited ["base"] none).top.keys ∧
      (∃ must ∈ ((onEveryPath revisited ["base"] none).solve c).toOption,
        (must.blockIn? 1).map Table.keys = some ["base", "slot"]) ∧
      ∃ may ∈ ((onSomePath revisited ["base"] none).solve c).toOption,
        (may.blockIn? 1).map Table.keys = some ["base", "left", "slot"] := by
    decide +kernel
  obtain ⟨c, hbody, hentry, hstands, hnames, ⟨must, hmust, hmustIn⟩, may, hmay, hmayIn⟩ := hcode
  have made := Function.made_of_ofCode c hbody
  obtain ⟨solves, settles⟩ := DataflowProblem.answers_are_solutions made.wired made.numbered.addressable hentry hstands
  have hmust := toOption_eq_some.mp hmust
  have hmay := toOption_eq_some.mp hmay
  obtain ⟨n, result, hresult, -⟩ := settles _ writes (adds_onEveryPath revisited ["base"] none)
    (.inr ⟨intersects_onEveryPath revisited ["base"] none, hnames⟩)
  obtain ⟨n', result', hresult', -⟩ := settles _ writes (adds_onSomePath revisited ["base"] none)
    (.inl ⟨unites_onSomePath revisited ["base"] none, rfl⟩)
  exact ⟨c, must, may, hbody, made.wired, made.numbered.addressable, hentry, hstands, hmust, solves _ must hmust, hmustIn, hmay,
    solves _ may hmay, hmayIn, hnames, ⟨n, result, hresult⟩, n', result', hresult'⟩

/-- What stands for the first of two instructions of one number is what enters the second: nothing is written at the start
of their block, but something is before its first instruction. -/
theorem shared_number_unsolved :
    ∃ c solution b i rest s t, Custody.loadsTwice.body = some c ∧ c.Built ∧ c.entry = some 0 ∧
      c.graph.hasVertex 0 = true ∧ (onSomePath Custody.loadsTwice [] none).solve c = .ok solution ∧
      c.block 0 = .ok b ∧ b.instructions = i :: rest ∧ solution.blockIn? 0 = some s ∧
      solution.stateIn? ⟨0, i.index⟩ = some t ∧ s.keys = [] ∧ t.keys = ["first"] ∧
      ¬ solution.Solves (onSomePath Custody.loadsTwice [] none) c 0 := by
  have hcode : ∃ c ∈ Custody.loadsTwice.body, c.entry = some 0 ∧ c.graph.hasVertex 0 = true ∧
      ∃ solution ∈ ((onSomePath Custody.loadsTwice [] none).solve c).toOption, ∃ b ∈ (c.block 0).toOption,
        (∃ i ∈ b.instructions.head?, ∃ t ∈ solution.stateIn? ⟨0, i.index⟩, t.keys = ["first"]) ∧
          ∃ s ∈ solution.blockIn? 0, s.keys = [] := by
    decide +kernel
  obtain ⟨c, hbody, hentry, hstands, solution, hsolution, b, hb, ⟨i, hi, t, ht, htkeys⟩, s, hs, hskeys⟩ := hcode
  have hb := toOption_eq_some.mp hb
  obtain ⟨rest, hrest⟩ := List.head?_eq_some_iff.mp hi
  refine ⟨c, solution, b, i, rest, s, t, hbody, Function.built_renumber Function.built_of_ofCode 0 _ c hbody, hentry,
    hstands, toOption_eq_some.mp hsolution, hb, hrest, hs, ht, hskeys, htkeys, fun solves => ?_⟩
  obtain ⟨s', u, hs', hchains, -⟩ := solves.through 0 b hb
  cases hs.symm.trans hs'
  rw [hrest] at hchains
  cases hchains with
  | next hin _ _ _ =>
    cases ht.symm.trans hin
    rw [hskeys] at htkeys
    cases htkeys

end WrittenNames

end RegionGuard

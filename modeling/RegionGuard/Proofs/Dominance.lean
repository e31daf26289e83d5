import RegionGuard.Graph.Dominators
import RegionGuard.Proofs.DepthFirst
import RegionGuard.Proofs.Semidominators
import RegionGuard.Proofs.Wiring
set_option autoImplicit false

namespace RegionGuard

open Search (Reaches)

namespace Graph

variable {ν ε : Type} {g : Graph ν ε} {root a b u v w : Nat} {l : List Nat}

/-- A way along the edges from the root to a vertex, with the vertices that it passes through, the last one
first. -/
inductive Way (g : Graph ν ε) (root : Nat) : Nat → List Nat → Prop where
  | start : g.Way root root [root]
  | follow {v w : Nat} {l : List Nat} (hl : g.Way root v l) (hedge : (g.edges.get? (v, w)).isSome) :
    g.Way root w (w :: l)

/-- Every way to `v` passes through `u`. -/
def Dominates (g : Graph ν ε) (root u v : Nat) : Prop := ∀ l, g.Way root v l → u ∈ l

/-- Of all that dominates `v`, besides `v`, the vertex `u` is dominated by the rest. -/
structure ImmediatelyDominates (g : Graph ν ε) (root u v : Nat) : Prop where
  reached : ∃ l, g.Way root v l
  ne : u ≠ v
  dominates : g.Dominates root u v
  nearest : ∀ d, g.Dominates root d v → d ≠ v → g.Dominates root d u

theorem Way.root_mem (h : g.Way root v l) : root ∈ l := by
  induction h with
  | start => exact List.mem_singleton_self root
  | follow _ _ ih => exact List.mem_cons_of_mem _ ih

theorem Way.self_mem (h : g.Way root v l) : v ∈ l := by
  cases h with
  | start => exact List.mem_singleton_self root
  | follow _ _ => exact List.mem_cons_self

theorem Wired.reached_iff (wired : g.Wired) : (∃ l, g.Way root v l) ↔ Reaches g.successorsOf root v := by
  constructor
  · rintro ⟨l, hl⟩
    induction hl with
    | start => exact .refl
    | follow _ hedge ih => exact ih.tail ((wired.successors _ _).mpr hedge)
  · intro h
    induction h with
    | refl => exact ⟨[root], .start⟩
    | tail _ hlast ih =>
      obtain ⟨l, hl⟩ := ih
      exact ⟨_, hl.follow ((wired.successors _ _).mp hlast)⟩

section Tree

variable (wired : g.Wired)
include wired

theorem Wired.mem_order_iff : v ∈ (g.searchTree root).order ↔ ∃ l, g.Way root v l := by
  rw [(g.searchTree_spec root).2.2.2 v, wired.reached_iff]

theorem Wired.dominates_iff (ha : (g.searchTree root).order[u]? = some a)
    (hb : (g.searchTree root).order[v]? = some b) :
    SearchTree.Dominates ((g.searchTree root).Joins g.successorsOf) u v ↔ g.Dominates root a b := by
  obtain ⟨-, hroot, hnodup, -⟩ := g.searchTree_spec root
  rcases Nat.eq_zero_or_pos u with rfl | hu
  · cases hroot.symm.trans ha
    exact iff_of_true (.inl rfl) fun l hl => hl.root_mem
  have unique : ∀ {x : Nat}, (g.searchTree root).order[x]? = some a → x = u := fun hx =>
    (List.getElem?_inj (Walk.lt_size_of_some hx) hnodup).mp (hx.trans ha.symm)
  constructor
  · rintro (rfl | h) l hl
    · exact absurd hu (Nat.lt_irrefl 0)
    · by_contra hnot
      refine h ?_
      clear h
      induction hl generalizing v with
      | start =>
        have : v = 0 := (List.getElem?_inj (Walk.lt_size_of_some hb) hnodup).mp (hb.trans hroot.symm)
        exact this ▸ .refl
      | @follow x y l hx hedge ih =>
        rw [List.mem_cons, not_or] at hnot
        obtain ⟨w, hw⟩ := List.getElem?_of_mem (wired.mem_order_iff.mpr ⟨l, hx⟩)
        refine .tail (ih hw hnot.2) ⟨⟨x, y, hw, hb, (wired.successors x y).mpr hedge⟩, ?_⟩
        rintro rfl
        exact hnot.1 (Option.some.inj (ha.symm.trans hb))
  · refine fun h => .inr fun havoids => ?_
    have hway : ∃ l, g.Way root b l ∧ a ∉ l := by
      clear h
      induction havoids generalizing b with
      | refl =>
        cases hroot.symm.trans hb
        refine ⟨[root], .start, fun hmem => ?_⟩
        rw [List.mem_singleton] at hmem
        have := unique (hroot.trans (congrArg some hmem.symm))
        omega
      | @tail x y _ hlast ih =>
        obtain ⟨⟨c, d, hc, hd, hmem⟩, hne⟩ := hlast
        cases hd.symm.trans hb
        obtain ⟨l, hl, hnot⟩ := ih hc
        refine ⟨b :: l, hl.follow ((wired.successors c b).mp hmem), fun hmem => ?_⟩
        rcases List.mem_cons.mp hmem with rfl | hmem
        · exact hne (unique hb)
        · exact hnot hmem
    obtain ⟨l, hl, hnot⟩ := hway
    exact hnot (h l hl)

theorem Wired.mem_preceding_iff (hw : w < (g.searchTree root).size) :
    v ∈ g.preceding (g.searchTree root) w ↔ (g.searchTree root).Joins g.successorsOf v w := by
  obtain ⟨-, -, hnodup, -⟩ := g.searchTree_spec root
  have hvertex : (g.searchTree root).order[w]? = some ((g.searchTree root).order.getD w 0) := by
    rw [List.getD_eq_getElem?_getD, List.getElem?_eq_getElem hw]
    rfl
  unfold preceding
  generalize (g.searchTree root).order.getD w 0 = y at hvertex
  have hindex : ∀ x, (g.searchTree root).order.idxOf? x = some v ↔ (g.searchTree root).order[v]? = some x := by
    intro x
    rw [List.idxOf?_eq_some_iff, List.getElem?_eq_some_iff]
    refine ⟨fun ⟨hlt, heq, _⟩ => ⟨hlt, heq⟩, fun ⟨hlt, heq⟩ => ⟨hlt, heq, fun j hj hjx => ?_⟩⟩
    have := (List.Nodup.getElem_inj_iff hnodup).mp (hjx.trans heq.symm)
    omega
  rw [List.mem_filterMap]
  constructor
  · rintro ⟨x, hx, hv⟩
    exact ⟨x, y, (hindex x).mp hv, hvertex, (wired.successors x y).mpr ((wired.predecessors x y).mp hx)⟩
  · rintro ⟨x, y', hx, hy', hmem⟩
    cases hvertex.symm.trans hy'
    exact ⟨x, (wired.predecessors x y).mpr ((wired.successors x y).mp hmem), (hindex x).mpr hx⟩

end Tree

def idomPositions (g : Graph ν ε) (root : Nat) : List Nat :=
  (g.searchTree root).immediateDominators (g.preceding (g.searchTree root))

/-- What the tree gives for a position is an earlier one, whose dominators are the rest of those of the
position. -/
theorem Wired.settled (wired : g.Wired) (root : Nat) : (g.idomPositions root).length = (g.searchTree root).size ∧
    ∀ w, 0 < w → w < (g.searchTree root).size →
      SearchTree.Settled ((g.searchTree root).Joins g.successorsOf) (g.idomPositions root) w :=
  SearchTree.settled_immediateDominators (g.searchTree_spec root).1
    (SearchTree.bounds_semidominators (g.searchTree_spec root).1 fun _ hw _ => wired.mem_preceding_iff hw)

theorem Wired.treeDominators_get? (wired : g.Wired) : (g.treeDominators root).get? b = some a ↔
    ∃ w, 0 < w ∧ (g.searchTree root).order[w]? = some b ∧
      (g.searchTree root).order[(g.idomPositions root).getD w 0]? = some a := by
  obtain ⟨-, -, hnodup, -⟩ := g.searchTree_spec root
  obtain ⟨hlength, hsettled⟩ := wired.settled root
  have hvertex : ∀ {w x : Nat}, (g.searchTree root).order[w]? = some x ↔
      w < (g.searchTree root).size ∧ (g.searchTree root).order.getD w 0 = x := fun {w x} => by
    rw [List.getElem?_eq_some_iff]
    exact ⟨fun ⟨h, hx⟩ => ⟨h, by rw [List.getD_eq_getElem _ _ h, hx]⟩,
      fun ⟨h, hx⟩ => ⟨h, by rw [List.getD_eq_getElem _ _ h] at hx; exact hx⟩⟩
  have hmem : ∀ {i w : Nat}, (i, w) ∈ (g.idomPositions root).zipIdx.tail ↔
      0 < w ∧ w < (g.searchTree root).size ∧ (g.idomPositions root).getD w 0 = i := fun {i w} => by
    rw [List.tail_zipIdx, List.mk_mem_zipIdx_iff_le_and_getElem?_sub, List.getElem?_tail, ← hlength]
    constructor
    · rintro ⟨hw, hi⟩
      rw [show w - (0 + 1) + 1 = w by omega] at hi
      obtain ⟨hlt, heq⟩ := List.getElem?_eq_some_iff.mp hi
      exact ⟨by omega, hlt, by rw [List.getD_eq_getElem _ _ hlt, heq]⟩
    · rintro ⟨hw, hlt, heq⟩
      rw [show w - (0 + 1) + 1 = w by omega, List.getElem?_eq_some_iff]
      exact ⟨by omega, hlt, by rw [List.getD_eq_getElem _ _ hlt] at heq; exact heq⟩
  have hdistinct : (((g.idomPositions root).zipIdx.tail.map fun e =>
      ((g.searchTree root).order.getD e.2 0, (g.searchTree root).order.getD e.1 0)).map (·.1)).Nodup := by
    rw [List.map_map]
    have hpositions : ((g.idomPositions root).zipIdx.tail.map (·.2)).Nodup := by
      rw [List.tail_zipIdx, List.zipIdx_map_snd]
      exact List.nodup_range'
    rw [show ((fun e : Nat × Nat => e.1) ∘ fun e : Nat × Nat => ((g.searchTree root).order.getD e.2 0,
      (g.searchTree root).order.getD e.1 0)) = (fun w => (g.searchTree root).order.getD w 0) ∘ (·.2) from rfl,
      ← List.map_map]
    refine List.Nodup.map_on (fun v hv w hw heq => ?_) hpositions
    obtain ⟨e, he, rfl⟩ := List.mem_map.mp hv
    obtain ⟨e', he', rfl⟩ := List.mem_map.mp hw
    have hlt := (hmem.mp he).2.1
    have hlt' := (hmem.mp he').2.1
    exact (List.getElem?_inj hlt hnodup).mp ((hvertex.mpr ⟨hlt, heq⟩).trans (hvertex.mpr ⟨hlt', rfl⟩).symm)
  unfold treeDominators
  dsimp only
  change (Table.ofList ((g.idomPositions root).zipIdx.tail.map fun e =>
    ((g.searchTree root).order.getD e.2 0, (g.searchTree root).order.getD e.1 0))).get? b = some a ↔ _
  rw [Table.get?_ofList_eq_some hdistinct, List.mem_map]
  constructor
  · rintro ⟨⟨i, w⟩, hiw, heq⟩
    obtain ⟨hpos, hw, rfl⟩ := hmem.mp hiw
    cases heq
    have hlt := (hsettled w hpos hw).1
    exact ⟨w, hpos, hvertex.mpr ⟨hw, rfl⟩, hvertex.mpr ⟨Nat.lt_trans hlt hw, rfl⟩⟩
  · rintro ⟨w, hpos, hb, ha⟩
    obtain ⟨hw, rfl⟩ := hvertex.mp hb
    obtain ⟨-, rfl⟩ := hvertex.mp ha
    exact ⟨((g.idomPositions root).getD w 0, w), hmem.mpr ⟨hpos, hw, rfl⟩, rfl⟩

theorem Wired.size_treeDominators (wired : g.Wired) (root : Nat) :
    (g.searchTree root).size ≤ (g.treeDominators root).size + 1 := by
  obtain ⟨-, -, hnodup, -⟩ := g.searchTree_spec root
  obtain ⟨-, hsettled⟩ := wired.settled root
  have hsubset : (g.searchTree root).order.tail ⊆ (g.treeDominators root).keys := by
    intro b hb
    obtain ⟨w, hw⟩ := List.getElem?_of_mem hb
    rw [List.getElem?_tail] at hw
    have hsize := Walk.lt_size_of_some hw
    have hlt := (hsettled (w + 1) (Nat.succ_pos w) hsize).1
    have hentry : (g.treeDominators root).get? b = some _ :=
      wired.treeDominators_get?.mpr ⟨w + 1, Nat.succ_pos w, hw, List.getElem?_eq_getElem (Nat.lt_trans hlt hsize)⟩
    rw [Table.mem_keys_iff, hentry]
    rfl
  have hle := (hnodup.tail).length_le_of_subset hsubset
  have hkeys : (g.treeDominators root).keys.length = (g.treeDominators root).size := List.length_map _
  rw [List.length_tail, hkeys] at hle
  unfold SearchTree.size
  omega

theorem Way.suffix_of_mem (hl : g.Way root v l) (hu : u ∈ l) : ∃ l', g.Way root u l' ∧ l' <:+ l := by
  induction hl with
  | start => exact ⟨[root], List.mem_singleton.mp hu ▸ .start, List.suffix_refl _⟩
  | @follow x y l hx hedge ih =>
    rcases List.mem_cons.mp hu with rfl | hu
    · exact ⟨_, hx.follow hedge, List.suffix_refl _⟩
    · obtain ⟨l', hl', hsuffix⟩ := ih hu
      exact ⟨l', hl', hsuffix.trans (List.suffix_cons y l)⟩

/-- The end of a way may be put behind another way to where it begins. -/
theorem Way.graft {newer older older' : List Nat} (hw : g.Way root v (newer ++ u :: older))
    (hother : g.Way root u (u :: older')) : g.Way root v (newer ++ u :: older') := by
  induction newer generalizing v with
  | nil =>
    cases hw with
    | start => exact hother
    | follow _ _ => exact hother
  | cons x rest ih =>
    generalize hlist : x :: rest ++ u :: older = l at hw
    cases hw with
    | start => simp at hlist
    | follow hl hedge =>
      obtain ⟨rfl, rfl⟩ := List.cons.inj hlist
      exact (ih hl).follow hedge

theorem Way.exists_of_mem (hl : g.Way root v l) (hu : u ∈ l) : ∃ l', g.Way root u l' := by
  obtain ⟨l', hl', -⟩ := hl.suffix_of_mem hu
  exact ⟨l', hl'⟩

theorem Dominates.trans (huv : g.Dominates root u v) (hvw : g.Dominates root v w) : g.Dominates root u w := by
  intro l hl
  obtain ⟨l', hl', hsuffix⟩ := hl.suffix_of_mem (hvw l hl)
  exact hsuffix.subset (huv l' hl')

theorem Way.eq_cons (hl : g.Way root v l) : ∃ older, l = v :: older := by
  cases hl with
  | start => exact ⟨[], rfl⟩
  | follow _ _ => exact ⟨_, rfl⟩

/-- What a way does not come by behind its last visit to another vertex dominates that, if it dominates the end. -/
theorem Dominates.of_later {newer older : List Nat} (hu : g.Dominates root u v) (hl : g.Way root v (newer ++ w :: older))
    (hnot : u ∉ newer) : g.Dominates root u w := by
  intro p hp
  obtain ⟨older', rfl⟩ := hp.eq_cons
  exact (List.mem_append.mp (hu _ (hl.graft hp))).resolve_left hnot

theorem Dominates.total (hl : g.Way root v l) (hu : g.Dominates root u v) (hw : g.Dominates root w v) :
    g.Dominates root u w ∨ g.Dominates root w u := by
  obtain ⟨newer, older, rfl, hnot⟩ := List.eq_append_cons_of_mem (hu l hl)
  by_cases hmem : w ∈ newer
  · obtain ⟨newest, between, rfl⟩ := List.append_of_mem hmem
    rw [List.append_assoc, List.cons_append] at hl
    exact .inl (hu.of_later hl fun h => hnot (List.mem_append_left _ h))
  · exact .inr (hw.of_later hl hmem)

theorem Wired.dominates_iff_exists (wired : g.Wired) (hb : (g.searchTree root).order[v]? = some b) :
    g.Dominates root a b ↔ ∃ u, (g.searchTree root).order[u]? = some a ∧
      SearchTree.Dominates ((g.searchTree root).Joins g.successorsOf) u v := by
  constructor
  · intro h
    obtain ⟨l, hl⟩ := wired.mem_order_iff.mp (List.mem_of_getElem? hb)
    obtain ⟨u, hu⟩ := List.getElem?_of_mem (wired.mem_order_iff.mpr (hl.exists_of_mem (h l hl)))
    exact ⟨u, hu, (wired.dominates_iff hu hb).mpr h⟩
  · rintro ⟨u, hu, h⟩
    exact (wired.dominates_iff hu hb).mp h

theorem Wired.dominates_entry (wired : g.Wired) (h : (g.treeDominators root).get? b = some u) :
    g.Dominates root a b ↔ a = b ∨ g.Dominates root a u := by
  obtain ⟨-, -, hnodup, -⟩ := g.searchTree_spec root
  obtain ⟨w, hpos, hb, hu⟩ := wired.treeDominators_get?.mp h
  have hsize := Walk.lt_size_of_some hb
  obtain ⟨hlt, hsettled⟩ := (wired.settled root).2 w hpos hsize
  rw [wired.dominates_iff_exists hb, wired.dominates_iff_exists hu]
  constructor
  · rintro ⟨d, hd, hdominates⟩
    rcases (hsettled d).mp hdominates with rfl | hdominates
    · exact .inl (Option.some.inj (hd.symm.trans hb))
    · exact .inr ⟨d, hd, hdominates⟩
  · rintro (rfl | ⟨d, hd, hdominates⟩)
    · exact ⟨w, hb, SearchTree.dominates_self w⟩
    · exact ⟨d, hd, (hsettled d).mpr (.inr hdominates)⟩

/-- Every vertex but the root that can be reached has an entry. -/
theorem Wired.isSome_treeDominators (wired : g.Wired) :
    ((g.treeDominators root).get? b).isSome ↔ (∃ l, g.Way root b l) ∧ b ≠ root := by
  obtain ⟨-, hroot, hnodup, -⟩ := g.searchTree_spec root
  rw [Option.isSome_iff_exists, ← wired.mem_order_iff]
  constructor
  · rintro ⟨u, hu⟩
    obtain ⟨w, hpos, hb, -⟩ := wired.treeDominators_get?.mp hu
    refine ⟨List.mem_of_getElem? hb, ?_⟩
    rintro rfl
    have := (List.getElem?_inj (Walk.lt_size_of_some hb) hnodup).mp (hb.trans hroot.symm)
    omega
  · rintro ⟨hb, hne⟩
    obtain ⟨w, hw⟩ := List.getElem?_of_mem hb
    have hsize := Walk.lt_size_of_some hw
    have hpos : 0 < w := Nat.pos_of_ne_zero fun hzero => by
      subst hzero
      exact hne (Option.some.inj (hw.symm.trans hroot))
    have hlt := ((wired.settled root).2 w hpos hsize).1
    exact ⟨_, wired.treeDominators_get?.mpr ⟨w, hpos, hw, List.getElem?_eq_getElem (Nat.lt_trans hlt hsize)⟩⟩

theorem Wired.dominates_antisymm (wired : g.Wired) (hl : g.Way root b l) (hab : g.Dominates root a b)
    (hba : g.Dominates root b a) : a = b := by
  have spans := (g.searchTree_spec root).1
  obtain ⟨v, hv⟩ := List.getElem?_of_mem (wired.mem_order_iff.mpr ⟨l, hl⟩)
  obtain ⟨u, hu, huv⟩ := (wired.dominates_iff_exists hv).mp hab
  have hvu := (wired.dominates_iff hv hu).mpr hba
  have hle := (huv.above spans (Walk.lt_size_of_some hv)).le spans (Walk.lt_size_of_some hv)
  have hge := (hvu.above spans (Walk.lt_size_of_some hu)).le spans (Walk.lt_size_of_some hu)
  cases Nat.le_antisymm hle hge
  exact Option.some.inj (hu.symm.trans hv)

theorem Wired.treeDominators_iff (wired : g.Wired) :
    (g.treeDominators root).get? v = some u ↔ g.ImmediatelyDominates root u v := by
  have entry : ∀ {u}, (g.treeDominators root).get? v = some u → g.ImmediatelyDominates root u v := fun {u} h => by
    obtain ⟨hreached, -⟩ := wired.isSome_treeDominators.mp (Option.isSome_iff_exists.mpr ⟨u, h⟩)
    obtain ⟨w, hpos, hv, hu⟩ := wired.treeDominators_get?.mp h
    have hlt := ((wired.settled root).2 w hpos (Walk.lt_size_of_some hv)).1
    refine ⟨hreached, ?_, (wired.dominates_entry h).mpr (.inr fun l hl => hl.self_mem),
      fun d hd hne => ((wired.dominates_entry h).mp hd).resolve_left hne⟩
    rintro rfl
    have := (List.getElem?_inj (Walk.lt_size_of_some hv) (g.searchTree_spec root).2.2.1).mp (hv.trans hu.symm)
    omega
  refine ⟨entry, fun h => ?_⟩
  have hne : v ≠ root := by
    rintro rfl
    exact h.ne (List.mem_singleton.mp (h.dominates [v] .start))
  obtain ⟨c, hc⟩ := Option.isSome_iff_exists.mp (wired.isSome_treeDominators.mpr ⟨h.reached, hne⟩)
  obtain ⟨hreached, hne', hdominates, hnearest⟩ := entry hc
  obtain ⟨l, hl⟩ := h.reached
  obtain ⟨l', hl'⟩ := hl.exists_of_mem (hdominates l hl)
  rw [hc, wired.dominates_antisymm hl' (hnearest u h.dominates h.ne) (h.nearest c hdominates hne')]

theorem Wired.climbs_iff (wired : g.Wired) {steps : Nat} (hb : (g.searchTree root).order[v]? = some b)
    (hsteps : v ≤ steps) :
    Dominators.climbs (g.treeDominators root) steps a b = true ↔ g.Dominates root a b := by
  obtain ⟨-, hroot, hnodup, -⟩ := g.searchTree_spec root
  induction v using Nat.strongRecOn generalizing b steps with
  | ind v ih =>
    rcases Nat.eq_zero_or_pos v with rfl | hpos
    · cases hroot.symm.trans hb
      have hnone : (g.treeDominators root).get? root = none :=
        Option.not_isSome_iff_eq_none.mp fun h => (wired.isSome_treeDominators.mp h).2 rfl
      have hclimbs : Dominators.climbs (g.treeDominators root) steps a root = (root == a) := by
        cases steps with
        | zero => rfl
        | succ steps => rw [Dominators.climbs, hnone, Bool.or_false]
      rw [hclimbs, beq_iff_eq]
      constructor
      · rintro rfl l hl
        exact hl.root_mem
      · intro h
        exact (List.mem_singleton.mp (h [root] .start)).symm
    · obtain ⟨steps, rfl⟩ : ∃ n, steps = n + 1 := ⟨steps - 1, by omega⟩
      have hsize := Walk.lt_size_of_some hb
      have hlt := ((wired.settled root).2 v hpos hsize).1
      obtain ⟨u, hu⟩ : ∃ u, (g.searchTree root).order[(g.idomPositions root).getD v 0]? = some u :=
        ⟨_, List.getElem?_eq_getElem (Nat.lt_trans hlt hsize)⟩
      have hentry := wired.treeDominators_get?.mpr ⟨v, hpos, hb, hu⟩
      rw [Dominators.climbs, hentry, Bool.or_eq_true, beq_iff_eq, ih _ hlt hu (by omega),
        wired.dominates_entry hentry, eq_comm]

theorem Wired.reversePostOrder_ok (wired : g.Wired) (hroot : g.hasVertex root) :
    g.reversePostOrder root = .ok (g.searchAvoiding [] root).finished := by
  refine (reversePostOrder_eq hroot).trans (if_pos (List.all_eq_true.mpr fun v hv => ?_))
  rw [Table.contains, wired.hasSuccessors]
  exact wired.vertex_of_reaches hroot (mem_searchAvoiding_nil.mp hv)

theorem Wired.immediateDominators_ok (wired : g.Wired) (hroot : g.hasVertex root) :
    g.immediateDominators root = .ok (g.treeDominators root) := by
  have hpredecessors : ((g.searchAvoiding [] root).finished.all fun v =>
      v == root || g.predecessors.contains v) = true := by
    refine List.all_eq_true.mpr fun v hv => ?_
    rw [Table.contains, wired.hasPredecessors, wired.vertex_of_reaches hroot (mem_searchAvoiding_nil.mp hv), Bool.or_true]
  unfold immediateDominators
  rw [wired.reversePostOrder_ok hroot]
  refine bind_eq_ok.mpr ⟨_, rfl, ?_⟩
  rw [if_pos hpredecessors]
  rfl

theorem Wired.dominators_ok (wired : g.Wired) (hroot : g.hasVertex root) :
    g.dominators root = .ok ⟨root, g.treeDominators root⟩ :=
  bind_eq_ok.mpr ⟨_, wired.immediateDominators_ok hroot, rfl⟩

theorem Wired.dominates_treeDominators (wired : g.Wired) :
    Dominators.dominates ⟨root, g.treeDominators root⟩ u v = true ↔
      ((∃ l, g.Way root v l) ∧ g.Dominates root u v ∨ (¬ ∃ l, g.Way root v l) ∧ u = v) := by
  change Dominators.climbs (g.treeDominators root) (g.treeDominators root).size u v = true ↔ _
  by_cases hreached : ∃ l, g.Way root v l
  · obtain ⟨w, hw⟩ := List.getElem?_of_mem (wired.mem_order_iff.mpr hreached)
    have hlt := Walk.lt_size_of_some hw
    have hsize := wired.size_treeDominators root
    rw [wired.climbs_iff hw (by omega)]
    simp [hreached]
  · have hnone : (g.treeDominators root).get? v = none :=
      Option.not_isSome_iff_eq_none.mp fun h => hreached (wired.isSome_treeDominators.mp h).1
    have hclimbs : ∀ steps, Dominators.climbs (g.treeDominators root) steps u v = (v == u) := fun steps => by
      cases steps with
      | zero => rfl
      | succ steps => rw [Dominators.climbs, hnone, Bool.or_false]
    rw [hclimbs, beq_iff_eq]
    simp [hreached, eq_comm]

/-- The dominators of a graph are found, and they are right: the vertices with an immediate dominator are those
that can be reached besides the root, what dominates one that can be reached lies on every way to it, and
nothing but itself dominates a vertex out of reach. -/
theorem dominators_spec (wired : g.Wired) (hroot : g.hasVertex root) :
    ∃ idoms, g.immediateDominators root = .ok idoms ∧ g.dominators root = .ok ⟨root, idoms⟩ ∧
      (∀ v, (idoms.get? v).isSome ↔ (∃ l, g.Way root v l) ∧ v ≠ root) ∧
      (∀ u v, idoms.get? v = some u ↔ g.ImmediatelyDominates root u v) ∧
      ∀ u v, Dominators.dominates ⟨root, idoms⟩ u v = true ↔
        ((∃ l, g.Way root v l) ∧ g.Dominates root u v ∨ (¬ ∃ l, g.Way root v l) ∧ u = v) := by
  have hidoms := wired.immediateDominators_ok hroot
  have hdominators : g.dominators root = .ok ⟨root, g.treeDominators root⟩ := by
    unfold dominators
    rw [hidoms]
    rfl
  exact ⟨g.treeDominators root, hidoms, hdominators, fun v => wired.isSome_treeDominators,
    fun u v => wired.treeDominators_iff, fun u v => wired.dominates_treeDominators⟩

/-- Two blocks that lead to each other and are both entered from outside do not dominate what follows them. -/
theorem dominators_spec_crossing :
    ∃ c idoms, FlowGraph.build [[], [], [], []]
        [(0, 1, none), (0, 2, none), (1, 2, none), (2, 1, none), (1, 3, none), (2, 3, none)] (some 0) = .ok c ∧
      c.graph.Wired ∧ c.graph.hasVertex 0 = true ∧ c.graph.immediateDominators 0 = .ok idoms ∧
      idoms.get? 3 = some 0 ∧ c.graph.ImmediatelyDominates 0 0 3 ∧ ¬ c.graph.Dominates 0 1 3 := by
  have hbuild : (FlowGraph.build [[], [], [], []]
      [(0, 1, none), (0, 2, none), (1, 2, none), (2, 1, none), (1, 3, none), (2, 3, none)] (some 0)).toOption.any
        fun c => c.graph.hasVertex 0 ∧ (c.graph.immediateDominators 0).toOption.any fun idoms =>
          idoms.get? 3 = some 0 ∧ (idoms.get? 3).isSome ∧ Dominators.dominates ⟨0, idoms⟩ 1 3 = false := by
    decide +kernel
  obtain ⟨c, hc, h⟩ := (Option.any_eq_true ..).mp hbuild
  obtain ⟨hroot, h⟩ := of_decide_eq_true h
  obtain ⟨idoms, hidoms, h⟩ := (Option.any_eq_true ..).mp h
  obtain ⟨hentry, hsome, hnot⟩ := of_decide_eq_true h
  have hc := toOption_eq_some.mp hc
  have wired := (FlowGraph.made_of_build hc).wired
  obtain ⟨idoms', hidoms', -, hreached, himmediate, hdominates⟩ := dominators_spec wired hroot
  cases (toOption_eq_some.mp hidoms).symm.trans hidoms'
  refine ⟨c, idoms, hc, wired, hroot, hidoms', hentry, (himmediate 0 3).mp hentry, fun h => ?_⟩
  rw [(hdominates 1 3).mpr (.inl ⟨((hreached 3).mp hsome).1, h⟩)] at hnot
  cases hnot

end Graph

end RegionGuard

import Mathlib.Algebra.GroupWithZero.Nat
import RegionGuard.Proofs.Searches
import RegionGuard.Proofs.Semidominators
set_option autoImplicit false

namespace RegionGuard

open Search (Reaches)

namespace SearchTree

variable {t : SearchTree} {next : Nat → List Nat} {a p u v w : Nat}

def Joins (t : SearchTree) (next : Nat → List Nat) (v w : Nat) : Prop :=
  ∃ x y, t.order[v]? = some x ∧ t.order[w]? = some y ∧ y ∈ next x

def grow (t : SearchTree) (v p : Nat) : SearchTree := ⟨t.order ++ [v], t.parents ++ [p]⟩

theorem size_grow : (t.grow v p).size = t.size + 1 := by
  unfold size grow
  rw [List.length_append]
  rfl

theorem order_grow_of_lt (hw : w < t.size) : (t.grow v p).order[w]? = t.order[w]? :=
  List.getElem?_append_left hw

theorem order_grow_size : (t.grow v p).order[t.size]? = some v := List.getElem?_concat_length

section Parents

variable (lengths : t.parents.length = t.size)
include lengths

theorem parent_grow_of_lt (hw : w < t.size) : (t.grow v p).parent w = t.parent w := by
  unfold parent grow
  rw [List.getD_append _ _ _ _ (lengths.symm ▸ hw)]

theorem parent_grow_size : (t.grow v p).parent t.size = p := by
  unfold parent grow
  rw [← lengths, List.getD_append_right _ _ _ _ (Nat.le_refl _), Nat.sub_self, List.getD_cons_zero]

variable (parent_lt : ∀ {w}, 0 < w → w < t.size → t.parent w < w)
include parent_lt

/-- The new vertex is above none of the old ones. -/
theorem above_grow_of_lt (hw : w < t.size) : (t.grow v p).Above a w ↔ t.Above a w := by
  constructor
  · intro h
    induction h with
    | refl => exact .refl
    | step hpos _ ih =>
      rw [parent_grow_of_lt lengths hw] at ih
      exact .step hpos (ih (Nat.lt_trans (parent_lt hpos hw) hw))
  · intro h
    induction h with
    | refl => exact .refl
    | step hpos _ ih =>
      refine .step hpos ?_
      rw [parent_grow_of_lt lengths hw]
      exact ih (Nat.lt_trans (parent_lt hpos hw) hw)

theorem above_grow_size (hpos : 0 < t.size) (hp : p < t.size) :
    (t.grow v p).Above a t.size ↔ a = t.size ∨ t.Above a p := by
  constructor
  · intro h
    by_cases hne : a = t.size
    · exact .inl hne
    · have habove := h.parent hne
      rw [parent_grow_size lengths] at habove
      exact .inr ((above_grow_of_lt lengths parent_lt hp).mp habove)
  · rintro (rfl | h)
    · exact .refl
    · refine .step hpos ?_
      rw [parent_grow_size lengths]
      exact (above_grow_of_lt lengths parent_lt hp).mpr h

end Parents

end SearchTree

namespace Walk

open SearchTree

variable {next : Nat → List Nat} {root v p : Nat} {rest : List (Nat × Nat)} {s : Walk} {t : SearchTree}

structure Sound (next : Nat → List Nat) (root : Nat) (s : Walk) : Prop where
  lengths : s.tree.parents.length = s.tree.size
  root : s.tree.order[0]? = some root
  nodup : s.tree.order.Nodup
  parent_lt : ∀ {w}, 0 < w → w < s.tree.size → s.tree.parent w < w
  parent_edge : ∀ {w}, 0 < w → w < s.tree.size → s.tree.Joins next (s.tree.parent w) w
  forward : ∀ {v w}, s.tree.Joins next v w → v < w → s.tree.Above v w
  between : ∀ {a v w}, w < s.tree.size → s.tree.Above a w → a ≤ v → v ≤ w → s.tree.Above a v
  seen : ∀ e ∈ s.pending, ∃ v, s.tree.order[e.1]? = some v ∧ e.2 ∈ next v
  nested : s.pending.Pairwise fun e e' => s.tree.Above e'.1 e.1
  /-- Nothing is entered behind what is above a pending vertex but below that. -/
  inside : ∀ e ∈ s.pending, ∀ a, s.tree.Above a e.1 → ∀ v, a ≤ v → v < s.tree.size → s.tree.Above a v
  covered : ∀ x v, s.tree.order[x]? = some v → ∀ w ∈ next v, w ∈ s.tree.order ∨ (x, w) ∈ s.pending

theorem lt_size_of_some {x : Nat} (h : t.order[x]? = some v) : x < t.size := (List.getElem?_eq_some_iff.mp h).1

theorem Sound.size_pos (hs : s.Sound next root) : 0 < s.tree.size := lt_size_of_some hs.root

theorem sound_start (next : Nat → List Nat) (root : Nat) : ((start root).step next).Sound next root := by
  have htree : ((start root).step next).tree = ⟨[root], [0]⟩ := rfl
  have hpending : ((start root).step next).pending =
      (((next root).filter fun w => w ∉ [root]).map (0, ·)) ++ [] := rfl
  have hsize : ∀ {w}, w < ((start root).step next).tree.size → w = 0 := fun hw => Nat.lt_one_iff.mp hw
  have habove : ∀ {a}, ((start root).step next).tree.Above a 0 → a = 0 := fun h => by
    cases h with
    | refl => rfl
    | step hpos _ => exact absurd hpos (Nat.lt_irrefl 0)
  have hfrom : ∀ e ∈ ((start root).step next).pending, e.1 = 0 ∧ e.2 ∈ next root := fun e he => by
    rw [hpending, List.append_nil] at he
    obtain ⟨w, hw, rfl⟩ := List.mem_map.mp he
    exact ⟨rfl, (List.mem_filter.mp hw).1⟩
  refine
    { lengths := rfl
      root := rfl
      nodup := List.pairwise_singleton _ root
      parent_lt := fun hpos hw => absurd (hsize hw) (Nat.ne_of_gt hpos)
      parent_edge := fun hpos hw => absurd (hsize hw) (Nat.ne_of_gt hpos)
      forward := ?_, between := ?_, seen := ?_, nested := ?_, inside := ?_, covered := ?_ }
  · rintro v w ⟨x, y, -, hy, -⟩ hlt
    have := hsize (lt_size_of_some hy)
    omega
  · intro a v w hw h hav hvw
    have := hsize hw
    subst this
    cases habove h
    cases Nat.le_zero.mp hvw
    exact .refl
  · intro e he
    obtain ⟨hzero, hmem⟩ := hfrom e he
    exact ⟨root, by rw [hzero]; rfl, hmem⟩
  · refine List.pairwise_of_forall_mem_list fun e he e' he' => ?_
    rw [(hfrom e he).1, (hfrom e' he').1]
    exact .refl
  · intro e he a ha v hav hv
    rw [(hfrom e he).1] at ha
    cases habove ha
    cases hsize hv
    exact .refl
  · intro x v hv w hw
    cases hsize (lt_size_of_some hv)
    cases hv
    by_cases hroot : w = root
    · exact .inl (hroot ▸ List.mem_singleton_self root)
    · refine .inr ?_
      rw [hpending, List.append_nil]
      exact List.mem_map.mpr ⟨w, List.mem_filter.mpr ⟨hw, by simpa using hroot⟩, rfl⟩

theorem Sound.drop (hs : s.Sound next root) (hpending : s.pending = (p, v) :: rest) (hv : v ∈ s.tree.order) :
    Sound next root { s with pending := rest } where
  lengths := hs.lengths
  root := hs.root
  nodup := hs.nodup
  parent_lt := hs.parent_lt
  parent_edge := hs.parent_edge
  forward := hs.forward
  between := hs.between
  seen e he := hs.seen e (hpending ▸ List.mem_cons_of_mem _ he)
  nested := (List.pairwise_cons.mp (hpending ▸ hs.nested)).2
  inside e he := hs.inside e (hpending ▸ List.mem_cons_of_mem _ he)
  covered x y hy w hw := by
    rcases hs.covered x y hy w hw with h | h
    · exact .inl h
    · rw [hpending] at h
      rcases List.mem_cons.mp h with heq | h
      · cases heq
        exact .inl hv
      · exact .inr h

theorem Sound.enter (hs : s.Sound next root) (hpending : s.pending = (p, v) :: rest) (hv : v ∉ s.tree.order) :
    Sound next root
      { pending := ((next v).filter fun w => w ∉ v :: s.tree.order).map (s.tree.size, ·) ++ rest
        tree := s.tree.grow v p } := by
  obtain ⟨x, hx, hvx⟩ := hs.seen (p, v) (hpending ▸ List.mem_cons_self)
  have hp : p < s.tree.size := lt_size_of_some hx
  have hpos := hs.size_pos
  have hold : ∀ {a w}, w < s.tree.size → ((s.tree.grow v p).Above a w ↔ s.tree.Above a w) :=
    fun hw => above_grow_of_lt hs.lengths hs.parent_lt hw
  have hnew : ∀ {a}, (s.tree.grow v p).Above a s.tree.size ↔ a = s.tree.size ∨ s.tree.Above a p :=
    above_grow_size hs.lengths hs.parent_lt hpos hp
  have hcases : ∀ {w}, w < (s.tree.grow v p).size → w < s.tree.size ∨ w = s.tree.size := fun hw => by
    rw [size_grow] at hw
    omega
  have hnested := List.pairwise_cons.mp (hpending ▸ hs.nested)
  have hinside : ∀ a, s.tree.Above a p → ∀ w, a ≤ w → w < s.tree.size → s.tree.Above a w :=
    hs.inside (p, v) (hpending ▸ List.mem_cons_self)
  -- What is above the parent is above all that was entered since, the new vertex included.
  have hdown : ∀ {a w}, s.tree.Above a p → a ≤ w → w < (s.tree.grow v p).size → (s.tree.grow v p).Above a w :=
    fun {a w} ha haw hw => by
      rcases hcases hw with hlt | rfl
      · exact (hold hlt).mpr (hinside a ha w haw hlt)
      · exact hnew.mpr (.inr ha)
  have hself : ∀ {a w}, (s.tree.grow v p).Above a s.tree.size → a ≤ w → w < (s.tree.grow v p).size →
      (s.tree.grow v p).Above a w := fun {a w} ha haw hw => by
    rcases hnew.mp ha with rfl | ha
    · rcases hcases hw with hlt | rfl
      · omega
      · exact .refl
    · exact hdown ha haw hw
  refine
    { lengths := ?_, root := ?_, nodup := ?_, parent_lt := ?_, parent_edge := ?_, forward := ?_, between := ?_,
      seen := ?_, nested := ?_, inside := ?_, covered := ?_ }
  · rw [size_grow]
    unfold grow
    rw [List.length_append, hs.lengths]
    rfl
  · rw [order_grow_of_lt hpos]
    exact hs.root
  · refine List.nodup_append.mpr ⟨hs.nodup, List.pairwise_singleton _ v, fun y hy z hz => ?_⟩
    rw [List.mem_singleton.mp hz]
    rintro rfl
    exact hv hy
  · intro w hw hsize
    rcases hcases hsize with hlt | rfl
    · rw [parent_grow_of_lt hs.lengths hlt]
      exact hs.parent_lt hw hlt
    · rw [parent_grow_size hs.lengths]
      exact hp
  · intro w hw hsize
    rcases hcases hsize with hlt | rfl
    · obtain ⟨y, z, hy, hz, hmem⟩ := hs.parent_edge hw hlt
      rw [parent_grow_of_lt hs.lengths hlt]
      exact ⟨y, z, by rw [order_grow_of_lt (lt_size_of_some hy), hy], by rw [order_grow_of_lt hlt, hz], hmem⟩
    · rw [parent_grow_size hs.lengths]
      exact ⟨x, v, by rw [order_grow_of_lt hp, hx], order_grow_size, hvx⟩
  · rintro y z ⟨b, c, hb, hc, hmem⟩ hlt
    rcases hcases (lt_size_of_some hc) with hz | rfl
    · rw [order_grow_of_lt (Nat.lt_trans hlt hz)] at hb
      rw [order_grow_of_lt hz] at hc
      exact (hold hz).mpr (hs.forward ⟨b, c, hb, hc, hmem⟩ hlt)
    · rw [order_grow_of_lt hlt] at hb
      rw [order_grow_size] at hc
      cases hc
      -- The new vertex was pending from wherever it is a successor of.
      have hpended := (hs.covered y b hb v hmem).resolve_left hv
      rw [hpending] at hpended
      rcases List.mem_cons.mp hpended with heq | hrest
      · cases heq
        exact hnew.mpr (.inr .refl)
      · exact hnew.mpr (.inr (hnested.1 (y, v) hrest))
  · intro a y z hz h hay hyz
    rcases hcases hz with hlt | rfl
    · exact (hold (Nat.lt_of_le_of_lt hyz hlt)).mpr (hs.between hlt ((hold hlt).mp h) hay hyz)
    · exact hself h hay (Nat.lt_of_le_of_lt hyz hz)
  · intro e he
    rcases List.mem_append.mp he with he | he
    · obtain ⟨w, hw, rfl⟩ := List.mem_map.mp he
      exact ⟨v, order_grow_size, (List.mem_filter.mp hw).1⟩
    · obtain ⟨y, hy, hmem⟩ := hs.seen e (hpending ▸ List.mem_cons_of_mem _ he)
      exact ⟨y, by rw [order_grow_of_lt (lt_size_of_some hy), hy], hmem⟩
  · have hlater : ∀ e ∈ rest, e.1 < s.tree.size := fun e he => by
      obtain ⟨y, hy, -⟩ := hs.seen e (hpending ▸ List.mem_cons_of_mem _ he)
      exact lt_size_of_some hy
    refine List.pairwise_append.mpr ⟨?_, ?_, ?_⟩
    · refine List.pairwise_of_forall_mem_list fun e he e' he' => ?_
      obtain ⟨w, -, rfl⟩ := List.mem_map.mp he
      obtain ⟨w', -, rfl⟩ := List.mem_map.mp he'
      exact .refl
    · exact hnested.2.imp_of_mem fun {e e'} he _ h => (hold (hlater e he)).mpr h
    · intro e he e' he'
      obtain ⟨w, -, rfl⟩ := List.mem_map.mp he
      exact hnew.mpr (.inr (hnested.1 e' he'))
  · intro e he a ha w haw hw
    rcases List.mem_append.mp he with he | he
    · obtain ⟨z, -, rfl⟩ := List.mem_map.mp he
      exact hself ha haw hw
    · obtain ⟨y, hy, -⟩ := hs.seen e (hpending ▸ List.mem_cons_of_mem _ he)
      have ha := (hold (lt_size_of_some hy)).mp ha
      rcases hcases hw with hlt | rfl
      · exact (hold hlt).mpr (hs.inside e (hpending ▸ List.mem_cons_of_mem _ he) a ha w haw hlt)
      · exact hnew.mpr (.inr (ha.trans (hnested.1 e he)))
  · intro y z hz w hw
    rcases hcases (lt_size_of_some hz) with hlt | rfl
    · rw [order_grow_of_lt hlt] at hz
      rcases hs.covered y z hz w hw with h | h
      · exact .inl (List.mem_append_left _ h)
      · rw [hpending] at h
        rcases List.mem_cons.mp h with heq | h
        · cases heq
          exact .inl (List.mem_append_right _ (List.mem_singleton_self _))
        · exact .inr (List.mem_append_right _ h)
    · rw [order_grow_size] at hz
      cases hz
      by_cases hmem : w ∈ v :: s.tree.order
      · rcases List.mem_cons.mp hmem with rfl | hmem
        · exact .inl (List.mem_append_right _ (List.mem_singleton_self _))
        · exact .inl (List.mem_append_left _ hmem)
      · exact .inr (List.mem_append_left _
          (List.mem_map.mpr ⟨w, List.mem_filter.mpr ⟨hw, decide_eq_true hmem⟩, rfl⟩))

theorem Sound.step (hs : s.Sound next root) : (s.step next).Sound next root := by
  unfold Walk.step
  cases hpending : s.pending with
  | nil => exact hs
  | cons e rest =>
    obtain ⟨p, v⟩ := e
    dsimp only
    split
    · rename_i hv
      exact hs.drop hpending hv
    · rename_i hv
      exact hs.enter hpending hv

theorem Sound.run (hs : s.Sound next root) (steps : Nat) : (Walk.run next steps s).Sound next root := by
  induction steps generalizing s with
  | zero => exact hs
  | succ steps ih =>
    unfold Walk.run
    split
    · exact hs
    · exact ih hs.step

/-- How many successors lie behind the vertices that are not entered yet. -/
def ahead (next : Nat → List Nat) (keys order : List Nat) : Nat :=
  (keys.map fun k => if k ∈ order then 0 else (next k).length).sum

theorem ahead_append {keys order : List Nat} (hv : v ∉ order) :
    ahead next keys (order ++ [v]) + (if v ∈ keys then (next v).length else 0) ≤ ahead next keys order := by
  induction keys with
  | nil => exact Nat.le_refl 0
  | cons k rest ih =>
    unfold ahead at ih ⊢
    rw [List.map_cons, List.sum_cons, List.map_cons, List.sum_cons]
    by_cases hkv : k = v
    · subst hkv
      rw [if_pos (List.mem_append_right _ (List.mem_singleton_self k)), if_neg hv, if_pos List.mem_cons_self]
      omega
    · have hk : (k ∈ order ++ [v]) ↔ k ∈ order := by simp [hkv]
      have hrest : v ∈ k :: rest ↔ v ∈ rest := by simp [Ne.symm hkv]
      simp only [hk, hrest]
      omega

def work (next : Nat → List Nat) (keys : List Nat) (s : Walk) : Nat :=
  s.pending.length + ahead next keys s.tree.order

theorem work_step {keys : List Nat} (hkeys : ∀ v, next v ≠ [] → v ∈ keys) (hs : s.pending ≠ []) :
    work next keys (s.step next) < work next keys s := by
  unfold Walk.step
  cases hpending : s.pending with
  | nil => exact absurd hpending hs
  | cons e rest =>
    obtain ⟨p, v⟩ := e
    unfold work
    rw [hpending, List.length_cons]
    dsimp only
    split
    · dsimp only
      omega
    · rename_i hv
      have hlength : (((next v).filter fun w => w ∉ v :: s.tree.order).map (s.tree.order.length, ·)).length ≤
          (next v).length := by
        rw [List.length_map]
        exact List.length_filter_le _ _
      have hahead : ahead next keys (s.tree.order ++ [v]) + (next v).length ≤ ahead next keys s.tree.order := by
        have happend : ahead next keys (s.tree.order ++ [v]) + (if v ∈ keys then (next v).length else 0) ≤
            ahead next keys s.tree.order := ahead_append hv
        by_cases hkey : v ∈ keys
        · rw [if_pos hkey] at happend
          exact happend
        · rw [Classical.byContradiction fun hne => hkey (hkeys v hne)]
          rw [if_neg hkey] at happend
          exact happend
      rw [List.length_append]
      dsimp only
      omega

theorem run_pending {keys : List Nat} (hkeys : ∀ v, next v ≠ [] → v ∈ keys) {steps : Nat}
    (hwork : work next keys s ≤ steps) : (run next steps s).pending = [] := by
  induction steps generalizing s with
  | zero =>
    unfold work at hwork
    exact List.eq_nil_of_length_eq_zero (by change s.pending.length = 0; omega)
  | succ steps ih =>
    unfold run
    split
    · rename_i hempty
      exact List.isEmpty_iff.mp hempty
    · rename_i hempty
      have := work_step hkeys (s := s) fun hnil => hempty (List.isEmpty_iff.mpr hnil)
      exact ih (by omega)

end Walk

namespace Graph

variable {ν ε : Type} {g : Graph ν ε}

theorem searchTree_spec (g : Graph ν ε) (root : Nat) :
    (g.searchTree root).Spans ((g.searchTree root).Joins g.successorsOf) ∧
      (g.searchTree root).order[0]? = some root ∧ (g.searchTree root).order.Nodup ∧
      ∀ v, v ∈ (g.searchTree root).order ↔ Reaches g.successorsOf root v := by
  have hsteps : Walk.work g.successorsOf g.successors.keys (.start root) =
      (g.successors.values.flatMap Table.keys).length + 1 := by
    unfold Walk.work Walk.ahead Walk.start
    rw [List.length_singleton, Nat.add_comm, List.length_flatMap]
    congr 2
    unfold Table.keys Table.values
    rw [List.map_map, List.map_map]
    refine List.map_congr_left fun e he => ?_
    have hget : g.successors.get? e.1 = some e.2 := (Table.get?_eq_some_iff _ _ _).mpr he
    simp [successorsOf, hget, Table.keys]
  have hsound : (Walk.run g.successorsOf ((g.successors.values.flatMap Table.keys).length + 1) (.start root)).Sound
      g.successorsOf root := (Walk.sound_start g.successorsOf root).run _
  have hdone := Walk.run_pending (s := .start root) (fun v => mem_keys_of_successorsOf) (Nat.le_of_eq hsteps)
  unfold searchTree
  generalize Walk.run g.successorsOf ((g.successors.values.flatMap Table.keys).length + 1) (.start root) = s at hsound hdone
  refine ⟨⟨hsound.size_pos, ?_, hsound.parent_lt, hsound.parent_edge, hsound.forward, hsound.between⟩,
    hsound.root, hsound.nodup, fun v => ⟨fun h => ?_, fun h => ?_⟩⟩
  · rintro v w ⟨x, y, hx, hy, -⟩
    exact ⟨Walk.lt_size_of_some hx, Walk.lt_size_of_some hy⟩
  · have hreach : ∀ w v : Nat, s.tree.order[w]? = some v → Reaches g.successorsOf root v := by
      intro w
      induction w using Nat.strongRecOn with
      | ind w ih =>
        intro v hv
        rcases Nat.eq_zero_or_pos w with rfl | hpos
        · cases hsound.root.symm.trans hv
          exact .refl
        · obtain ⟨x, y, hx, hy, hmem⟩ := hsound.parent_edge hpos (Walk.lt_size_of_some hv)
          cases hv.symm.trans hy
          exact .tail (ih _ (hsound.parent_lt hpos (Walk.lt_size_of_some hv)) x hx) hmem
    obtain ⟨w, hw⟩ := List.getElem?_of_mem h
    exact hreach w v hw
  · induction h with
    | refl => exact List.mem_of_getElem? hsound.root
    | tail _ hlast ih =>
      obtain ⟨w, hw⟩ := List.getElem?_of_mem ih
      refine (hsound.covered w _ hw _ hlast).resolve_right ?_
      rw [hdone]
      exact List.not_mem_nil

end Graph

end RegionGuard

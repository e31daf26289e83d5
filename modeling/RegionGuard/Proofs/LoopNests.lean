import RegionGuard.Flow.Preheader
import RegionGuard.Proofs.Detours
import RegionGuard.Proofs.Dominance
set_option autoImplicit false

namespace RegionGuard

open Search (Extends)

namespace Search

variable {next : Nat → List Nat} {base : List Nat} {P : Nat → Prop}

def Within (base : List Nat) (P : Nat → Prop) (s : Search) : Prop :=
  base ⊆ s.seen ∧ ∀ w ∈ s.seen, w ∈ base ∨ P w

theorem within_foldl {visit : Search → Nat → Search} (hvisit : ∀ s v, Within base P s → P v → Within base P (visit s v))
    {l : List Nat} (hl : ∀ v ∈ l, P v) {s : Search} (hs : Within base P s) : Within base P (l.foldl visit s) := by
  induction l generalizing s with
  | nil => exact hs
  | cons v rest ih =>
    exact ih (fun w hw => hl w (List.mem_cons_of_mem v hw)) (hvisit s v hs (hl v List.mem_cons_self))

/-- A search finds only what has a property if the neighbors of what has it have it too, unless they were
seen before. -/
theorem within_visit (hnext : ∀ v, P v → v ∉ base → ∀ w ∈ next v, P w) (depth : Nat) (s : Search) (v : Nat)
    (hs : Within base P s) (hv : P v) : Within base P (visit next depth s v) := by
  induction depth generalizing s v with
  | zero => exact hs
  | succ depth ih =>
    unfold visit
    split
    · exact hs
    · rename_i hseen
      have hentered : Within base P { s with seen := v :: s.seen } := by
        refine ⟨fun w hw => List.mem_cons_of_mem v (hs.1 hw), fun w hw => ?_⟩
        rcases List.mem_cons.mp hw with rfl | hw
        · exact .inr hv
        · exact hs.2 w hw
      exact within_foldl ih (hnext v hv fun hbase => hseen (hs.1 hbase)) hentered

end Search

namespace Graph

variable {ν ε : Type} {g : Graph ν ε} {root n h u v w : Nat}

/-- Whether some way leads to a vertex. -/
def IsReached (g : Graph ν ε) (root v : Nat) : Prop := ∃ l, g.Way root v l

theorem IsReached.follow (hv : g.IsReached root v) (hedge : (g.edges.get? (v, w)).isSome) : g.IsReached root w := by
  obtain ⟨l, hl⟩ := hv
  exact ⟨_, hl.follow hedge⟩

/-- An edge from a vertex that is reached to one that dominates it. -/
structure GoesBack (g : Graph ν ε) (root n h : Nat) : Prop where
  reached : g.IsReached root n
  edge : (g.edges.get? (n, h)).isSome
  dominates : g.Dominates root h n

/-- The vertices of the loop at a header: the header, the vertices that go back to it, and what leads to
others of them besides the header. -/
inductive Inside (g : Graph ν ε) (root h : Nat) : Nat → Prop
  | header : Inside g root h h
  | latch {n : Nat} : g.GoesBack root n h → Inside g root h n
  | ahead {v w : Nat} : Inside g root h w → w ≠ h → (g.edges.get? (v, w)).isSome → g.IsReached root v →
    Inside g root h v

theorem mem_keys_edges : (v, w) ∈ g.edges.keys ↔ (g.edges.get? (v, w)).isSome := Table.mem_keys_iff

theorem Wired.mem_reachable_iff (wired : g.Wired) : v ∈ (g.searchAvoiding [] root).finished ↔ g.IsReached root v :=
  mem_searchAvoiding_nil.trans wired.reached_iff.symm

theorem Wired.backEdges_ok (wired : g.Wired) (hroot : g.hasVertex root) :
    ∃ back, g.backEdges root = .ok back ∧ ∀ n h, (n, h) ∈ back ↔ g.GoesBack root n h := by
  refine ⟨_, bind_eq_ok.mpr ⟨_, wired.dominators_ok hroot, bind_eq_ok.mpr ⟨_, wired.reversePostOrder_ok hroot, rfl⟩⟩,
    fun n h => ?_⟩
  rw [List.mem_filter, mem_keys_edges, Bool.and_eq_true, List.contains_iff_mem, wired.mem_reachable_iff,
    wired.dominates_treeDominators]
  constructor
  · rintro ⟨hedge, hreached, ⟨-, hdominates⟩ | ⟨hnot, -⟩⟩
    · exact ⟨hreached, hedge, hdominates⟩
    · exact absurd hreached hnot
  · exact fun hback => ⟨hback.edge, hback.reached, .inl ⟨hback.reached, hback.dominates⟩⟩

theorem Wired.mem_loopNodes_iff (wired : g.Wired) {latches : List Nat} (hlatches : ∀ n, n ∈ latches ↔ g.GoesBack root n h) :
    v ∈ (g.loopNodes (g.searchAvoiding [] root).finished h latches).keys ↔ g.Inside root h v := by
  let entering := fun v => (g.predecessorsOf v).filter (g.searchAvoiding [] root).finished.contains
  have hentering : ∀ v w, v ∈ entering w ↔ (g.edges.get? (v, w)).isSome ∧ g.IsReached root v := fun v w => by
    rw [List.mem_filter, wired.predecessors, List.contains_iff_mem, wired.mem_reachable_iff]
  have hkeys : ∀ w, entering w ≠ [] → w ∈ g.predecessors.keys := by
    intro w hw
    obtain ⟨v, hv⟩ := List.exists_mem_of_ne_nil _ hw
    rw [Table.mem_keys_iff, wired.hasPredecessors]
    exact (wired.ends v w ((hentering v w).mp hv).1).2
  have hunseen : Search.unseen g.predecessors.keys ⟨[h], []⟩ < g.predecessors.size + 2 := by
    have hle : Search.unseen g.predecessors.keys ⟨[h], []⟩ ≤ g.predecessors.keys.length := List.countP_le_length
    have hlength : g.predecessors.keys.length = g.predecessors.size := List.length_map _
    omega
  obtain ⟨found, hext, hroots, -⟩ := Search.foldl_finds (fun s v hs => Search.visit_finds hkeys _ s v hs) latches
    ⟨[h], []⟩ fun _ => hunseen
  have hwithin : Search.Within [h] (g.Inside root h)
      (latches.foldl (Search.visit entering (g.predecessors.size + 2)) ⟨[h], []⟩) := by
    refine Search.within_foldl (Search.within_visit (fun w hw hbase u hu => ?_) _) (fun n hn => ?_)
      ⟨List.Subset.refl _, fun w hw => .inl hw⟩
    · obtain ⟨hedge, hreached⟩ := (hentering u w).mp hu
      exact .ahead hw (fun heq => hbase (List.mem_singleton.mpr heq)) hedge hreached
    · exact .latch ((hlatches n).mp hn)
  unfold loopNodes
  rw [KeySet.mem_keys_ofKeys]
  constructor
  · intro hv
    rcases hwithin.2 v hv with hbase | hinside
    · rw [List.mem_singleton.mp hbase]
      exact .header
    · exact hinside
  · intro hinside
    induction hinside with
    | header => exact (hext.seen h).mpr (.inr (List.mem_singleton_self h))
    | latch hback => exact hroots _ ((hlatches _).mpr hback)
    | ahead _ hne hedge hreached ih =>
      rcases (hext.seen _).mp ih with hfound | hbase
      · exact hext.closed _ hfound _ ((hentering _ _).mpr ⟨hedge, hreached⟩)
      · exact absurd (List.mem_singleton.mp hbase) hne

structure IsLoop (g : Graph ν ε) (root : Nat) (l : Loop) : Prop where
  latched : ∃ n, g.GoesBack root n l.header
  holds : ∀ v, v ∈ l.nodes.keys ↔ g.Inside root l.header v

theorem Wired.naturalLoops_ok (wired : g.Wired) (hroot : g.hasVertex root) :
    ∃ loops, g.naturalLoops root = .ok loops ∧ (loops.map Loop.header).Nodup ∧ (∀ l ∈ loops, g.IsLoop root l) ∧
      ∀ n h, g.GoesBack root n h → h ∈ loops.map Loop.header := by
  obtain ⟨back, hback, hmem⟩ := wired.backEdges_ok hroot
  let headers := (KeySet.ofKeys (back.map (·.2))).keys
  have hheaders : ∀ h, h ∈ headers ↔ ∃ n, g.GoesBack root n h := by
    intro h
    rw [KeySet.mem_keys_ofKeys, List.mem_map]
    exact ⟨fun ⟨e, he, heq⟩ => ⟨e.1, heq ▸ (hmem e.1 e.2).mp he⟩, fun ⟨n, hn⟩ => ⟨(n, h), (hmem n h).mpr hn, rfl⟩⟩
  let loop := fun h => Loop.mk h
    (g.loopNodes (g.searchAvoiding [] root).finished h ((back.filter (·.2 == h)).map (·.1)))
  have hmap : (headers.map loop).map Loop.header = headers := by
    rw [List.map_map]
    exact List.map_id _
  refine ⟨headers.map loop, bind_eq_ok.mpr ⟨_, wired.reversePostOrder_ok hroot, bind_eq_ok.mpr ⟨_, hback, rfl⟩⟩,
    ?_, fun l hl => ?_, fun n h hn => ?_⟩
  · rw [hmap]
    exact Table.nodup_keys _
  · obtain ⟨h, hh, rfl⟩ := List.mem_map.mp hl
    refine ⟨(hheaders h).mp hh, fun v => wired.mem_loopNodes_iff fun n => ?_⟩
    rw [List.mem_map]
    constructor
    · rintro ⟨e, he, rfl⟩
      obtain ⟨he, htail⟩ := List.mem_filter.mp he
      have htail := beq_iff_eq.mp htail
      exact htail ▸ (hmem e.1 e.2).mp he
    · exact fun hn => ⟨(n, h), List.mem_filter.mpr ⟨(hmem n h).mpr hn, beq_self_eq_true h⟩, rfl⟩
  · rw [hmap]
    exact (hheaders h).mpr ⟨n, hn⟩

/-- A tree of loops, whose vertices are some loops by their headers, and whose edges lead to loops inside. -/
structure Trees (loops : List Loop) (t : LoopTree) : Prop where
  wired : t.Wired
  vertices : ∀ h l, t.vertices.get? h = some l ↔ l ∈ loops ∧ l.header = h
  nested : ∀ outer inner, (t.edges.get? (outer, inner)).isSome → ∃ l ∈ loops, l.header = outer ∧ l.contains inner

theorem trees_foldlM {loops done : List Loop} (distinct : ((done ++ loops).map Loop.header).Nodup) {t : LoopTree}
    (ht : Trees done t) (hnone : t.edges = ∅) :
    ∃ t', loops.foldlM (fun t l => t.insertVertex l) t = (.ok t' : Outcome _) ∧ Trees (done ++ loops) t' ∧ t'.edges = ∅ := by
  induction loops generalizing done t with
  | nil => exact ⟨t, rfl, (List.append_nil done).symm ▸ ht, hnone⟩
  | cons l rest ih =>
    rw [List.append_cons] at distinct ⊢
    have hfresh : t.vertices.get? l.header = none := by
      cases hl : t.vertices.get? l.header with
      | none => rfl
      | some l' =>
        obtain ⟨hmem, hheader⟩ := (ht.vertices _ _).mp hl
        rw [List.map_append, List.map_append] at distinct
        have := (List.nodup_append.mp (List.nodup_append.mp distinct).1).2.2
        exact absurd hheader (this _ (List.mem_map_of_mem hmem) _ (by simp))
    obtain ⟨t₁, ht₁⟩ := exists_insertVertex (x := l) hfresh
    obtain ⟨-, htree⟩ := insertVertex_ok ht₁
    have hvertices : ∀ h l', t₁.vertices.get? h = some l' ↔ l' ∈ done ++ [l] ∧ l'.header = h := by
      intro h l'
      rw [htree]
      change (t.vertices.insert l.header l).get? h = _ ↔ _
      rw [Table.get?_insert, List.mem_append, List.mem_singleton]
      split
      · rename_i heq
        subst heq
        refine ⟨fun hl => ⟨.inr (Option.some.inj hl).symm, by rw [Option.some.inj hl]⟩, fun hmem => ?_⟩
        obtain ⟨hl | rfl, hheader⟩ := hmem
        · have := (ht.vertices _ _).mpr ⟨hl, hheader⟩
          rw [hfresh] at this
          cases this
        · rfl
      · rename_i hne
        rw [ht.vertices]
        refine ⟨And.imp_left .inl, fun hmem => ?_⟩
        obtain ⟨hl | rfl, hheader⟩ := hmem
        · exact ⟨hl, hheader⟩
        · exact absurd hheader.symm hne
    have hnone₁ : t₁.edges = ∅ := by rw [htree]; exact hnone
    obtain ⟨t', hrest, ht'⟩ := ih distinct
      ⟨ht.wired.insertVertex ht₁, hvertices, fun _ _ h => by rw [hnone₁] at h; cases h⟩ hnone₁
    refine ⟨t', ?_, ht'⟩
    rw [List.foldlM_cons]
    exact bind_eq_ok.mpr ⟨t₁, ht₁, hrest⟩

theorem Loop.mem_of_smallest? {loops : List Loop} {l : Loop} (h : Loop.smallest? loops = some l) : l ∈ loops := by
  induction loops generalizing l with
  | nil => cases h
  | cons x rest ih =>
    unfold Loop.smallest? at h
    split at h
    · rename_i other hother
      split at h
      · cases h
        exact List.mem_cons_self
      · cases h
        exact List.mem_cons_of_mem _ (ih hother)
    · cases h
      exact List.mem_cons_self

theorem Trees.hasVertex {loops : List Loop} {t : LoopTree} (ht : Trees loops t) {l : Loop} (hl : l ∈ loops) :
    t.hasVertex l.header = true := by
  unfold Graph.hasVertex Table.contains
  rw [(ht.vertices _ _).mpr ⟨hl, rfl⟩]
  rfl

theorem Trees.join {loops inners : List Loop} {t : LoopTree} (ht : Trees loops t) (hinners : inners ⊆ loops)
    (distinct : (inners.map Loop.header).Nodup) (hfree : ∀ a, ∀ l ∈ inners, t.edges.get? (a, l.header) = none) :
    ∃ t', inners.foldlM (fun t inner =>
        match Loop.smallest? (loops.filter (·.isNesting inner)) with
        | some parent => t.insertEdge ⟨parent.header, inner.header⟩
        | none => pure t) t = (.ok t' : Outcome _) ∧ Trees loops t' := by
  induction inners generalizing t with
  | nil => exact ⟨t, rfl, ht⟩
  | cons inner rest ih =>
    rw [List.map_cons, List.nodup_cons] at distinct
    have hrest : rest ⊆ loops := fun l hl => hinners (List.mem_cons_of_mem inner hl)
    cases hparent : Loop.smallest? (loops.filter (·.isNesting inner)) with
    | none =>
      obtain ⟨t', hfold, ht'⟩ := ih ht hrest distinct.2 fun a l hl => hfree a l (List.mem_cons_of_mem inner hl)
      refine ⟨t', ?_, ht'⟩
      rw [List.foldlM_cons, hparent]
      exact bind_eq_ok.mpr ⟨t, rfl, hfold⟩
    | some parent =>
      obtain ⟨hmem, hnests⟩ := List.mem_filter.mp (Loop.mem_of_smallest? hparent)
      obtain ⟨t₁, ht₁⟩ : ∃ t₁, t.insertEdge ⟨parent.header, inner.header⟩ = .ok t₁ :=
        exists_insertEdge (hfree _ inner List.mem_cons_self) (ht.hasVertex hmem) (ht.hasVertex (hinners List.mem_cons_self))
      obtain ⟨-, hedges⟩ := insertEdge_ok ht₁
      have hnested : ∀ outer within, (t₁.edges.get? (outer, within)).isSome →
          ∃ l ∈ loops, l.header = outer ∧ l.contains within := fun outer within h => by
        rw [hedges] at h
        change ((t.edges.insert (parent.header, inner.header) _).get? (outer, within)).isSome at h
        rw [Table.get?_insert] at h
        split at h
        · rename_i heq
          cases heq
          exact ⟨parent, hmem, rfl, (Bool.and_eq_true_iff.mp hnests).2⟩
        · exact ht.nested outer within h
      have htrees : Trees loops t₁ :=
        ⟨ht.wired.insertEdge ht₁, fun h l => by rw [vertices_of_insertEdge ht₁]; exact ht.vertices h l, hnested⟩
      obtain ⟨t', hfold, ht'⟩ := ih htrees hrest distinct.2 fun a l hl => by
        rw [hedges]
        refine (Table.get?_insert _ _ _ _).trans ?_
        rw [if_neg fun heq => distinct.1 ?_]
        · exact hfree a l (List.mem_cons_of_mem inner hl)
        · have heq : (a, l.header) = (parent.header, inner.header) := heq
          rw [← (Prod.mk.inj heq).2]
          exact List.mem_map_of_mem hl
      refine ⟨t', ?_, ht'⟩
      rw [List.foldlM_cons, hparent]
      exact bind_eq_ok.mpr ⟨t₁, ht₁, hfold⟩

theorem edges_join {loops inners : List Loop} {t t' : LoopTree}
    (h : inners.foldlM (fun t inner =>
        match Loop.smallest? (loops.filter (·.isNesting inner)) with
        | some parent => t.insertEdge ⟨parent.header, inner.header⟩
        | none => pure t) t = (.ok t' : Outcome _)) (a b : Nat) :
    (t'.edges.get? (a, b)).isSome ↔ (t.edges.get? (a, b)).isSome ∨
      ∃ inner ∈ inners, ∃ outer, Loop.smallest? (loops.filter (·.isNesting inner)) = some outer ∧
        outer.header = a ∧ inner.header = b := by
  induction inners generalizing t with
  | nil =>
    cases h
    simp
  | cons inner rest ih =>
    rw [List.foldlM_cons] at h
    obtain ⟨t₁, ht₁, h⟩ := bind_eq_ok.mp h
    rw [ih h, List.exists_mem_cons_iff, ← or_assoc]
    refine or_congr_left ?_
    split at ht₁
    · rename_i parent hparent
      obtain ⟨-, hedges⟩ := insertEdge_ok ht₁
      rw [hedges, hparent]
      change ((t.edges.insert (parent.header, inner.header) _).get? (a, b)).isSome ↔ _
      rw [Table.get?_insert]
      split
      · rename_i heq
        obtain ⟨rfl, rfl⟩ := Prod.mk.inj heq
        simp
      · rename_i hne
        simp only [Option.some.injEq, exists_eq_left']
        exact (or_iff_left fun hends => hne (Prod.ext hends.1 hends.2).symm).symm
    · rename_i hnone
      cases ht₁
      simp [hnone]

theorem trees_empty : Trees [] (Graph.empty : LoopTree) :=
  ⟨wired_empty, fun h l => ⟨fun hl => (by cases hl), fun hl => (List.not_mem_nil hl.1).elim⟩, fun _ _ h => by cases h⟩

theorem Wired.loopTree_ok (wired : g.Wired) (hroot : g.hasVertex root) :
    ∃ loops tree, g.loopTree root = .ok tree ∧ Trees loops tree ∧ (loops.map Loop.header).Nodup ∧
      (∀ l ∈ loops, g.IsLoop root l) ∧ (∀ n h, g.GoesBack root n h → h ∈ loops.map Loop.header) ∧
      g.naturalLoops root = .ok loops ∧ ∀ a b, (tree.edges.get? (a, b)).isSome ↔ ∃ inner ∈ loops, ∃ outer,
        Loop.smallest? (loops.filter (·.isNesting inner)) = some outer ∧ outer.header = a ∧ inner.header = b := by
  obtain ⟨loops, hloops, distinct, his, hall⟩ := wired.naturalLoops_ok hroot
  obtain ⟨t, hvertices, ht, hnone⟩ := trees_foldlM (show (([] ++ loops).map Loop.header).Nodup from distinct)
    trees_empty rfl
  obtain ⟨tree, hjoin, htree⟩ := ht.join (List.Subset.refl loops) distinct fun a l _ => by rw [hnone]; rfl
  refine ⟨loops, tree, bind_eq_ok.mpr ⟨_, hloops, bind_eq_ok.mpr ⟨_, hvertices, hjoin⟩⟩, htree, distinct, his, hall,
    hloops, fun a b => (edges_join hjoin a b).trans (or_iff_right ?_)⟩
  rw [hnone]
  exact Bool.false_ne_true

end Graph

open RegionGuard.Graph

structure NaturalLoop.Describes (c : FlowGraph) (l : Loop) (d : NaturalLoop) : Prop where
  header : d.header = l.header
  blocks : d.blocks = l.nodes
  preheader : ∀ p, d.preheader = some p ↔
    (c.graph.predecessorsOf l.header).filter (fun v => !l.contains v) = [p] ∧ c.graph.successorsOf p = [l.header]

theorem filterM_ok {α : Type} {p : α → Outcome Bool} {l : List α} (h : ∀ a ∈ l, ∃ b, p a = .ok b) :
    ∃ r, l.filterM p = .ok r := by
  have hfold : ∀ acc, ∃ r, l.filterAuxM p acc = .ok r := by
    induction l with
    | nil => exact fun acc => ⟨acc, rfl⟩
    | cons a rest ih =>
      intro acc
      obtain ⟨b, hb⟩ := h a List.mem_cons_self
      obtain ⟨r, hr⟩ := ih (fun x hx => h x (List.mem_cons_of_mem a hx)) (cond b (a :: acc) acc)
      exact ⟨r, bind_eq_ok.mpr ⟨b, hb, hr⟩⟩
  obtain ⟨r, hr⟩ := hfold []
  exact ⟨r.reverse, bind_eq_ok.mpr ⟨r, hr, rfl⟩⟩

theorem mapM_ok {α β : Type} {f : α → Outcome β} {l : List α} (h : ∀ a ∈ l, ∃ b, f a = .ok b) :
    ∃ r, l.mapM f = .ok r := by
  induction l with
  | nil => exact ⟨[], rfl⟩
  | cons a rest ih =>
    obtain ⟨b, hb⟩ := h a List.mem_cons_self
    obtain ⟨r, hr⟩ := ih fun x hx => h x (List.mem_cons_of_mem a hx)
    exact ⟨b :: r, mapM_eq_ok.mpr (.cons hb (mapM_eq_ok.mp hr))⟩

variable {c : FlowGraph} {root : Nat}

theorem NaturalLoop.preheaderOf_ok (wired : c.graph.Wired) (header : Nat) (outside : List Nat)
    (houtside : ∀ v ∈ outside, (c.graph.vertices.get? v).isSome) :
    ∃ preheader, preheaderOf c header outside = .ok preheader ∧
      ∀ p, preheader = some p ↔ outside = [p] ∧ c.graph.successorsOf p = [header] := by
  unfold preheaderOf
  match outside with
  | [] => exact ⟨none, rfl, by simp⟩
  | [single] =>
    refine ⟨_, bind_eq_ok.mpr ⟨_, wired.successors_ok (houtside single (List.mem_singleton_self _)), rfl⟩, fun p => ?_⟩
    split
    · rename_i hsole
      refine ⟨fun h => ?_, fun ⟨h, _⟩ => ?_⟩
      · cases h
        exact ⟨rfl, hsole⟩
      · cases h
        rfl
    · rename_i hsole
      refine ⟨fun h => (by cases h), fun ⟨h, hp⟩ => ?_⟩
      cases h
      exact absurd hp hsole
  | _ :: _ :: _ => exact ⟨none, rfl, by simp⟩

theorem NaturalLoop.ofLoop_ok (wired : c.graph.Wired) {l : Loop} (hl : c.graph.IsLoop root l) {loops : List Loop}
    {tree : LoopTree} (htree : Trees loops tree) (hmem : l ∈ loops) :
    ∃ d, ofLoop c tree l = .ok d ∧ d.Describes c l := by
  obtain ⟨n, hback⟩ := hl.latched
  have hpredecessors := wired.predecessors_ok (wired.ends n l.header hback.edge).2
  have hvertex : ∀ v ∈ l.nodes.keys, (c.graph.vertices.get? v).isSome := fun v hv => by
    cases (hl.holds v).mp hv with
    | header => exact (wired.ends _ _ hback.edge).2
    | latch h => exact (wired.ends _ _ h.edge).1
    | ahead _ _ h _ => exact (wired.ends _ _ h).1
  obtain ⟨preheader, hpreheader, hiff⟩ := preheaderOf_ok wired l.header
    ((c.graph.predecessorsOf l.header).filter fun v => !l.contains v) fun v hv =>
      (wired.ends v l.header ((wired.predecessors v l.header).mp (List.mem_filter.mp hv).1)).1
  obtain ⟨exiting, hexiting⟩ := filterM_ok (l := l.nodes.keys)
    (p := fun b => do
      let successors ← c.successors b
      return successors.any fun t => !l.contains t)
    fun b hb => ⟨_, bind_eq_ok.mpr ⟨_, wired.successors_ok (hvertex b hb), rfl⟩⟩
  have hparents := htree.wired.predecessors_ok (v := l.header) (by rw [(htree.vertices _ l).mpr ⟨hmem, rfl⟩]; rfl)
  have hdescribed : ofLoop c tree l = .ok ⟨l.header, l.nodes, preheader, (c.graph.predecessorsOf l.header).filter l.contains,
      exiting, (tree.predecessorsOf l.header).head?, 0⟩ := by
    refine bind_eq_ok.mpr ⟨_, hpredecessors, ?_⟩
    rw [List.partition_eq_filter_filter]
    exact bind_eq_ok.mpr ⟨_, hpreheader, bind_eq_ok.mpr ⟨_, hexiting, bind_eq_ok.mpr ⟨_, hparents, rfl⟩⟩⟩
  exact ⟨_, hdescribed, rfl, rfl, hiff⟩

namespace Graph

variable {ν ε : Type} {g : Graph ν ε} {root h n u v w : Nat} {l : List Nat}

theorem Way.prepend (hedge : (g.edges.get? (u, v)).isSome) (hl : g.Way v w l) : g.Way u w (l ++ [u]) := by
  induction hl with
  | start => exact .follow .start hedge
  | follow _ hnext ih => exact ih.follow hnext

theorem IsReached.along (hu : g.IsReached root u) (hl : g.Way u v l) : g.IsReached root v := by
  induction hl with
  | start => exact hu
  | follow _ hedge ih => exact ih.follow hedge

/-- Control gets from a vertex to one that goes back to the header, and not by the header. -/
def LeadsBack (g : Graph ν ε) (root h v : Nat) : Prop := ∃ n p, g.GoesBack root n h ∧ g.Way v n p ∧ h ∉ p

theorem LeadsBack.of_edge (hw : g.LeadsBack root h w) (hedge : (g.edges.get? (v, w)).isSome) (hne : v ≠ h) :
    g.LeadsBack root h v := by
  obtain ⟨n, p, hback, hp, hnot⟩ := hw
  refine ⟨n, p ++ [v], hback, hp.prepend hedge, fun hmem => ?_⟩
  rcases List.mem_append.mp hmem with hmem | hmem
  · exact hnot hmem
  · exact hne (List.mem_singleton.mp hmem).symm

theorem Inside.leadsBack (hv : g.Inside root h v) (hne : v ≠ h) : g.LeadsBack root h v := by
  induction hv with
  | header => exact absurd rfl hne
  | @latch n hback => exact ⟨n, [n], hback, .start, fun hmem => hne (List.mem_singleton.mp hmem).symm⟩
  | ahead _ hw hedge _ ih => exact (ih hw).of_edge hedge hne

theorem Inside.isReached (hv : g.Inside root h v) (hback : g.GoesBack root n h) : g.IsReached root v := by
  cases hv with
  | header => exact hback.reached.follow hback.edge
  | latch hlatch => exact hlatch.reached
  | ahead _ _ _ hreached => exact hreached

/-- All that a way comes by in front of a vertex inside lies inside, if it does not come by the header. -/
theorem Inside.of_way (hn : g.Inside root h n) (hu : g.IsReached root u) (hl : g.Way u n l) (hnot : h ∉ l) :
    g.Inside root h u := by
  induction hl with
  | start => exact hn
  | @follow v w l hl hedge ih =>
    rw [List.mem_cons, not_or] at hnot
    exact ih (.ahead hn (Ne.symm hnot.1) hedge (hu.along hl)) hnot.2

theorem inside_iff (hback : g.GoesBack root n h) :
    g.Inside root h v ↔ v = h ∨ g.IsReached root v ∧ g.LeadsBack root h v := by
  constructor
  · intro hv
    by_cases hne : v = h
    · exact .inl hne
    · exact .inr ⟨hv.isReached hback, hv.leadsBack hne⟩
  · rintro (rfl | ⟨hreached, t, p, ht, hp, hnot⟩)
    · exact .header
    · exact Inside.of_way (.latch ht) hreached hp hnot

theorem Inside.dominates (hv : g.Inside root h v) :
    g.Dominates root h v := by
  induction hv with
  | header => exact fun _ hway => hway.self_mem
  | latch hback => exact hback.dominates
  | ahead _ hne hedge _ ih =>
    intro way hway
    rcases List.mem_cons.mp (ih _ (hway.follow hedge)) with heq | hmem
    · exact absurd heq.symm hne
    · exact hmem

/-- What stands between the header and a vertex inside on every way lies inside. -/
theorem Inside.between (wired : g.Wired) (hv : g.Inside root h v)
    (hu : g.Dominates root h u) (huv : g.Dominates root u v) (hreached : g.IsReached root v) : g.Inside root h u := by
  obtain ⟨w, hw⟩ := hreached
  induction hw with
  | start =>
    obtain rfl := List.mem_singleton.mp (huv _ .start)
    exact hv
  | @follow v w l hl hedge ih =>
    by_cases heq : u = w
    · exact heq ▸ hv
    · have hback : g.Dominates root u v := fun way hway =>
        (List.mem_cons.mp (huv _ (hway.follow hedge))).resolve_left heq
      have hne : w ≠ h := fun hheader => by
        subst hheader
        exact heq (wired.dominates_antisymm (hl.follow hedge) huv hu)
      exact ih (.ahead hv hne hedge ⟨l, hl⟩) hback

/-- What lies inside a loop whose header is inside another loop lies inside that loop, too. -/
theorem Inside.trans (wired : g.Wired) (hh : g.Inside root u h) (hv : g.Inside root h v) : g.Inside root u v := by
  by_cases hne : h = u
  · exact hne ▸ hv
  induction hv with
  | header => exact hh
  | latch hback => exact .ahead hh hne hback.edge hback.reached
  | @ahead v w hw _ hedge hreached ih =>
    refine .ahead ih (fun heq => hne ?_) hedge hreached
    -- Two loops that hold each other's headers are one.
    obtain ⟨l, hl⟩ := hreached.follow hedge
    rw [heq] at hl hw
    exact wired.dominates_antisymm hl hw.dominates hh.dominates

theorem sorted_naturalLoops {loops : List Loop} (h : g.naturalLoops root = .ok loops) :
    (loops.map Loop.header).Pairwise (· < ·) := by
  obtain ⟨reachable, -, h⟩ := bind_eq_ok.mp h
  obtain ⟨back, -, h⟩ := bind_eq_ok.mp h
  cases h
  have hsorted : (KeySet.ofKeys (back.map (·.2))).keys.Pairwise (compare · · = .lt) :=
    List.pairwise_map.mpr (KeySet.ofKeys (back.map (·.2))).sorted
  rw [List.map_map]
  exact (List.map_id _).symm ▸ hsorted.imp Nat.compare_eq_lt.mp

theorem naturalLoops_of_absent (hroot : g.hasVertex root = false) :
    g.naturalLoops root = .error (.error (.vertexNotFound root)) := by
  unfold naturalLoops reachable reversePostOrder
  rw [hroot]
  rfl

/-- The loops of a graph are found from each of its vertices, by increasing headers, and they are right: the headers
are the vertices that an edge leads back to, from a vertex that is reached and that they dominate, and a loop holds its
header and the vertices that are reached and from which control gets back to the header and not by the header. All of
these are reached, and none past the header. Where the root is no vertex there is an error. -/
theorem naturalLoops_spec (wired : g.Wired) (root : Nat) :
    (g.hasVertex root = false → g.naturalLoops root = .error (.error (.vertexNotFound root))) ∧
    (g.hasVertex root = true → ∃ loops, g.naturalLoops root = .ok loops ∧
      (loops.map Loop.header).Pairwise (· < ·) ∧
      (∀ h, h ∈ loops.map Loop.header ↔ ∃ t, g.GoesBack root t h) ∧
      ∀ l ∈ loops,
        (∀ v, v ∈ l.nodes.keys ↔ v = l.header ∨ g.IsReached root v ∧ g.LeadsBack root l.header v) ∧
        ∀ v ∈ l.nodes.keys, g.IsReached root v ∧ g.Dominates root l.header v) := by
  refine ⟨naturalLoops_of_absent, fun hroot => ?_⟩
  obtain ⟨loops, hloops, -, his, hall⟩ := wired.naturalLoops_ok hroot
  refine ⟨loops, hloops, sorted_naturalLoops hloops, fun h => ⟨fun hh => ?_, fun ⟨t, hback⟩ => hall t h hback⟩,
    fun l hl => ?_⟩
  · obtain ⟨l, hl, rfl⟩ := List.mem_map.mp hh
    exact (his l hl).latched
  · obtain ⟨n, hback⟩ := (his l hl).latched
    refine ⟨fun v => ((his l hl).holds v).trans (inside_iff hback), fun v hv => ?_⟩
    have hinside := ((his l hl).holds v).mp hv
    exact ⟨hinside.isReached hback, hinside.dominates⟩

/-- Two edges lead back to one header, a vertex in between is a loop of its own, and one from which control gets into
the loop, but that nothing leads to, is not part of it. -/
theorem naturalLoops_spec_two_latches :
    ∃ c loops, FlowGraph.build [[], [], [], [], [], []]
        [(0, 1, none), (1, 2, none), (2, 1, none), (2, 2, none), (2, 3, none), (3, 1, none), (3, 4, none), (5, 3, none)]
        (some 0) = .ok c ∧
      c.graph.Wired ∧ c.graph.hasVertex 0 = true ∧ c.graph.naturalLoops 0 = .ok loops ∧
      loops.map Loop.header = [1, 2] ∧ (∀ h, (∃ t, c.graph.GoesBack 0 t h) ↔ h = 1 ∨ h = 2) ∧
      (∀ v, v = 1 ∨ c.graph.IsReached 0 v ∧ c.graph.LeadsBack 0 1 v ↔ v = 1 ∨ v = 2 ∨ v = 3) ∧
      c.graph.Dominates 0 1 3 := by
  have hbuild : (FlowGraph.build [[], [], [], [], [], []]
      [(0, 1, none), (1, 2, none), (2, 1, none), (2, 2, none), (2, 3, none), (3, 1, none), (3, 4, none), (5, 3, none)]
      (some 0)).toOption.any fun c => c.graph.hasVertex 0 ∧ (c.graph.naturalLoops 0).toOption.any fun loops =>
        loops.map Loop.header = [1, 2] ∧ loops.head?.any fun l => l.header = 1 ∧ l.nodes.keys = [1, 2, 3] := by
    decide +kernel
  obtain ⟨c, hc, h⟩ := (Option.any_eq_true ..).mp hbuild
  obtain ⟨hroot, h⟩ := of_decide_eq_true h
  obtain ⟨loops, hloops, h⟩ := (Option.any_eq_true ..).mp h
  obtain ⟨hheaders, h⟩ := of_decide_eq_true h
  obtain ⟨l, hl, h⟩ := (Option.any_eq_true ..).mp h
  obtain ⟨hheader, hnodes⟩ := of_decide_eq_true h
  have hc := toOption_eq_some.mp hc
  have wired := (FlowGraph.made_of_build hc).wired
  obtain ⟨loops', hloops', -, hback, hholds⟩ := (naturalLoops_spec wired 0).2 hroot
  cases (toOption_eq_some.mp hloops).symm.trans hloops'
  obtain ⟨hvertices, hdominates⟩ := hholds l (List.mem_of_head? hl)
  rw [hheader, hnodes] at hvertices hdominates
  refine ⟨c, loops, hc, wired, hroot, hloops', hheaders, fun h => ?_, fun v => ?_, (hdominates 3 (by decide)).2⟩
  · rw [← hback, hheaders]
    simp
  · rw [← hvertices]
    simp

end Graph

end RegionGuard

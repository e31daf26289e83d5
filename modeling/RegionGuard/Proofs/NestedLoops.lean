import Mathlib.Data.Set.Lattice
import Mathlib.Order.CompletePartialOrder
import RegionGuard.Proofs.Approaches
set_option autoImplicit false

/-!
# Loops inside loops

Two loops of a graph are apart, or one of them is inside the other. So the loops around a block are nested, each loop
has a smallest one around it if there is any, and the way from a loop to its parent and on comes by all that are
around it.
-/

namespace RegionGuard

namespace Graph

variable {ν ε : Type} {g : Graph ν ε} {root h k v : Nat}

def loopAt (g : Graph ν ε) (root h : Nat) : Set Nat := {v | g.Inside root h v}

def IsHeader (g : Graph ν ε) (root h : Nat) : Prop := ∃ n, g.GoesBack root n h

theorem IsHeader.isReached (hh : g.IsHeader root h) : g.IsReached root h := by
  obtain ⟨n, hback⟩ := hh
  exact hback.reached.follow hback.edge

theorem loopAt_subset_iff (wired : g.Wired) : g.loopAt root k ⊆ g.loopAt root h ↔ g.Inside root h k :=
  ⟨fun hsub => hsub .header, fun hk _ hv => .trans wired hk hv⟩

theorem loopAt_inj (wired : g.Wired) (hh : g.IsHeader root h) : g.loopAt root h = g.loopAt root k ↔ h = k := by
  refine ⟨fun heq => ?_, fun heq => heq ▸ rfl⟩
  obtain ⟨l, hl⟩ := hh.isReached
  have hkh : g.Inside root k h := (loopAt_subset_iff wired).mp heq.subset
  have hhk : g.Inside root h k := (loopAt_subset_iff wired).mp heq.superset
  exact (wired.dominates_antisymm hl hkh.dominates hhk.dominates).symm

theorem loopAt_ssubset_iff (wired : g.Wired) (hh : g.IsHeader root h) :
    g.loopAt root k ⊂ g.loopAt root h ↔ h ≠ k ∧ g.Inside root h k := by
  rw [Set.ssubset_iff_subset_ne, loopAt_subset_iff wired, and_comm, ne_comm, Ne, loopAt_inj wired hh]

theorem loopAt_total (wired : g.Wired) (hv : v ∈ g.loopAt root h) (hv' : v ∈ g.loopAt root k)
    (hreached : g.IsReached root v) : g.loopAt root k ⊆ g.loopAt root h ∨ g.loopAt root h ⊆ g.loopAt root k := by
  obtain ⟨l, hl⟩ := hreached
  have hh : g.Inside root h v := hv
  have hk : g.Inside root k v := hv'
  rw [loopAt_subset_iff wired, loopAt_subset_iff wired]
  exact (hh.dominates.total hl hk.dominates).imp (fun hdom => hh.between wired hdom hk.dominates ⟨l, hl⟩)
    fun hdom => hk.between wired hdom hh.dominates ⟨l, hl⟩

theorem loopAt_laminar (wired : g.Wired) (hh : g.IsHeader root h) (hne : h ≠ k) :
    Disjoint (g.loopAt root h) (g.loopAt root k) ∨ g.loopAt root h ⊂ g.loopAt root k ∨
      g.loopAt root k ⊂ g.loopAt root h := by
  rw [or_iff_not_imp_left, Set.not_disjoint_iff]
  rintro ⟨v, hv, hv'⟩
  obtain ⟨n, hback⟩ := hh
  have hdiffers : g.loopAt root h ≠ g.loopAt root k := fun heq => hne ((loopAt_inj wired ⟨n, hback⟩).mp heq)
  rcases loopAt_total wired hv hv' (Inside.isReached hv hback) with hsub | hsub
  · exact .inr (hsub.ssubset_of_ne hdiffers.symm)
  · exact .inl (hsub.ssubset_of_ne hdiffers)

structure Surrounds (g : Graph ν ε) (root h k : Nat) : Prop where
  header : g.IsHeader root h
  around : g.loopAt root k ⊂ g.loopAt root h
  least : ∀ x, g.IsHeader root x → g.loopAt root k ⊂ g.loopAt root x → g.loopAt root h ⊆ g.loopAt root x

theorem Surrounds.eq (wired : g.Wired) (hh : g.Surrounds root h v) (hk : g.Surrounds root k v) : h = k :=
  (loopAt_inj wired hh.header).mp
    ((hh.least k hk.header hk.around).antisymm (hk.least h hh.header hh.around))

end Graph

namespace Loop

variable {loops : List Loop} {l x : Loop}

def members (l : Loop) : Set Nat := {v | v ∈ l.nodes.keys}

theorem exists_smallest? (h : x ∈ loops) : ∃ l, smallest? loops = some l := by
  cases loops with
  | nil => exact (List.not_mem_nil h).elim
  | cons y rest =>
    unfold smallest?
    split
    · split
      · exact ⟨_, rfl⟩
      · exact ⟨_, rfl⟩
    · exact ⟨_, rfl⟩

theorem size_le_of_smallest? (h : smallest? loops = some l) (hx : x ∈ loops) : l.nodes.size ≤ x.nodes.size := by
  induction loops generalizing l with
  | nil => exact (List.not_mem_nil hx).elim
  | cons y rest ih =>
    unfold smallest? at h
    split at h
    · rename_i other hother
      split at h
      · rename_i hle
        cases h
        rcases List.mem_cons.mp hx with rfl | hx
        · exact Nat.le_refl _
        · exact Nat.le_trans hle (ih hother hx)
      · rename_i hlt
        cases h
        rcases List.mem_cons.mp hx with rfl | hx
        · omega
        · exact ih hother hx
    · rename_i hnone
      cases h
      rcases List.mem_cons.mp hx with rfl | hx
      · exact Nat.le_refl _
      · obtain ⟨other, hother⟩ := exists_smallest? hx
        cases hnone.symm.trans hother

theorem size_lt_of_ssubset (h : x.members ⊂ l.members) : x.nodes.size < l.nodes.size := by
  obtain ⟨hsub, v, hv, hnot⟩ := Set.ssubset_iff_exists.mp h
  have hnodup : (v :: x.nodes.keys).Nodup := List.nodup_cons.mpr ⟨hnot, Table.nodup_keys _⟩
  have hkeys : v :: x.nodes.keys ⊆ l.nodes.keys := List.cons_subset.mpr ⟨hv, fun w hw => hsub hw⟩
  have hle := hnodup.length_le_of_subset hkeys
  have hsize : ∀ l : Loop, l.nodes.keys.length = l.nodes.size := fun l => List.length_map _
  rw [List.length_cons, hsize, hsize] at hle
  exact hle

end Loop

namespace Graph

variable {ν ε : Type} {g : Graph ν ε} {root : Nat} {loops : List Loop} {inner outer : Loop}

theorem IsLoop.members_eq {l : Loop} (hl : g.IsLoop root l) : l.members = g.loopAt root l.header :=
  Set.ext fun v => hl.holds v

theorem IsLoop.isNesting_iff (wired : g.Wired) (ho : g.IsLoop root outer) (hi : g.IsLoop root inner) :
    outer.isNesting inner = true ↔ inner.members ⊂ outer.members := by
  rw [ho.members_eq, hi.members_eq, loopAt_ssubset_iff wired ho.latched, Loop.isNesting, Bool.and_eq_true, bne_iff_ne,
    Loop.contains_iff, ho.holds]

structure Lists (g : Graph ν ε) (root : Nat) (loops : List Loop) : Prop where
  distinct : (loops.map Loop.header).Nodup
  loop : ∀ l ∈ loops, g.IsLoop root l
  complete : ∀ n h, g.GoesBack root n h → h ∈ loops.map Loop.header

/-- The loop with the fewest vertices of those that hold a header lies in all of these. -/
theorem Lists.surrounds_of_smallest? (wired : g.Wired) (all : g.Lists root loops) (hinner : inner ∈ loops)
    (h : Loop.smallest? (loops.filter (·.isNesting inner)) = some outer) :
    outer ∈ loops ∧ g.Surrounds root outer.header inner.header := by
  obtain ⟨houter, hnests⟩ := List.mem_filter.mp (Loop.mem_of_smallest? h)
  have hi := all.loop inner hinner
  have ho := all.loop outer houter
  rw [ho.isNesting_iff wired hi, hi.members_eq, ho.members_eq] at hnests
  refine ⟨houter, ho.latched, hnests, fun k hk haround => ?_⟩
  obtain ⟨n, hback⟩ := hk
  obtain ⟨x, hx, rfl⟩ := List.mem_map.mp (all.complete n k hback)
  have hlx := all.loop x hx
  have hsize := Loop.size_le_of_smallest? h (List.mem_filter.mpr ⟨hx, (hlx.isNesting_iff wired hi).mpr (by
    rw [hi.members_eq, hlx.members_eq]
    exact haround)⟩)
  have hreached := IsHeader.isReached hi.latched
  rcases loopAt_total wired (haround.subset .header) (hnests.subset .header) hreached with hsub | hsub
  · exact hsub
  · rcases Set.eq_or_ssubset_of_subset hsub with heq | hlt
    · exact heq.superset
    · rw [← hlx.members_eq, ← ho.members_eq] at hlt
      exact absurd (Loop.size_lt_of_ssubset hlt) (Nat.not_lt.mpr hsize)

theorem Lists.exists_smallest? (wired : g.Wired) (all : g.Lists root loops) (hinner : inner ∈ loops) (houter : outer ∈ loops)
    (h : g.loopAt root inner.header ⊂ g.loopAt root outer.header) :
    ∃ l, Loop.smallest? (loops.filter (·.isNesting inner)) = some l := by
  have hi := all.loop inner hinner
  have ho := all.loop outer houter
  refine Loop.exists_smallest? (x := outer) (List.mem_filter.mpr ⟨houter, (ho.isNesting_iff wired hi).mpr ?_⟩)
  rw [hi.members_eq, ho.members_eq]
  exact h

theorem Lists.smallest?_eq_some_iff (wired : g.Wired) (all : g.Lists root loops) (hinner : inner ∈ loops) :
    Loop.smallest? (loops.filter (·.isNesting inner)) = some outer ↔
      outer ∈ loops ∧ g.Surrounds root outer.header inner.header := by
  refine ⟨all.surrounds_of_smallest? wired hinner, fun ⟨houter, hsurrounds⟩ => ?_⟩
  obtain ⟨l, hl⟩ := all.exists_smallest? wired hinner houter hsurrounds.around
  obtain ⟨hmem, hsurrounds'⟩ := all.surrounds_of_smallest? wired hinner hl
  rw [hl, List.inj_on_of_nodup_map all.distinct hmem houter (hsurrounds'.eq wired hsurrounds)]

theorem Lists.surrounds_iff (all : g.Lists root loops) (houter : outer ∈ loops) (hinner : inner ∈ loops) :
    g.Surrounds root outer.header inner.header ↔ inner.members ⊂ outer.members ∧
      ∀ x ∈ loops, inner.members ⊂ x.members → outer.members ⊆ x.members := by
  rw [(all.loop inner hinner).members_eq, (all.loop outer houter).members_eq]
  constructor
  · refine fun hsurrounds => ⟨hsurrounds.around, fun x hx hlt => ?_⟩
    rw [(all.loop x hx).members_eq] at hlt ⊢
    exact hsurrounds.least _ (all.loop x hx).latched hlt
  · rintro ⟨haround, hleast⟩
    refine ⟨(all.loop outer houter).latched, haround, fun h ⟨n, hback⟩ hlt => ?_⟩
    obtain ⟨x, hx, rfl⟩ := List.mem_map.mp (all.complete n h hback)
    rw [← (all.loop x hx).members_eq] at hlt ⊢
    exact hleast x hx hlt

end Graph

open RegionGuard.Graph

def NaturalLoop.members (l : NaturalLoop) : Set Nat := {v | l.contains v = true}

namespace LoopForest

variable {c : FlowGraph} {root : Nat} {f : LoopForest} {l x : NaturalLoop}

structure Nests (c : FlowGraph) (root : Nat) (f : LoopForest) : Prop where
  wired : c.graph.Wired
  reports : f.Reports c root
  keyed : ∀ l ∈ f.toList, f.loop? l.header = some l
  parent : ∀ l ∈ f.toList, ∀ h, l.parent = some h ↔ c.graph.Surrounds root h l.header
  covered : ∀ l ∈ f.toList, ∀ x ∈ f.toList, c.graph.loopAt root l.header ⊂ c.graph.loopAt root x.header →
    ∃ h, c.graph.Surrounds root h l.header

theorem nests_of_ofGraph (wired : c.graph.Wired) (hentry : c.entry = some root) (hroot : c.graph.hasVertex root)
    (h : ofGraph c = .ok f) : f.Nests c root ∧ ∃ loops, c.graph.naturalLoops root = .ok loops ∧
      ∀ x, x ∈ loops ↔ ∃ l ∈ f.toList, x = ⟨l.header, l.blocks⟩ := by
  obtain ⟨loops, tree, htree, trees, distinct, his, hall, hloops, hedges⟩ := wired.loopTree_ok hroot
  have all : c.graph.Lists root loops := ⟨distinct, his, hall⟩
  obtain ⟨f', hf', reports⟩ := ofGraph_total wired hentry hroot
  cases h.symm.trans hf'
  obtain ⟨entry, tree', he, htree', described⟩ := exists_of_loop? h
  cases hentry.symm.trans (orRaise_eq_ok.mp he)
  cases htree.symm.trans htree'
  have keyed : ∀ l ∈ f.toList, f.loop? l.header = some l := fun l hl => (ofGraph_ok h hl).1
  -- Each loop of the forest is what is written down about one of the graph.
  have source : ∀ l ∈ f.toList, (⟨l.header, l.blocks⟩ : Loop) ∈ loops ∧
      ∀ k, l.parent = some k ↔ c.graph.Surrounds root k l.header := by
    intro l hl
    obtain ⟨y, hy, -, hheader, hblocks, parents, hparents, hhead⟩ := described _ l (keyed l hl)
    obtain ⟨k, hk⟩ := Table.mem_values_iff.mp hy
    obtain ⟨hmem, -⟩ := (trees.vertices _ _).mp hk
    have hy : y = ⟨l.header, l.blocks⟩ := by rw [hheader, hblocks]
    subst hy
    refine ⟨hmem, fun k => ?_⟩
    have hjoined : ∀ k, k ∈ parents ↔ c.graph.Surrounds root k l.header := fun k => by
      rw [← Graph.predecessorsOf_of_ok hparents, trees.wired.predecessors, hedges]
      constructor
      · rintro ⟨inner, hinner, outer, hsmallest, rfl, hsame⟩
        have hsurrounds := (all.surrounds_of_smallest? wired hinner hsmallest).2
        rw [hsame] at hsurrounds
        exact hsurrounds
      · intro hsurrounds
        obtain ⟨n, hback⟩ := hsurrounds.header
        obtain ⟨z, hz, rfl⟩ := List.mem_map.mp (hall n k hback)
        exact ⟨_, hmem, z, (all.smallest?_eq_some_iff wired hmem).mpr ⟨hz, hsurrounds⟩, rfl, rfl⟩
    rw [hhead]
    refine ⟨fun hk => (hjoined k).mp (List.mem_of_head? hk), fun hk => ?_⟩
    obtain ⟨first, hfirst⟩ := Option.isSome_iff_exists.mp
      (List.isSome_head?.mpr (List.ne_nil_of_mem ((hjoined k).mpr hk)))
    rw [hfirst, ((hjoined first).mp (List.mem_of_head? hfirst)).eq wired hk]
  refine ⟨⟨wired, reports, keyed, fun l hl => (source l hl).2, fun l hl x hx hlt => ?_⟩, loops, hloops, fun x => ?_⟩
  · obtain ⟨outer, houter⟩ := all.exists_smallest? wired (source l hl).1 (source x hx).1 hlt
    exact ⟨_, (all.surrounds_of_smallest? wired (source l hl).1 houter).2⟩
  · constructor
    · intro hx
      obtain ⟨n, hback⟩ := (his x hx).latched
      obtain ⟨l, hl, hheader⟩ := List.mem_map.mp (reports.complete n _ hback)
      exact ⟨l, hl, List.inj_on_of_nodup_map distinct hx (source l hl).1 hheader.symm⟩
    · rintro ⟨l, hl, rfl⟩
      exact (source l hl).1

section Nests

variable (nests : f.Nests c root)
include nests

theorem Nests.members_eq (hl : l ∈ f.toList) : l.members = c.graph.loopAt root l.header :=
  Set.ext fun v => nests.reports.holds l hl v

theorem Nests.contains_iff (hl : l ∈ f.toList) {h : Nat} :
    l.contains h = true ↔ c.graph.loopAt root h ⊆ c.graph.loopAt root l.header := by
  rw [nests.reports.holds l hl, loopAt_subset_iff nests.wired]

theorem Nests.eq_of_header (hl : l ∈ f.toList) (hx : x ∈ f.toList) (h : x.header = l.header) : x = l :=
  List.inj_on_of_nodup_map nests.reports.distinct hx hl h

theorem Nests.subset_iff (hl : l ∈ f.toList) (hx : x ∈ f.toList) :
    c.graph.loopAt root l.header ⊆ c.graph.loopAt root x.header ↔
      x = l ∨ c.graph.loopAt root l.header ⊂ c.graph.loopAt root x.header := by
  rw [subset_iff_ssubset_or_eq, or_comm]
  refine or_congr_left ⟨fun heq => ?_, fun heq => by rw [heq]⟩
  exact nests.eq_of_header hl hx ((loopAt_inj nests.wired (nests.reports.latched l hl)).mp heq).symm

theorem Nests.countP_lt (hl : l ∈ f.toList)
    (hlt : c.graph.loopAt root l.header ⊂ c.graph.loopAt root x.header) :
    f.toList.countP (·.contains x.header) < f.toList.countP (·.contains l.header) := by
  refine RegionGuard.countP_lt (fun y hy hcontains => ?_) hl ?_ ((nests.contains_iff hl).mpr Set.Subset.rfl)
  · rw [nests.contains_iff hy] at hcontains ⊢
    exact hlt.subset.trans hcontains
  · rw [← Bool.not_eq_true, nests.contains_iff hl]
    exact hlt.not_subset

theorem Nests.outward_spec {steps : Nat} (hl : l ∈ f.toList)
    (hsteps : f.toList.countP (·.contains l.header) ≤ steps) :
    (∀ x, x ∈ f.outward steps (some l) ↔ x ∈ f.toList ∧ x.contains l.header = true) ∧
      (f.outward steps (some l)).Pairwise fun inner outer => inner.members ⊂ outer.members := by
  have hself : l.contains l.header = true := (nests.contains_iff hl).mpr Set.Subset.rfl
  induction steps generalizing l with
  | zero => exact absurd (List.countP_pos_iff.mpr ⟨l, hl, hself⟩) (Nat.not_lt.mpr hsteps)
  | succ steps ih =>
    rw [outward]
    cases hparent : l.parent with
    | none =>
      have houtermost : ∀ x ∈ f.toList, x.contains l.header = true → x = l := fun x hx hcontains => by
        refine ((nests.subset_iff hl hx).mp ((nests.contains_iff hx).mp hcontains)).resolve_right fun hlt => ?_
        obtain ⟨h, hsurrounds⟩ := nests.covered l hl x hx hlt
        cases hparent.symm.trans ((nests.parent l hl h).mpr hsurrounds)
      have hend : f.outward steps (none.bind f.loop?) = [] := by cases steps <;> rfl
      rw [hend]
      refine ⟨fun x => ?_, List.pairwise_singleton _ l⟩
      rw [List.mem_singleton]
      constructor
      · rintro rfl
        exact ⟨hl, hself⟩
      · exact fun ⟨hx, hcontains⟩ => houtermost x hx hcontains
    | some h =>
      have hsurrounds := (nests.parent l hl h).mp hparent
      obtain ⟨n, hback⟩ := hsurrounds.header
      obtain ⟨p, hp, rfl⟩ := List.mem_map.mp (nests.reports.complete n h hback)
      rw [Option.bind_some, nests.keyed p hp]
      obtain ⟨hmem, hpairwise⟩ := ih hp
        (Nat.le_of_lt_succ (Nat.lt_of_lt_of_le (nests.countP_lt hl hsurrounds.around) hsteps))
        ((nests.contains_iff hp).mpr Set.Subset.rfl)
      refine ⟨fun x => ?_, List.pairwise_cons.mpr ⟨fun x hx => ?_, hpairwise⟩⟩
      · rw [List.mem_cons, hmem]
        constructor
        · rintro (rfl | ⟨hx, hcontains⟩)
          · exact ⟨hl, hself⟩
          · exact ⟨hx, (nests.contains_iff hx).mpr
              (hsurrounds.around.subset.trans ((nests.contains_iff hx).mp hcontains))⟩
        · rintro ⟨hx, hcontains⟩
          refine ((nests.subset_iff hl hx).mp ((nests.contains_iff hx).mp hcontains)).imp id fun hlt => ?_
          exact ⟨hx, (nests.contains_iff hx).mpr (hsurrounds.least _ (nests.reports.latched x hx) hlt)⟩
      · obtain ⟨hx, hcontains⟩ := (hmem x).mp hx
        rw [nests.members_eq hl, nests.members_eq hx]
        exact hsurrounds.around.trans_subset ((nests.contains_iff hx).mp hcontains)

end Nests

theorem length_toList (f : LoopForest) : f.toList.length = f.loops.size := List.length_map _

theorem depthOf_eq_length {loops : Table Nat NaturalLoop}
    (same : ∀ k, (loops.get? k).map (·.parent) = (f.loop? k).map (·.parent))
    (closed : ∀ l ∈ f.toList, ∀ k, l.parent = some k → (f.loop? k).isSome) (steps : Nat) {start : Option Nat}
    (hstart : ∀ k ∈ start, (f.loop? k).isSome) :
    depthOf loops steps start = (f.outward steps (start.bind f.loop?)).length := by
  induction steps generalizing start with
  | zero => rfl
  | succ steps ih =>
    cases start with
    | none => rfl
    | some k =>
      obtain ⟨l, hl⟩ := Option.isSome_iff_exists.mp (hstart k rfl)
      obtain ⟨x, hx, hparent⟩ := Option.map_eq_some_iff.mp ((same k).trans (congrArg _ hl))
      rw [Option.bind_some, hl, depthOf, outward, List.length_cons, hx, Option.bind_some, hparent,
        ih fun parent hp => closed l (mem_of_loop? hl) parent hp]

theorem exists_depths (h : ofGraph c = .ok f) : ∃ loops : Table Nat NaturalLoop, loops.size = f.loops.size ∧
    ∀ k, f.loop? k = (loops.get? k).map fun l => { l with depth := depthOf loops (loops.size + 1) (some k) } := by
  obtain ⟨entry, -, h⟩ := bind_eq_ok.mp h
  obtain ⟨tree, -, h⟩ := bind_eq_ok.mp h
  obtain ⟨described, -, h⟩ := bind_eq_ok.mp h
  cases h
  exact ⟨_, (List.length_map _).symm, fun k => Table.get?_map_keyed _ _ _⟩

theorem depth_eq_length (h : ofGraph c = .ok f) (closed : ∀ l ∈ f.toList, ∀ k, l.parent = some k → (f.loop? k).isSome)
    (hl : l ∈ f.toList) : l.depth = (f.outward (f.loops.size + 1) (some l)).length := by
  have hkeyed := (ofGraph_ok h hl).1
  obtain ⟨loops, hsize, hloop⟩ := exists_depths h
  have same : ∀ k, (loops.get? k).map (·.parent) = (f.loop? k).map (·.parent) := fun k => by
    rw [hloop, Option.map_map]
    rfl
  have hstart : ∀ k ∈ some l.header, (f.loop? k).isSome := fun k hk => by
    cases hk
    rw [hkeyed]
    rfl
  have hlength := depthOf_eq_length same closed (f.loops.size + 1) hstart
  rw [Option.bind_some, hkeyed] at hlength
  obtain ⟨x, -, hx⟩ := Option.map_eq_some_iff.mp ((hloop _).symm.trans hkeyed)
  rw [← hlength, ← hsize]
  exact (congrArg NaturalLoop.depth hx).symm

theorem exists_deepest? {loops : List NaturalLoop} (h : x ∈ loops) : ∃ l, deepest? loops = some l := by
  cases loops with
  | nil => exact (List.not_mem_nil h).elim
  | cons y rest =>
    unfold deepest?
    split
    · split
      · exact ⟨_, rfl⟩
      · exact ⟨_, rfl⟩
    · exact ⟨_, rfl⟩

theorem depth_le_of_deepest? {loops : List NaturalLoop} (h : deepest? loops = some l) (hx : x ∈ loops) :
    x.depth ≤ l.depth := by
  induction loops generalizing l with
  | nil => exact (List.not_mem_nil hx).elim
  | cons y rest ih =>
    unfold deepest? at h
    split at h
    · rename_i other hother
      split at h
      · rename_i hle
        cases h
        rcases List.mem_cons.mp hx with rfl | hx
        · exact hle
        · exact ih hother hx
      · rename_i hlt
        cases h
        rcases List.mem_cons.mp hx with rfl | hx
        · exact Nat.le_refl _
        · exact Nat.le_trans (ih hother hx) (Nat.le_of_not_le hlt)
    · rename_i hnone
      cases h
      rcases List.mem_cons.mp hx with rfl | hx
      · exact Nat.le_refl _
      · obtain ⟨other, hother⟩ := exists_deepest? hx
        cases hnone.symm.trans hother

section Nests

variable (nests : f.Nests c root)
include nests

theorem Nests.outward_header (hl : l ∈ f.toList) :
    (∀ x, x ∈ f.outward (f.loops.size + 1) (some l) ↔ x ∈ f.toList ∧ x.contains l.header = true) ∧
      (f.outward (f.loops.size + 1) (some l)).Pairwise fun inner outer => inner.members ⊂ outer.members :=
  nests.outward_spec hl (Nat.le_succ_of_le (f.length_toList ▸ List.countP_le_length))

theorem Nests.depth_eq (h : ofGraph c = .ok f) (hl : l ∈ f.toList) :
    l.depth = f.toList.countP (·.contains l.header) := by
  obtain ⟨hmem, hpairwise⟩ := nests.outward_header hl
  have closed : ∀ x ∈ f.toList, ∀ k, x.parent = some k → (f.loop? k).isSome := fun x hx k hk => by
    obtain ⟨n, hback⟩ := ((nests.parent x hx k).mp hk).header
    obtain ⟨p, hp, rfl⟩ := List.mem_map.mp (nests.reports.complete n k hback)
    rw [nests.keyed p hp]
    rfl
  have hperm : (f.outward (f.loops.size + 1) (some l)).Perm (f.toList.filter (·.contains l.header)) := by
    refine (List.perm_ext_iff_of_nodup ?_ (nests.reports.distinct.of_map _ |>.filter _)).mpr fun x => ?_
    · exact hpairwise.imp fun hlt heq => (heq ▸ hlt).ne rfl
    · rw [hmem, List.mem_filter]
  rw [depth_eq_length h closed hl, hperm.length_eq, List.countP_eq_length_filter]

theorem Nests.subset_of_innermost? (h : ofGraph c = .ok f) {block : Nat} (hl : f.innermost? block = some l)
    (hx : x ∈ f.toList) (hcontains : x.contains block = true) :
    c.graph.loopAt root l.header ⊆ c.graph.loopAt root x.header := by
  obtain ⟨hmem, hblock⟩ := List.mem_filter.mp (mem_of_deepest? hl)
  have hle : x.depth ≤ l.depth := depth_le_of_deepest? hl (List.mem_filter.mpr ⟨hx, hcontains⟩)
  have hinside := (nests.reports.holds l hmem _).mp hblock
  have hinside' := (nests.reports.holds x hx _).mp hcontains
  obtain ⟨n, hback⟩ := nests.reports.latched l hmem
  rcases loopAt_total nests.wired hinside' hinside (hinside.isReached hback) with hsub | hsub
  · exact hsub
  · rcases (nests.subset_iff hx hmem).mp hsub with rfl | hlt
    · exact Set.Subset.rfl
    · -- A smaller loop would be deeper.
      have hdeeper := nests.countP_lt hx hlt
      rw [← nests.depth_eq h hmem, ← nests.depth_eq h hx] at hdeeper
      exact absurd hdeeper (Nat.not_lt.mpr hle)

theorem Nests.nest_spec (h : ofGraph c = .ok f) (block : Nat) :
    (∀ l, l ∈ f.nest block ↔ l ∈ f.toList ∧ l.contains block = true) ∧
      (f.nest block).Pairwise fun inner outer => inner.members ⊂ outer.members := by
  rw [nest]
  cases hinnermost : f.innermost? block with
  | none =>
    refine ⟨fun l => iff_of_false List.not_mem_nil fun ⟨hl, hcontains⟩ => ?_, List.Pairwise.nil⟩
    obtain ⟨d, hd⟩ := exists_deepest? (List.mem_filter (p := (·.contains block)).mpr ⟨hl, hcontains⟩)
    cases hinnermost.symm.trans hd
  | some d =>
    obtain ⟨hd, hblock⟩ := List.mem_filter.mp (mem_of_deepest? hinnermost)
    obtain ⟨hmem, hpairwise⟩ := nests.outward_header hd
    refine ⟨fun l => (hmem l).trans (and_congr_right fun hl => ?_), hpairwise⟩
    rw [nests.contains_iff hl]
    refine ⟨fun hsub => ?_, fun hcontains => nests.subset_of_innermost? h hinnermost hl hcontains⟩
    exact (nests.reports.holds l hl block).mpr (hsub ((nests.reports.holds d hd block).mp hblock))

end Nests

end LoopForest

/-- The loops of a graph form a forest. Two loops with different headers have no vertex in common, or one is inside the
other. The tree of loops is found; its vertices are the loops, and an edge leads to a loop from the smallest one around
it and from no other. The loops of a function are those of its graph, each as deep as there are loops around its header,
and the nest around a block has just the loops that hold the block, each inside the next. -/
theorem loops_nest :
    (∀ {ν ε : Type} (g : Graph ν ε) (root : Nat), g.Wired → g.hasVertex root = true →
      ∃ loops tree, g.naturalLoops root = .ok loops ∧ g.loopTree root = .ok tree ∧
        (∀ a ∈ loops, ∀ b ∈ loops, a.header ≠ b.header →
          Disjoint a.members b.members ∨ a.members ⊂ b.members ∨ b.members ⊂ a.members) ∧
        (∀ h l, tree.vertices.get? h = some l ↔ l ∈ loops ∧ l.header = h) ∧
        ∀ h k, (tree.edges.get? (h, k)).isSome ↔
          ∃ outer ∈ loops, ∃ inner ∈ loops, outer.header = h ∧ inner.header = k ∧ inner.members ⊂ outer.members ∧
            ∀ x ∈ loops, inner.members ⊂ x.members → outer.members ⊆ x.members) ∧
    ∀ (c : FlowGraph) (root : Nat), c.graph.Wired → c.entry = some root → c.graph.hasVertex root = true →
      ∃ forest loops, LoopForest.ofGraph c = .ok forest ∧ c.graph.naturalLoops root = .ok loops ∧
        (∀ x, x ∈ loops ↔ ∃ l ∈ forest.toList, x = ⟨l.header, l.blocks⟩) ∧
        (∀ l ∈ forest.toList, l.depth = forest.toList.countP (·.contains l.header)) ∧
        ∀ block, (∀ l, l ∈ forest.nest block ↔ l ∈ forest.toList ∧ l.contains block = true) ∧
          (forest.nest block).Pairwise fun inner outer => inner.members ⊂ outer.members := by
  refine ⟨fun g root wired hroot => ?_, fun c root wired hentry hroot => ?_⟩
  · obtain ⟨loops, tree, htree, trees, distinct, his, hall, hloops, hedges⟩ := wired.loopTree_ok hroot
    have all : g.Lists root loops := ⟨distinct, his, hall⟩
    refine ⟨loops, tree, hloops, htree, fun a ha b hb hne => ?_, trees.vertices, fun h k => ?_⟩
    · rw [(his a ha).members_eq, (his b hb).members_eq]
      exact loopAt_laminar wired (his a ha).latched hne
    · rw [hedges]
      constructor
      · rintro ⟨inner, hinner, outer, hsmallest, rfl, rfl⟩
        obtain ⟨houter, hsurrounds⟩ := all.surrounds_of_smallest? wired hinner hsmallest
        exact ⟨outer, houter, inner, hinner, rfl, rfl, (all.surrounds_iff houter hinner).mp hsurrounds⟩
      · rintro ⟨outer, houter, inner, hinner, rfl, rfl, hsmallest⟩
        have hsurrounds := (all.surrounds_iff houter hinner).mpr hsmallest
        exact ⟨inner, hinner, outer, (all.smallest?_eq_some_iff wired hinner).mpr ⟨houter, hsurrounds⟩, rfl, rfl⟩
  · obtain ⟨forest, hforest, -⟩ := LoopForest.ofGraph_total wired hentry hroot
    obtain ⟨nests, loops, hloops, hmem⟩ := LoopForest.nests_of_ofGraph wired hentry hroot hforest
    exact ⟨forest, loops, hforest, hloops, hmem, fun l hl => nests.depth_eq hforest hl, nests.nest_spec hforest⟩

/-- Of three loops around each other and one beside the inner two, the tree joins each to the next one around it, and the
innermost is the third one from outside. -/
theorem loops_nest_thrice :
    ∃ c loops tree forest, FlowGraph.build [[], [], [], [], [], []]
        [(0, 1, none), (1, 2, none), (2, 3, none), (3, 3, none), (3, 2, none), (2, 4, none), (4, 4, none), (4, 1, none),
          (1, 5, none)] (some 0) = .ok c ∧
      c.graph.Wired ∧ c.graph.hasVertex 0 = true ∧ c.entry = some 0 ∧ c.graph.naturalLoops 0 = .ok loops ∧
      c.graph.loopTree 0 = .ok tree ∧ LoopForest.ofGraph c = .ok forest ∧ loops.map Loop.header = [1, 2, 3, 4] ∧
      (∃ outer ∈ loops, ∃ inner ∈ loops, outer.header = 2 ∧ inner.header = 3 ∧ inner.members ⊂ outer.members ∧
        ∀ x ∈ loops, inner.members ⊂ x.members → outer.members ⊆ x.members) ∧
      (∃ l ∈ forest.toList, l.header = 3 ∧ l.depth = 3 ∧ forest.toList.countP (·.contains 3) = 3) ∧
      (forest.nest 3).map (·.header) = [3, 2, 1] ∧
      (forest.nest 3).Pairwise fun inner outer => inner.members ⊂ outer.members := by
  have hbuild : (FlowGraph.build [[], [], [], [], [], []]
      [(0, 1, none), (1, 2, none), (2, 3, none), (3, 3, none), (3, 2, none), (2, 4, none), (4, 4, none), (4, 1, none),
        (1, 5, none)] (some 0)).toOption.any fun c => c.graph.hasVertex 0 ∧ c.entry = some 0 ∧
          ((c.graph.naturalLoops 0).toOption.any fun loops => loops.map Loop.header = [1, 2, 3, 4]) ∧
          ((c.graph.loopTree 0).toOption.any fun tree => (tree.edges.get? (2, 3)).isSome) ∧
          (LoopForest.ofGraph c).toOption.any fun forest => (forest.nest 3).map (·.header) = [3, 2, 1] ∧
            forest.toList.any fun l => l.header = 3 ∧ l.depth = 3 := by
    decide +kernel
  obtain ⟨c, hc, h⟩ := (Option.any_eq_true ..).mp hbuild
  obtain ⟨hroot, hentry, hloops, htree, hforest⟩ := of_decide_eq_true h
  obtain ⟨loops, hloops, hheaders⟩ := (Option.any_eq_true ..).mp hloops
  obtain ⟨tree, htree, hedge⟩ := (Option.any_eq_true ..).mp htree
  obtain ⟨forest, hforest, h⟩ := (Option.any_eq_true ..).mp hforest
  obtain ⟨hnest, hdepth⟩ := of_decide_eq_true h
  obtain ⟨l, hl, h⟩ := List.any_eq_true.mp hdepth
  obtain ⟨hheader, hdepth⟩ := of_decide_eq_true h
  have hc := toOption_eq_some.mp hc
  have wired := (FlowGraph.made_of_build hc).wired
  obtain ⟨loops', tree', hloops', htree', -, -, hedges⟩ := loops_nest.1 c.graph 0 wired hroot
  cases (toOption_eq_some.mp hloops).symm.trans hloops'
  cases (toOption_eq_some.mp htree).symm.trans htree'
  obtain ⟨forest', -, hforest', -, -, hdepths, hnests⟩ := loops_nest.2 c 0 wired hentry hroot
  cases (toOption_eq_some.mp hforest).symm.trans hforest'
  have hcount := hdepths l hl
  rw [hheader] at hcount
  exact ⟨c, loops, tree, forest, hc, wired, hroot, hentry, hloops', htree', hforest', of_decide_eq_true hheaders,
    (hedges 2 3).mp hedge, ⟨l, hl, hheader, hdepth, hcount.symm.trans hdepth⟩, hnest, (hnests 3).2⟩

end RegionGuard

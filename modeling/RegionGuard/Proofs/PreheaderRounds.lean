import RegionGuard.Proofs.SteadyEdits
set_option autoImplicit false

namespace RegionGuard

open RegionGuard.Graph FlowGraph Edit

variable {R : Fatal → Prop} {K : Operation → Prop} {c c' : FlowGraph} {root : Nat}

/-- Where all ways from outside were diverted over one new vertex, it enters the loop. -/
theorem Graph.Bridges.entersBy_single {ν ε : Type} {g g' : Graph ν ε} {header new : Nat} {outside : List Nat}
    (b : Bridges g g' root header [new] outside) (hne : outside ≠ [])
    (hall : ∀ v, (g.edges.get? (v, header)).isSome → g.Inside root header v ∨ v ∈ outside) :
    g'.EntersBy root header new := by
  obtain ⟨u, hu⟩ := List.exists_mem_of_ne_nil outside hne
  obtain ⟨n, hn, -, hedge⟩ := b.through u hu
  have hn := List.mem_singleton.mp hn
  subst hn
  refine b.entersBy_new (List.mem_singleton_self n) hall hedge (fun w hw => ?_) fun m hm _ => List.mem_singleton.mp hm
  by_cases hnew : w ∈ [n]
  · rw [List.mem_singleton.mp hnew] at hw
    exact absurd (b.ascending n n (List.mem_singleton_self n) (List.mem_singleton_self n) hw) (Nat.lt_irrefl n)
  · exact b.out n w (List.mem_singleton_self n) hnew hw

namespace LoopForest

def lacking (f : LoopForest) (skipped : List Nat) : List Nat :=
  (f.toList.filter fun l => l.preheader.isNone && !skipped.contains l.header).map (·.header)

theorem Reports.nodup_lacking {f : LoopForest} (h : f.Reports c root) (skipped : List Nat) : (f.lacking skipped).Nodup :=
  (List.filter_sublist.map _).nodup h.distinct

theorem Reports.mem_lacking {f : LoopForest} (reports : f.Reports c root) {skipped : List Nat} {h : Nat} :
    h ∈ f.lacking skipped ↔
      (∃ n, c.graph.GoesBack root n h) ∧ (∀ p, ¬ c.graph.EntersBy root h p) ∧ h ∉ skipped := by
  unfold lacking
  simp only [List.mem_map, List.mem_filter, Bool.and_eq_true, Option.isNone_iff_eq_none, Bool.not_eq_true',
    List.contains_eq_mem, decide_eq_false_iff_not]
  constructor
  · rintro ⟨l, ⟨hl, hnone, hskipped⟩, rfl⟩
    refine ⟨reports.latched l hl, fun p hp => ?_, hskipped⟩
    rw [(reports.entered l hl p).mpr hp] at hnone
    cases hnone
  · rintro ⟨⟨n, hback⟩, hlacks, hskipped⟩
    obtain ⟨l, hl, rfl⟩ := List.mem_map.mp (reports.complete n h hback)
    refine ⟨l, ⟨hl, ?_, hskipped⟩, rfl⟩
    cases hp : l.preheader with
    | none => rfl
    | some p => exact absurd ((reports.entered l hl p).mp hp) (hlacks p)

theorem Reports.length_lacking {f : LoopForest} (reports : f.Reports c root) (wired : c.graph.Wired)
    (skipped : List Nat) : (f.lacking skipped).length ≤ c.blocks.length := by
  have hsubset : f.lacking skipped ⊆ c.graph.vertices.keys := fun h hh => by
    obtain ⟨⟨n, hback⟩, -⟩ := reports.mem_lacking.mp hh
    exact Table.mem_keys_iff.mpr (wired.ends n h hback.edge).2
  have hle := (reports.nodup_lacking skipped).length_le_of_subset hsubset
  unfold Table.keys at hle
  unfold blocks Table.values
  rwa [List.length_map] at hle ⊢

theorem lacking_lt {f f' : LoopForest} (reports' : f'.Reports c' root)
    {skipped skipped' : List Nat} {header : Nat} (hheader : header ∈ f.lacking skipped)
    (hgone : header ∉ f'.lacking skipped') (hsubset : f'.lacking skipped' ⊆ f.lacking skipped) :
    (f'.lacking skipped').length < (f.lacking skipped).length :=
  (List.nodup_cons.mpr ⟨hgone, reports'.nodup_lacking skipped'⟩).length_le_of_subset
    (List.cons_subset.mpr ⟨hheader, hsubset⟩)

theorem Reports.lacking_skip {f : LoopForest} (reports : f.Reports c root) (skipped : List Nat) (header : Nat) :
    header ∉ f.lacking (header :: skipped) ∧ f.lacking (header :: skipped) ⊆ f.lacking skipped := by
  refine ⟨fun h => (reports.mem_lacking.mp h).2.2 List.mem_cons_self, fun h hh => ?_⟩
  obtain ⟨hback, hlacks, hskipped⟩ := reports.mem_lacking.mp hh
  exact reports.mem_lacking.mpr ⟨hback, hlacks, fun h => hskipped (List.mem_cons_of_mem _ h)⟩

/-- Nor does a loop that is entered by a new vertex, and no other loop lacks a preheader because of it. -/
theorem Reports.lacking_insert {f f' : LoopForest} (reports : f.Reports c root) (reports' : f'.Reports c' root)
    (wired : c.graph.Wired) {l : NaturalLoop} (hl : l ∈ f.toList) {new : Nat} (skipped : List Nat)
    (bridges : Bridges c.graph c'.graph root l.header [new]
      ((c.graph.predecessorsOf l.header).filter fun b => !l.contains b))
    (hne : ((c.graph.predecessorsOf l.header).filter fun b => !l.contains b) ≠ []) :
    l.header ∉ f'.lacking skipped ∧ f'.lacking skipped ⊆ f.lacking skipped := by
  have henters := bridges.entersBy_single hne fun v hv => by
    by_cases hin : c.graph.Inside root l.header v
    · exact .inl hin
    · exact .inr ((reports.mem_outside wired hl).mpr ⟨hv, hin⟩)
  refine ⟨fun h => (reports'.mem_lacking.mp h).2.1 new henters, fun h hh => ?_⟩
  obtain ⟨⟨m, hm⟩, hnone, hskipped⟩ := reports'.mem_lacking.mp hh
  have hother : h ≠ l.header := fun heq => hnone new (heq ▸ henters)
  exact reports.mem_lacking.mpr
    ⟨⟨m, bridges.goesBack_iff.mp hm⟩, fun p hp => hnone p (bridges.entersBy hother hp), hskipped⟩

theorem exists_entry_of_ofGraph {f : LoopForest} (h : ofGraph c = .ok f) :
    ∃ root, c.entry = some root ∧ c.graph.hasVertex root = true := by
  obtain ⟨root, hroot, h⟩ := bind_eq_ok.mp h
  obtain ⟨tree, htree, -⟩ := bind_eq_ok.mp h
  obtain ⟨loops, hloops, -⟩ := bind_eq_ok.mp htree
  obtain ⟨order, horder, -⟩ := bind_eq_ok.mp hloops
  exact ⟨root, orRaise_eq_ok.mp hroot, hasVertex_of_reversePostOrder horder⟩

end LoopForest

namespace Preheader

variable (overflow : R .overflow) (phis : ∀ dst incoming, K (.phi dst incoming))

include overflow phis

theorem stops_insertAll {rounds : Nat} {skipped : List Nat} (hc : c.Coded K) {f : LoopForest}
    (hf : LoopForest.ofGraph c = .ok f) (hrounds : (f.lacking skipped).length < rounds) :
    Outcome.Stops R ((insertAll rounds skipped).run c) := by
  induction rounds generalizing c skipped f with
  | zero => exact absurd hrounds (Nat.not_lt_zero _)
  | succ rounds ih =>
    obtain ⟨root, hentry, hroot⟩ := LoopForest.exists_entry_of_ofGraph hf
    obtain ⟨f', hf', reports⟩ := LoopForest.ofGraph_total hc.wired hentry hroot
    cases hf.symm.trans hf'
    refine stops_ask_bind hc.stops_loopForest fun f' hf' => ?_
    cases hf.symm.trans hf'
    split
    · exact .answer _
    · rename_i l hfind
      have hl := List.mem_of_find?_eq_some hfind
      have hfound := List.find?_some hfind
      have hcandidate : l.header ∈ f.lacking skipped := List.mem_map_of_mem (List.mem_filter.mpr ⟨hl, hfound⟩)
      obtain ⟨⟨n, hback⟩, hlacks, hskipped⟩ := reports.mem_lacking.mp hcandidate
      refine stops_ask_bind .orRaise fun predecessors hpredecessors => ?_
      cases (hc.wired.predecessors_ok (hc.wired.ends n l.header hback.edge).2).symm.trans hpredecessors
      simp only
      split
      · obtain ⟨hgone, hsubset⟩ := reports.lacking_skip skipped l.header
        exact ih hc hf (Nat.lt_of_lt_of_le (LoopForest.lacking_lt reports hcandidate hgone hsubset)
          (Nat.le_of_lt_succ hrounds))
      · rename_i hempty
        rw [List.isEmpty_iff] at hempty
        refine stops_bind ((stays_insert overflow phis _ _).stops c hc) fun _ c' hinsert => ?_
        have hc' := (stays_insert overflow phis _ _).keeps c _ c' hc hinsert
        obtain ⟨bridges, hentry', hroot'⟩ := bridges_insert hc.wired hentry hroot
          (fun v hv => (reports.mem_outside hc.wired hl).mp hv) hempty hinsert
        obtain ⟨f', hf', reports'⟩ := LoopForest.ofGraph_total hc'.wired hentry' hroot'
        obtain ⟨hgone, hsubset⟩ := reports.lacking_insert reports' hc.wired hl skipped bridges hempty
        exact stops_bind (ih hc' hf' (Nat.lt_of_lt_of_le (LoopForest.lacking_lt reports' hcandidate hgone hsubset)
          (Nat.le_of_lt_succ hrounds))) fun _ _ _ => .answer _

theorem stays_simplify : Stays (Coded K) R simplify where
  stops c hc := by
    refine stops_bind (.answer _) fun c₀ c₁ h => ?_
    cases h
    cases hf : LoopForest.ofGraph c with
    | error e =>
      refine stops_ask_bind hc.stops_loopForest fun f h => ?_
      cases hf.symm.trans h
    | ok f =>
      obtain ⟨root, hentry, hroot⟩ := LoopForest.exists_entry_of_ofGraph hf
      obtain ⟨f', hf', reports⟩ := LoopForest.ofGraph_total hc.wired hentry hroot
      cases hf.symm.trans hf'
      exact stops_insertAll overflow phis hc hf (Nat.lt_succ_of_le (reports.length_lacking hc.wired []))
  keeps := keeps_simplify_of_insert (fun _ hc => hc.wired) fun header outside _ c c' _ u hc _ h =>
    (stays_insert overflow phis header outside).keeps c u c' hc h

end Preheader

end RegionGuard

import RegionGuard.Proofs.Counterparts
import RegionGuard.Proofs.Instrumented
import RegionGuard.Proofs.LoopRounds
set_option autoImplicit false

/-!
# In front of loops

Every way into a loop with a preheader comes from the preheader, unless the function starts in the header. What the
loop reads and does not write is defined on every way through the preheader, and a call that stands in the loop has
come by there when these values were what they are now: guards of such values may stand in the preheader.
-/

namespace RegionGuard

namespace Graph

variable {ν ε : Type} {g : Graph ν ε} {root h p u v : Nat} {w : List Nat}

/-- The last time that a way enters a loop, it does so from the block through which alone the loop is entered. -/
theorem EntersBy.passes (hp : g.EntersBy root h p) (hne : h ≠ root) (hv : g.Inside root h v) (hw : g.Way root v w) :
    ∃ newer older, w = newer ++ h :: p :: older ∧ ∀ x ∈ newer, g.Inside root h x := by
  induction hw with
  | start => exact absurd (List.mem_singleton.mp (hv.dominates _ .start)) hne
  | @follow v w l hl hedge ih =>
    have onward : g.Inside root h v → ∃ newer older, w :: l = newer ++ h :: p :: older ∧ ∀ x ∈ newer, g.Inside root h x :=
      fun hinside => by
        obtain ⟨newer, older, rfl, hnewer⟩ := ih hinside
        exact ⟨w :: newer, older, rfl, List.forall_mem_cons.mpr ⟨hv, hnewer⟩⟩
    by_cases hheader : w = h
    · subst hheader
      rcases hp.only v hedge with hinside | rfl
      · exact onward hinside
      · cases hl with
        | start => exact ⟨[], [], rfl, fun _ hx => (List.not_mem_nil hx).elim⟩
        | follow _ _ => exact ⟨[], _, rfl, fun _ hx => (List.not_mem_nil hx).elim⟩
    · exact onward (.ahead hv hheader hedge ⟨l, hl⟩)

/-- What dominates a vertex of a loop from outside stands on every way through which the loop is entered. -/
theorem EntersBy.dominates (hp : g.EntersBy root h p) (hne : h ≠ root) (hv : g.Inside root h v)
    (hu : g.Dominates root u v) (houtside : ¬ g.Inside root h u) (hreached : g.IsReached root v) :
    g.Dominates root u p := by
  intro way hway
  obtain ⟨w, hw⟩ := hreached
  obtain ⟨newer, older, rfl, hnewer⟩ := hp.passes hne hv hw
  rcases List.mem_append.mp (hu _ (hw.graft (hway.follow hp.edge))) with hmem | hmem
  · exact absurd (hnewer u hmem) houtside
  · rcases List.mem_cons.mp hmem with rfl | hmem
    · exact absurd .header houtside
    · exact hmem

end Graph

open RegionGuard.Graph

variable {c : FlowGraph} {d : DefUse} {root pre : Nat} {forest : LoopForest} {l : NaturalLoop} {f : Function} {v : Variable}

theorem LoopForest.exists_of_loop? (h : ofGraph c = .ok forest) : ∃ entry tree, c.entryIndex = .ok entry ∧
    c.graph.loopTree entry = .ok tree ∧ ∀ k l, forest.loop? k = some l →
      ∃ x ∈ tree.vertices.values, x.header = k ∧ l.header = x.header ∧ l.blocks = x.nodes ∧
        ∃ parents, tree.predecessorIndices x.header = .ok parents ∧ l.parent = parents.head? := by
  obtain ⟨entry, hentry, h⟩ := bind_eq_ok.mp h
  obtain ⟨tree, htree, h⟩ := bind_eq_ok.mp h
  obtain ⟨described, hdescribed, h⟩ := bind_eq_ok.mp h
  cases h
  refine ⟨entry, tree, hentry, htree, fun k l hl => ?_⟩
  rw [loop?, Table.get?_map_keyed] at hl
  obtain ⟨y, hy, rfl⟩ := Option.map_eq_some_iff.mp hl
  obtain ⟨rfl, hmem⟩ := get?_ofList hy
  obtain ⟨x, hx, hof⟩ := exists_of_mem_mapM hdescribed hmem
  obtain ⟨predecessors, -, hof⟩ := bind_eq_ok.mp hof
  obtain ⟨preheader, -, hof⟩ := bind_eq_ok.mp hof
  obtain ⟨exiting, -, hof⟩ := bind_eq_ok.mp hof
  obtain ⟨parents, hparents, hof⟩ := bind_eq_ok.mp hof
  cases hof
  exact ⟨x, hx, rfl, rfl, rfl, parents, hparents, rfl⟩

theorem LoopForest.contains_of_parent (wired : c.graph.Wired) (hentry : c.entry = some root)
    (hroot : c.graph.hasVertex root) (hforest : ofGraph c = .ok forest) (hl : l ∈ forest.toList) {outer : NaturalLoop}
    (houter : l.parent.bind forest.loop? = some outer) : outer.contains l.header = true := by
  obtain ⟨h, hparent, houter⟩ := Option.bind_eq_some_iff.mp houter
  obtain ⟨entry, tree, he, htree, described⟩ := exists_of_loop? hforest
  cases hentry.symm.trans (orRaise_eq_ok.mp he)
  obtain ⟨loops, tree', htree', trees, distinct, -⟩ := wired.loopTree_ok hroot
  cases htree.symm.trans htree'
  obtain ⟨inner, -, -, hheader, -, parents, hparents, hhead⟩ := described _ l (ofGraph_ok hforest hl).1
  obtain ⟨y, hy, hyheader, -, hblocks, -⟩ := described h outer houter
  obtain ⟨k, hk⟩ := Table.mem_values_iff.mp hy
  have hmem : h ∈ tree.predecessorsOf inner.header := by
    rw [Graph.predecessorsOf_of_ok hparents]
    exact List.mem_of_head? (hhead ▸ hparent)
  obtain ⟨z, hz, hzheader, hcontains⟩ := trees.nested h inner.header ((trees.wired.predecessors _ _).mp hmem)
  obtain rfl : z = y :=
    List.inj_on_of_nodup_map distinct hz ((trees.vertices _ _).mp hk).1 (hzheader.trans hyheader.symm)
  unfold NaturalLoop.contains
  rw [hheader, hblocks]
  exact hcontains

theorem LoopForest.contains_of_nest (wired : c.graph.Wired) (hentry : c.entry = some root) (hroot : c.graph.hasVertex root)
    (hforest : ofGraph c = .ok forest) {block : Nat} (hl : l ∈ forest.nest block) : l.contains block = true := by
  have outward : ∀ steps start, (∀ x ∈ start, x ∈ forest.toList ∧ x.contains block = true) →
      ∀ x ∈ forest.outward steps start, x.contains block = true := by
    intro steps
    induction steps with
    | zero => exact fun _ _ _ hx => (List.not_mem_nil hx).elim
    | succ steps ih =>
      intro start hstart x hx
      cases start with
      | none => exact (List.not_mem_nil hx).elim
      | some y =>
        obtain ⟨hy, hcontains⟩ := hstart y rfl
        rcases List.mem_cons.mp hx with rfl | hx
        · exact hcontains
        · refine ih _ (fun z hz => ?_) x hx
          obtain ⟨h, -, hloop⟩ := Option.bind_eq_some_iff.mp hz
          have hz' := mem_of_loop? hloop
          have holds := fun {n : NaturalLoop} (hn : n ∈ forest.toList) =>
            (LoopForest.outlines wired hentry hroot hforest hn).holds
          refine ⟨hz', (holds hz' _).mpr (.trans wired ?_ ((holds hy _).mp hcontains))⟩
          exact (holds hz' _).mp (contains_of_parent wired hentry hroot hforest hy hz)
  refine outward _ _ (fun x hx => ?_) l hl
  obtain ⟨hmem, hcontains⟩ := List.mem_filter.mp (mem_of_deepest? hx)
  exact ⟨hmem, hcontains⟩

/-- A guard is hoisted in front of a loop around its access: one in which the pointer does not change, or the innermost
one. -/
theorem LoopForest.loop_of_hoists (wired : c.graph.Wired) (hentry : c.entry = some root) (hroot : c.graph.hasVertex root)
    (hbody : f.body = some c) (hdefinitions : DefUse.ofFunction f = .ok d) (hforest : ofGraph c = .ok forest) {x : Safety}
    {decisions : List GuardDecision} (hdecisions : x.decideAccesses f = .ok decisions) {δ : GuardDecision}
    (hδ : δ ∈ decisions) (hrule : δ.rule.Hoists) :
    ∃ l ∈ forest.toList, ∃ pre, l.preheader = some pre ∧ δ.placement = .preheader l.header pre ∧
      l.contains δ.location.block = true ∧
      (δ.rule = .invariantHoist ∧ δ.shape = .single ∧ l.isInvariant d δ.pointer = true ∨
        δ.rule = .inductionHoist ∧ ∃ plan, δ.shape = .range plan) := by
  obtain ⟨facts, custody, body, forest', a, hfacts, hbody', hforest', -, hdecide⟩ := Safety.exists_placer hdecisions hδ
  cases hbody.symm.trans hbody'
  cases hforest.symm.trans hforest'
  obtain ⟨d', hd', hfacts⟩ := bind_eq_ok.mp hfacts
  cases hdefinitions.symm.trans hd'
  obtain ⟨_, -, hfacts⟩ := bind_eq_ok.mp hfacts
  obtain ⟨_, -, hfacts⟩ := bind_eq_ok.mp hfacts
  cases hfacts
  obtain ⟨-, hlocation, hpointer, -, hruling⟩ := Placer.decide_ok hdecide
  have hhoist := (Placer.ruling_cases hruling).resolve_left fun ⟨_, heq, _⟩ => by
    rw [heq] at hrule
    rcases hrule with hrule | hrule <;> cases hrule
  have hhoist := (hhoist.resolve_right fun ⟨heq, _⟩ => by
    rw [heq] at hrule
    rcases hrule with hrule | hrule <;> cases hrule).2
  rw [hlocation, hpointer]
  obtain ⟨l, pre, hpre, hplacement, hhoists⟩ := Placer.hoists_of_hoist? hhoist
  generalize δ.rule = rule at hhoists ⊢
  generalize δ.shape = shape at hhoists ⊢
  cases hhoists with
  | invariant hnest hinvariant =>
    exact ⟨l, mem_of_nest hnest, pre, hpre, hplacement, contains_of_nest wired hentry hroot hforest hnest,
      .inl ⟨rfl, rfl, hinvariant⟩⟩
  | induction plan hinnermost =>
    exact ⟨l, mem_of_innermost? hinnermost, pre, hpre, hplacement, (List.mem_filter.mp (mem_of_deepest? hinnermost)).2,
      .inr ⟨rfl, plan, rfl⟩⟩

/-- A loop reads a variable in an instruction, in a phi for a block that control gets to, or where an edge leaves a
block. -/
inductive NaturalLoop.Reads (c : FlowGraph) (root : Nat) (l : NaturalLoop) (v : Variable) : Prop where
  | operand {k : Nat} {b : Block} {i : Instruction} (inside : l.contains k = true) (block : c.block k = .ok b)
    (mem : i ∈ b.instructions) (notPhi : i.operation.isPhi = false) (reads : .variable v ∈ i.operation.reads)
  | phi {k j : Nat} {b : Block} {i : Instruction} {dst : Variable} {incoming : List (Value × Nat)}
    (inside : l.contains k = true) (block : c.block k = .ok b) (mem : i ∈ b.instructions)
    (operation : i.operation = .phi dst incoming) (arriving : (.variable v, j) ∈ incoming) (reached : c.graph.IsReached root j)
  | condition {j k : Nat} {e : Edge} {x : Condition} (inside : l.contains j = true)
    (edge : c.graph.edges.get? (j, k) = some e) (conditional : e.condition = some x) (value : x.value = .variable v)

/-- A verified function with its loops, in order also where verification does not look. -/
structure Function.Looped (p : Program) (f : Function) (c : FlowGraph) (d : DefUse) (root : Nat) (forest : LoopForest) :
    Prop where
  body : f.body = some c
  made : c.Made
  verified : p.verifyFunction f = .ok ()
  disciplined : f.Disciplined c root
  entry : c.entry = some root
  definitions : DefUse.ofFunction f = .ok d
  loops : LoopForest.ofGraph c = .ok forest

/-- A call has stood in front of the rest of a block on its journey, and everything that has been written neither by
that rest nor in a loop was what it is now. -/
def Journey.Passes (d : DefUse) (l : NaturalLoop) (j : Journey) (block : Nat) (rest : List Instruction) (a : Activation) :
    Prop :=
  ∃ a₀ ∈ j, a₀.body = a.body ∧ a₀.block = block ∧ a₀.remaining = rest ∧
    ∀ v, d.WrittenOutside (fun place => l.contains place.block = true ∨ ∃ i ∈ rest, place = ⟨block, i.index⟩) v →
      ∀ m, a₀.value m v = a.value m v

/-- The code at the end of a block, behind its phis. -/
structure FlowGraph.Closes (c : FlowGraph) (block : Nat) (rest : List Instruction) : Prop where
  ends : ∃ b, c.block block = .ok b ∧ rest <:+ b.instructions
  past : ∀ i ∈ rest, i.operation.isPhi = false

variable {a a' : Activation} {j j' : Journey} {front rest : List Instruction} {m : Machine}

theorem Journey.Passes.onward (h : j.Passes d l pre rest a) (hj : j ⊆ j') (hbody : a'.body = a.body) {P : Location → Prop}
    (hsame : ∀ v, d.WrittenOutside P v → ∀ n, a'.value n v = a.value n v)
    (hP : ∀ place, P place → l.contains place.block = true ∨ ∃ i ∈ rest, place = ⟨pre, i.index⟩) :
    j'.Passes d l pre rest a' := by
  obtain ⟨a₀, ha₀, hbody₀, hblock, hrest, hvalues⟩ := h
  exact ⟨a₀, hj ha₀, hbody₀.trans hbody.symm, hblock, hrest, fun v hv n =>
    (hvalues v hv n).trans (hsame v (hv.mono hP) n).symm⟩

theorem Journey.Passes.here (hblock : a.block = pre) (hrest : a.remaining = rest) (ha : a ∈ j) : j.Passes d l pre rest a :=
  ⟨a, ha, rfl, hblock, hrest, fun _ _ _ => rfl⟩

namespace Activation

theorem Stands.eq_of_closes (h : a.Stands c root front) (hfront : ∀ i ∈ front, i.operation.isPhi = true)
    (hrest : c.Closes a.block rest) (hsuffix : a.remaining <:+ rest) : a.remaining = rest := by
  obtain ⟨b, hb, hinstructions⟩ := h.block
  obtain ⟨⟨b', hb', before, hbefore⟩, hpast⟩ := hrest
  cases hb.symm.trans hb'
  obtain ⟨between, rfl⟩ := hsuffix
  rw [hinstructions, ← List.append_assoc] at hbefore
  have hfront' := List.append_cancel_right hbefore
  cases between with
  | nil => rfl
  | cons i between =>
    have hphi := hfront i (hfront' ▸ List.mem_append_right _ List.mem_cons_self)
    rw [hpast i List.mem_cons_self] at hphi
    cases hphi

structure ComesBy (c : FlowGraph) (d : DefUse) (root : Nat) (l : NaturalLoop) (pre : Nat) (a : Activation) (j : Journey) :
    Prop where
  stands : ∃ front, a.Stands c root front
  approaches : a.block = pre → ∀ rest, c.Closes pre rest → a.remaining <:+ rest → Journey.Passes d l (a :: j) pre rest a
  inside : l.contains a.block = true → ∀ rest, c.Closes pre rest → j.Passes d l pre rest a

theorem ComesBy.performs (h : a.ComesBy c d root l pre j) (hsound : f.Sound c d root) {i : Instruction}
    {rest : List Instruction} (hnext : a.remaining = i :: rest)
    (hperforms : Performs m { a with remaining := rest } i.operation a') : a'.ComesBy c d root l pre (a :: j) := by
  obtain ⟨front, hstands⟩ := h.stands
  obtain ⟨hstands', hblock, hsame⟩ := hstands.performs hsound.named hnext hperforms
  have hbody : a'.body = a.body := hstands'.body.trans hstands.body.symm
  have hremaining : a'.remaining = rest := by
    obtain ⟨scalars, hfixed⟩ := hperforms.assigns.fixed
    rw [hfixed]
    rfl
  refine ⟨⟨_, hstands'⟩, fun hpre whole hcloses hsuffix => ?_, fun hin whole hcloses => ?_⟩
  · by_cases heq : a'.remaining = whole
    · exact .here hpre heq List.mem_cons_self
    · -- The instruction itself is part of what is longer than that which it leaves.
      have hlonger : a.remaining <:+ whole := by
        obtain ⟨b, hb, hinstructions⟩ := hstands.block
        obtain ⟨b', hb', hwhole⟩ := hcloses.ends
        rw [← hpre, hblock] at hb'
        cases hb.symm.trans hb'
        refine List.suffix_of_suffix_length_le ⟨front, hinstructions.symm⟩ hwhole ?_
        have hlength := Nat.lt_of_le_of_ne hsuffix.length_le fun hlength => heq (hsuffix.eq_of_length hlength)
        rw [hremaining] at hlength
        rw [hnext]
        exact hlength
      refine Journey.Passes.onward (h.approaches (hblock.symm.trans hpre) whole hcloses hlonger) (List.subset_cons_self ..) hbody
        hsame fun place hplace => .inr ⟨i, hlonger.subset (hnext ▸ List.mem_cons_self), ?_⟩
      rw [hplace, ← hpre, hblock]
  · refine Journey.Passes.onward (h.inside (hblock ▸ hin) whole hcloses) (List.subset_cons_self ..) hbody hsame
      fun place hplace => .inl ?_
    rw [hplace, ← hblock]
    exact hin

/-- Control comes into a loop with the whole preheader behind it. -/
theorem ComesBy.goesOn (h : a.ComesBy c d root l pre j) (hsound : f.Sound c d root) (outlines : l.Outlines c root)
    (hpre : c.graph.EntersBy root l.header pre) (ended : a.remaining = []) (hnext : a.nextBlock m = .ok a') :
    a'.ComesBy c d root l pre (a :: j) := by
  obtain ⟨front, hstands⟩ := h.stands
  obtain ⟨x, e, hx, hstands', hedge, -, hsame⟩ := hstands.goesOn hsound.named hnext
  have hbody : a'.body = a.body := hstands'.body.trans hstands.body.symm
  have hedge : (c.graph.edges.get? (a.block, a'.block)).isSome := by rw [hedge]; rfl
  refine ⟨⟨_, hstands'⟩, fun hblock whole hcloses hsuffix => ?_, fun hin whole hcloses => ?_⟩
  · exact .here hblock (hstands'.eq_of_closes (fun i hi => isPhi_of_leading hi) (hblock ▸ hcloses) hsuffix)
      List.mem_cons_self
  · have hinside : ∀ place : Location, place.block = a'.block →
        l.contains place.block = true ∨ ∃ i ∈ whole, place = ⟨pre, i.index⟩ := fun place hplace => .inl (hplace ▸ hin)
    by_cases hfrom : l.contains a.block = true
    · exact Journey.Passes.onward (h.inside hfrom whole hcloses) (List.subset_cons_self ..) hbody hsame hinside
    · have hheader : a'.block = l.header := by
        by_contra hne
        exact hfrom (outlines.from_inside hin hne hedge hstands.reached)
      have hblock : a.block = pre :=
        (hpre.only a.block (hheader ▸ hedge)).resolve_left fun hinside => hfrom ((outlines.holds _).mpr hinside)
      exact Journey.Passes.onward (h.approaches hblock whole hcloses (ended ▸ List.nil_suffix)) (List.Subset.refl _) hbody hsame
        hinside

/-- Calls come by the preheader before they stand in the loop. -/
theorem course_comesBy (hsound : f.Sound c d root) (outlines : l.Outlines c root)
    (hpre : c.graph.EntersBy root l.header pre) (hne : l.header ≠ root) (x : Image) :
    Course x fun a j => a.body = c → a.ComesBy c d root l pre j where
  starts {m body entry constants w r a} _ hentry ha hbody := by
    obtain ⟨y, scalars, -, heq⟩ := enterBlock_ok ha
    have hbody : body = c := by
      rw [heq] at hbody
      exact hbody
    subst hbody
    cases hsound.starts.symm.trans hentry
    obtain ⟨hstands, hblock⟩ := stands_of_start hsound.named ha
    refine ⟨⟨[], hstands⟩, fun hblock' rest hcloses hsuffix => ?_, fun hin => ?_⟩
    · exact .here hblock' (hstands.eq_of_closes (fun _ hi => (List.not_mem_nil hi).elim) (hblock' ▸ hcloses) hsuffix)
        List.mem_cons_self
    · rw [hblock] at hin
      exact absurd (List.mem_singleton.mp (((outlines.holds root).mp hin).dominates _ .start)) hne
  goesOn {m a a' j} _ ha ended hnext hbody := by
    refine (ha ?_).goesOn hsound outlines hpre ended hnext
    rw [nextBlock_eq] at hnext
    obtain ⟨target, -, hnext⟩ := bind_eq_ok.mp hnext
    obtain ⟨y, scalars, -, rfl⟩ := enterBlock_ok hnext
    exact hbody
  performs {m a i rest a' j} _ ha hnext hperforms hbody := by
    refine (ha ?_).performs hsound hnext hperforms
    obtain ⟨scalars, hfixed⟩ := hperforms.assigns.fixed
    rw [hfixed] at hbody
    exact hbody

end Activation

namespace Function.Looped

variable {p : Program}

theorem sound (h : f.Looped p c d root forest) : f.Sound c d root := by
  obtain ⟨d', entry, verified⟩ := Program.verified_of_verifyFunction h.body h.made.built h.made.numbered.addressable h.verified
  cases h.entry.symm.trans verified.starts
  cases h.definitions.symm.trans verified.definitions
  exact ⟨verified, h.disciplined⟩

theorem outlines (h : f.Looped p c d root forest) (hl : l ∈ forest.toList) : l.Outlines c root :=
  LoopForest.outlines h.made.wired h.entry h.sound.vertex h.loops hl

theorem entersBy (h : f.Looped p c d root forest) (hl : l ∈ forest.toList) (hpre : l.preheader = some pre) :
    c.graph.EntersBy root l.header pre := by
  obtain ⟨forest', hforest, reports⟩ := LoopForest.ofGraph_total h.made.wired h.entry h.sound.vertex
  cases h.loops.symm.trans hforest
  exact (reports.entered l hl pre).mp hpre

theorem reached (h : f.Looped p c d root forest) (hl : l ∈ forest.toList) {k : Nat} (hk : l.contains k = true) :
    c.graph.IsReached root k := by
  cases ((h.outlines hl).holds k).mp hk with
  | header =>
    obtain ⟨forest', hforest, reports⟩ := LoopForest.ofGraph_total h.made.wired h.entry h.sound.vertex
    cases h.loops.symm.trans hforest
    obtain ⟨n, hback⟩ := reports.latched l hl
    exact hback.reached.follow hback.edge
  | latch hback => exact hback.reached
  | ahead _ _ _ hreached => exact hreached

theorem dominates_of_reads (h : f.Looped p c d root forest) (hl : l ∈ forest.toList) (hpre : l.preheader = some pre)
    (hne : l.header ≠ root) (hreads : l.Reads c root v) (hinvariant : l.isInvariant d (.variable v) = true) :
    ∃ place, d.definition? v = some place ∧ c.graph.Dominates root place.block pre := by
  have hsound := h.sound
  have holds := (h.outlines hl).holds
  have henters := h.entersBy hl hpre
  obtain ⟨place, hplace, houtside⟩ := NaturalLoop.writtenOutside_of_isInvariant hinvariant v rfl
  have houtside : ¬ c.graph.Inside root l.header place.block := fun hinside => houtside ((holds _).mpr hinside)
  refine ⟨place, hplace, ?_⟩
  have from_inside : ∀ {k n : Nat}, l.contains k = true → c.Available root place k n →
      c.graph.Dominates root place.block pre := fun {k n} hk havailable => by
    unfold FlowGraph.Available at havailable
    have hne' : place.block ≠ k := fun heq => houtside (heq ▸ (holds k).mp hk)
    rw [if_neg hne'] at havailable
    exact henters.dominates hne ((holds k).mp hk) havailable houtside (h.reached hl hk)
  cases hreads with
  | operand inside block mem notPhi reads =>
    obtain ⟨n, hn⟩ := List.getElem?_of_mem mem
    obtain ⟨place', hplace', havailable⟩ := hsound.reads _ _ n _ block hn notPhi v reads
    cases hplace.symm.trans hplace'
    exact from_inside inside (havailable (h.reached hl inside))
  | @phi k j b i dst incoming inside block mem operation arriving reached =>
    obtain ⟨place', b', hplace', -, havailable⟩ := hsound.incoming k b i dst incoming block mem operation v j arriving
    cases hplace.symm.trans hplace'
    have havailable := havailable reached
    have hedge := (hsound.built.wired.predecessors _ _).mp (hsound.arriving k b i dst incoming block mem operation _ arriving)
    by_cases hj : l.contains j = true
    · exact from_inside hj havailable
    · -- The phi takes the value over from the preheader.
      have hheader : k = l.header := by
        by_contra hne
        exact hj ((h.outlines hl).from_inside inside hne hedge reached)
      obtain rfl := (henters.only j (hheader ▸ hedge)).resolve_left fun hinside => hj ((holds j).mpr hinside)
      unfold FlowGraph.Available at havailable
      split at havailable
      · rename_i heq
        exact heq ▸ fun _ hway => hway.self_mem
      · exact havailable
  | @condition j k e x inside edge conditional value =>
    obtain ⟨place', i, b, hi, hwritten, -, havailable⟩ := hsound.disciplined.conditions j k e edge x conditional v value
    cases hplace.symm.trans ((DefUse.definition?_eq_some hsound.definitions).mpr ⟨i, hi, hwritten⟩)
    exact from_inside inside havailable

theorem loop_of_invariantHoist (h : f.Looped p c d root forest) {x : Safety} {decisions : List GuardDecision}
    (hdecisions : x.decideAccesses f = .ok decisions) {δ : GuardDecision} (hδ : δ ∈ decisions)
    (hrule : δ.rule = .invariantHoist) : ∃ l ∈ forest.toList, ∃ pre, l.preheader = some pre ∧
      δ.placement = .preheader l.header pre ∧ l.contains δ.location.block = true ∧ l.isInvariant d δ.pointer = true ∧
      δ.shape = .single := by
  obtain ⟨l, hl, pre, hpre, hplacement, hin, ⟨-, hshape, hinvariant⟩ | ⟨heq, -⟩⟩ := LoopForest.loop_of_hoists
    h.made.wired h.entry h.sound.vertex h.body h.definitions h.loops hdecisions hδ (.inl hrule)
  · exact ⟨l, hl, pre, hpre, hplacement, hin, hinvariant, hshape⟩
  · rw [hrule] at heq
    cases heq

open Processor in
/-- Every way into a loop comes from its preheader, and what the loop reads and does not write is defined on every way
to the end of the preheader: unless the function starts in the header. A call in the loop has come by all the code of
the preheader, when what the loop does not write was what it is now. So guards that are moved out of a loop run before
every access that they stand for, and guard the pointer that the access uses. -/
theorem hoisted_guards_precede {t : Task} (h : f.Looped t.program c d root forest) :
    (∀ l ∈ forest.toList, ∀ pre, l.preheader = some pre → l.header ≠ root →
      (∀ k w, l.contains k = true → c.graph.Way root k w →
        ∃ newer older, w = newer ++ l.header :: pre :: older ∧ ∀ x ∈ newer, l.contains x = true) ∧
      (∀ v, l.Reads c root v → l.isInvariant d (.variable v) = true →
        ∃ place, d.definition? v = some place ∧ c.graph.Dominates root place.block pre) ∧
      ∀ function arguments s₀ steps s a callers, Comes t function arguments s₀ steps s → s.calls = a :: callers →
        a.body = c → l.contains a.block = true → ∃ j rest, journeys t steps s₀ [[]] = j :: rest ∧
          ∀ code, c.Closes pre code → j.Passes d l pre code a) ∧
    ∀ (x : Safety) decisions δ, x.decideAccesses f = .ok decisions → δ ∈ decisions → δ.rule = .invariantHoist →
      δ.shape = .single ∧ ∃ l ∈ forest.toList, ∃ pre, l.preheader = some pre ∧
        δ.placement = .preheader l.header pre ∧ l.contains δ.location.block = true ∧ l.isInvariant d δ.pointer = true ∧
        (l.header ≠ root → ∀ function arguments s₀ steps s a callers, Comes t function arguments s₀ steps s →
          s.calls = a :: callers → a.body = c → a.block = δ.location.block →
          ∃ j rest, journeys t steps s₀ [[]] = j :: rest ∧ ∃ a₀ ∈ j, a₀.body = c ∧ a₀.block = pre ∧
            a₀.remaining = [] ∧ ∀ m, a₀.value m δ.pointer = a.value m δ.pointer) := by
  have hsound := h.sound
  have runs : ∀ l ∈ forest.toList, ∀ pre, l.preheader = some pre → l.header ≠ root →
      ∀ function arguments s₀ steps s a callers, Comes t function arguments s₀ steps s → s.calls = a :: callers →
        a.body = c → l.contains a.block = true → ∃ j rest, journeys t steps s₀ [[]] = j :: rest ∧
          ∀ code, c.Closes pre code → j.Passes d l pre code a := by
    intro l hl pre hpre hne function arguments s₀ steps s a callers hcomes hcalls hbody hin
    obtain ⟨j, rest, hjourneys, hcomesBy, -⟩ := hcomes.upholds
      (Activation.course_comesBy hsound (h.outlines hl) (h.entersBy hl hpre) hne _) a callers hcalls
    exact ⟨j, rest, hjourneys, (hcomesBy hbody).inside hin⟩
  refine ⟨fun l hl pre hpre hne => ⟨fun k w hk hw => ?_, fun v hreads hinvariant =>
    h.dominates_of_reads hl hpre hne hreads hinvariant, runs l hl pre hpre hne⟩, fun x decisions δ hdecisions hδ hrule => ?_⟩
  · have holds := (h.outlines hl).holds
    obtain ⟨newer, older, rfl, hnewer⟩ := (h.entersBy hl hpre).passes hne ((holds k).mp hk) hw
    exact ⟨newer, older, rfl, fun y hy => (holds y).mpr (hnewer y hy)⟩
  · obtain ⟨l, hl, pre, hpre, hplacement, hin, hinvariant, hshape⟩ := h.loop_of_invariantHoist hdecisions hδ hrule
    refine ⟨hshape, l, hl, pre, hpre, hplacement, hin, hinvariant, ?_⟩
    intro hne function arguments s₀ steps s a callers hcomes hcalls hbody hblock
    obtain ⟨j, rest, hjourneys, hpasses⟩ :=
      runs l hl pre hpre hne function arguments s₀ steps s a callers hcomes hcalls hbody (hblock ▸ hin)
    obtain ⟨b, hb⟩ := Option.isSome_iff_exists.mp (h.made.wired.ends pre l.header (h.entersBy hl hpre).edge).1
    obtain ⟨a₀, ha₀, hbody₀, hblock₀, hrest, hvalues⟩ :=
      hpasses [] ⟨⟨b, FlowGraph.block_eq_ok.mpr hb, List.nil_suffix⟩, fun _ hi => (List.not_mem_nil hi).elim⟩
    refine ⟨j, rest, hjourneys, a₀, ha₀, hbody₀.trans hbody, hblock₀, hrest, hvalues _ ?_⟩
    refine (NaturalLoop.writtenOutside_of_isInvariant hinvariant).mono fun place hplace => ?_
    exact hplace.resolve_right fun ⟨_, hi, _⟩ => List.not_mem_nil hi

end Function.Looped

def Program.looped? (p : Program) : Option (Function × FlowGraph × DefUse × Nat × LoopForest) := do
  let f ← p.function? "main"
  let c ← f.body
  guard (p.verifyFunction f = .ok ())
  let root ← c.entry
  let d ← (DefUse.ofFunction f).toOption
  let forest ← (LoopForest.ofGraph c).toOption
  return (f, c, d, root, forest)

theorem Program.looped_of_looped? {p : Program} (made : p.Made) (disciplined : p.Disciplined)
    (h : p.looped? = some (f, c, d, root, forest)) : f.Looped p c d root forest := by
  obtain ⟨f, hf, h⟩ := Option.bind_eq_some_iff.mp h
  obtain ⟨c, hc, h⟩ := Option.bind_eq_some_iff.mp h
  obtain ⟨_, hverified, h⟩ := Option.bind_eq_some_iff.mp h
  obtain ⟨root, hroot, h⟩ := Option.bind_eq_some_iff.mp h
  obtain ⟨d, hd, h⟩ := Option.bind_eq_some_iff.mp h
  obtain ⟨forest, hforest, h⟩ := Option.bind_eq_some_iff.mp h
  cases h
  exact ⟨hc, made.body hf c hc, of_guard hverified, disciplined "main" f c root (orRaise_eq_ok.mpr hf) hc hroot, hroot,
    toOption_eq_some.mp hd, toOption_eq_some.mp hforest⟩

def Task.comes? (t : Task) (arguments : List Word) (steps : Nat) : Option (Processor × Processor × Activation) := do
  let m ← (Machine.ofProgram t.program .keyed).toOption
  let start := (Processor.start t "main" arguments).runFrom (.ofMachine m)
  guard (start.1 = .ok ())
  let s ← Processor.after t steps start.2
  let a ← s.calls.head?
  return (start.2, s, a)

theorem Task.comes_of_comes? {t : Task} {arguments : List Word} {steps : Nat} {s₀ s : Processor} {a : Activation}
    (h : t.comes? arguments steps = some (s₀, s, a)) :
    Processor.Comes t "main" arguments s₀ steps s ∧ ∃ callers, s.calls = a :: callers := by
  obtain ⟨m, hm, h⟩ := Option.bind_eq_some_iff.mp h
  obtain ⟨_, hstart, h⟩ := Option.bind_eq_some_iff.mp h
  obtain ⟨s, hafter, h⟩ := Option.bind_eq_some_iff.mp h
  obtain ⟨a, ha, h⟩ := Option.bind_eq_some_iff.mp h
  cases h
  exact ⟨⟨⟨.keyed, m, toOption_eq_some.mp hm, Prod.ext (of_guard hstart) rfl⟩, hafter⟩, List.head?_eq_some_iff.mp ha⟩

def Program.moved (p : Program) (f : Function) : List GuardDecision :=
  ((Safety.decideAccesses ⟨p, .ofProgram p, .default⟩ f).toOption.getD []).filter (·.rule = .invariantHoist)

theorem Program.decided_of_moved {p : Program} {δ : GuardDecision} (h : δ ∈ p.moved f) :
    ∃ (x : Safety) (decisions : List GuardDecision), x.decideAccesses f = .ok decisions ∧ δ ∈ decisions ∧
      δ.rule = .invariantHoist := by
  obtain ⟨hδ, hrule⟩ := List.mem_filter.mp h
  cases hdecided : (Safety.decideAccesses ⟨p, .ofProgram p, .default⟩ f).toOption with
  | none =>
    rw [hdecided] at hδ
    exact (List.not_mem_nil hδ).elim
  | some decisions =>
    rw [hdecided] at hδ
    exact ⟨_, decisions, toOption_eq_some.mp hdecided, hδ, of_decide_eq_true hrule⟩

def storesInNest : Program :=
  let word (v : String) : Variable := ⟨v, .integer 64⟩
  let counter (v next : String) (pre latch : Nat) : Operation :=
    .phi (word v) [(.ofWord 0 64, pre), (.variable (word next), latch)]
  let advance (v next : String) : Operation := .binary (word next) .add (.variable (word v)) (.ofWord 1 64)
  let test (dst next : String) : Operation := .compare ⟨dst, .integer 1⟩ .ult (.variable (word next)) (.ofWord 2 64)
  .ofFunctions [
    .ofCode "main" []
      [[.cast ⟨"p", .pointer⟩ .intToPtr (.ofWord 0x40000000 64)],
        [counter "i" "i'" 0 4],
        [counter "j" "j'" 1 3],
        [.store (.variable ⟨"p", .pointer⟩) (.ofWord 7 8), advance "j" "j'", test "more" "j'"],
        [advance "i" "i'", test "again" "i'"],
        [.ret none]]
      ([(0, 1, none), (1, 2, none), (2, 3, none)] ++ LoopBound.branch 3 "more" 2 4 ++ LoopBound.branch 4 "again" 1 5)]

/-- A guard for the inner of two loops stands in front of the outer one, and in the second round of that the pointer is
still what it was there. -/
theorem hoisted_guards_precede_in_nest :
    ∃ t f c d root forest, f.Looped t.program c d root forest ∧
      ∃ (x : Safety) (decisions : List GuardDecision) (δ : GuardDecision), x.decideAccesses f = .ok decisions ∧
        δ ∈ decisions ∧ δ.rule = .invariantHoist ∧ ∃ l ∈ forest.toList, ∃ pre, l.preheader = some pre ∧
          δ.placement = .preheader l.header pre ∧ l.header ≠ root ∧ ∃ s₀ s a callers,
            Processor.Comes t "main" [] s₀ 18 s ∧ s.calls = a :: callers ∧ a.body = c ∧ a.block = δ.location.block ∧
            ∃ j rest, Processor.journeys t 18 s₀ [[]] = j :: rest ∧ ∃ a₀ ∈ j, a₀.body = c ∧ a₀.block = pre ∧
              a₀.remaining = [] ∧ ∀ m, a₀.value m δ.pointer = a.value m δ.pointer := by
  have made : storesInNest.Made := Program.made_of_ofFunctions fun f hf => by
    cases List.mem_singleton.mp hf
    exact Function.made_of_ofCode
  have disciplined : storesInNest.Disciplined := Program.disciplined_of_own made (by decide +kernel)
  have hall : storesInNest.looped?.any fun x => (storesInNest.moved x.1).any fun δ =>
      δ.placement = .preheader 1 0 ∧ x.2.2.2.1 = 0 ∧
        ((⟨storesInNest, .fixed, Processor.defaultStepLimit⟩ : Task).comes? [] 18).any fun y =>
          y.2.2.body = x.2.1 ∧ y.2.2.block = δ.location.block := by
    decide +kernel
  obtain ⟨⟨f, c, d, root, forest⟩, hlooped, hall⟩ := (Option.any_eq_true ..).mp hall
  obtain ⟨δ, hδ, hall⟩ := List.any_eq_true.mp hall
  obtain ⟨hplacement, hroot, hall⟩ := of_decide_eq_true hall
  obtain ⟨⟨s₀, s, a⟩, hcomes, hall⟩ := (Option.any_eq_true ..).mp hall
  obtain ⟨hbody, hblock⟩ := of_decide_eq_true hall
  obtain ⟨hcomes, callers, hcalls⟩ := Task.comes_of_comes? hcomes
  obtain ⟨x, decisions, hdecisions, hδ, hrule⟩ := Program.decided_of_moved hδ
  have looped := Program.looped_of_looped? made disciplined hlooped
  obtain ⟨-, l, hl, pre, hpre, hplaced, -, -, hruns⟩ :=
    (Function.Looped.hoisted_guards_precede (t := ⟨storesInNest, .fixed, Processor.defaultStepLimit⟩) looped).2
      x decisions δ hdecisions hδ hrule
  have hne : l.header ≠ root := fun heq => by
    obtain ⟨heq', -⟩ := GuardPlacement.preheader.inj (hplacement.symm.trans hplaced)
    have hroot : root = 0 := hroot
    omega
  exact ⟨_, f, c, d, root, forest, looped, x, decisions, δ, hdecisions, hδ, hrule, l, hl, pre, hpre, hplaced, hne, s₀, s,
    a, callers, hcomes, hcalls, hbody, hblock, hruns hne "main" [] s₀ 18 s a callers hcomes hcalls hbody hblock⟩

/-- A function that starts in the header of a loop, with a block beside it that leads to the header and that nothing
leads to. -/
def storesFromEntry : Program :=
  let p : Argument := ⟨0, "p", .pointer⟩
  let n : Argument := ⟨1, "n", .integer 64⟩
  .ofFunctions [
    .ofCode "main" [p, n]
      [[.store (.argument p) (.ofWord 7 8), .compare ⟨"again", .integer 1⟩ .ne (.argument n) (.ofWord 0 64)],
        [.ret none],
        []]
      (LoopBound.branch 0 "again" 0 1 ++ [(2, 0, none)])]

/-- The call of `main` with a pointer that leads nowhere, guarded in place or in front of loops. -/
def entryTrial (hoists : Bool) : Trial :=
  ⟨storesFromEntry, Configuration.default.withHoists hoists, "main", [0x40000000, 0]⟩

/-- A block that no way leads through is taken for a preheader, if the function starts in the header. A guard that is
moved there never runs. -/
theorem preheader_off_every_way :
    storesFromEntry.Made ∧ storesFromEntry.verify = .ok () ∧
      (∃ f c d forest, f.Looped storesFromEntry c d 0 forest ∧
        (∃ l ∈ forest.toList, l.preheader = some 2 ∧ l.header = 0 ∧ l.contains 0 = true ∧ c.graph.Way 0 0 [0]) ∧
        ∃ (x : Safety) (decisions : List GuardDecision) (δ : GuardDecision), x.decideAccesses f = .ok decisions ∧
          δ ∈ decisions ∧ δ.rule = .invariantHoist ∧ δ.placement = .preheader 0 2) ∧
      ∃ report₀ q₀ m₀ report₁ q₁ m₁,
        storesFromEntry.Instruments (Configuration.default.withHoists false) report₀ q₀ ∧
        storesFromEntry.Instruments (Configuration.default.withHoists true) report₁ q₁ ∧
        Machine.ofProgram q₀ .keyed = .ok m₀ ∧ Machine.ofProgram q₁ .keyed = .ok m₁ ∧
        ((Processor.run ⟨q₀, Configuration.default.withHoists false, Processor.defaultStepLimit⟩ "main"
          [0x40000000, 0]).runFrom (.ofMachine m₀)).1 = .error (.error (.violation 0x40000000 .write)) ∧
        ((Processor.run ⟨q₁, Configuration.default.withHoists true, Processor.defaultStepLimit⟩ "main"
          [0x40000000, 0]).runFrom (.ofMachine m₁)).1 = .ok none := by
  have made : storesFromEntry.Made := Program.made_of_ofFunctions fun f hf => by
    cases List.mem_singleton.mp hf
    exact Function.made_of_ofCode
  have disciplined : storesFromEntry.Disciplined := Program.disciplined_of_own made (by decide +kernel)
  have hall : storesFromEntry.looped?.any fun x => x.2.2.2.1 = 0 ∧
      (x.2.2.2.2.toList.any fun l => l.preheader = some 2 ∧ l.header = 0 ∧ l.contains 0) ∧
      (storesFromEntry.moved x.1).any fun δ => δ.placement = .preheader 0 2 := by
    decide +kernel
  have bare : (entryTrial false).answers fun _ _ r => r = .error (.error (.violation 0x40000000 .write)) := by
    decide +kernel
  have hoisted : (entryTrial true).answers fun _ _ r => r = .ok none := by decide +kernel
  obtain ⟨⟨f, c, d, root, forest⟩, hlooped, hall⟩ := (Option.any_eq_true ..).mp hall
  obtain ⟨hroot, hloop, hmoved⟩ := of_decide_eq_true hall
  obtain ⟨l, hl, hloop⟩ := List.any_eq_true.mp hloop
  obtain ⟨hpre, hheader, hin⟩ := of_decide_eq_true hloop
  obtain ⟨δ, hδ, hplacement⟩ := List.any_eq_true.mp hmoved
  obtain ⟨x, decisions, hdecisions, hmem, hrule⟩ := Program.decided_of_moved hδ
  have looped := Program.looped_of_looped? made disciplined hlooped
  obtain rfl : root = 0 := hroot
  obtain ⟨report₀, q₀, m₀, h₀, hm₀, hviolation⟩ := Trial.exists_of_answers bare
  obtain ⟨report₁, q₁, m₁, h₁, hm₁, hresult⟩ := Trial.exists_of_answers hoisted
  exact ⟨made, by decide +kernel, ⟨f, c, d, forest, looped, ⟨l, hl, hpre, hheader, hin, .start⟩, x, decisions, δ,
    hdecisions, hmem, hrule, of_decide_eq_true hplacement⟩, report₀, q₀, m₀, report₁, q₁, m₁, h₀, h₁, hm₀, hm₁,
    of_decide_eq_true hviolation, of_decide_eq_true hresult⟩

end RegionGuard

import RegionGuard.Proofs.Rerouting
set_option autoImplicit false

namespace RegionGuard

namespace GuardCode

open Drafting

variable {m : Margin} {n : Nat}

theorem adds_compute {ty : Ty} {operation : Variable → Operation}
    (h : ∀ dst, (operation dst).computes? = some dst) : Adds n (·.Computes n) (compute ty operation) :=
  Adds.compute fun _ hk => ⟨_, h _, Variable.isUpcoming_temporary.mpr hk⟩

theorem adds_span (plan : RangePlan) (ty : Ty) (bits : Nat) : Adds n (·.Computes n) (span plan ty bits) := by
  refine (adds_compute fun _ => rfl).bind fun _ => ?_
  split
  · exact adds_compute fun _ => rfl
  · exact Adds.answer _

theorem adds_wholeSteps (plan : RangePlan) (ty : Ty) (step distance : Value) :
    Adds n (·.Computes n) (wholeSteps plan ty step distance) := by
  unfold wholeSteps
  split
  · exact Adds.answer _
  · exact (adds_compute fun _ => rfl).bind fun _ => adds_compute fun _ => rfl

theorem adds_lastIteration (plan : RangePlan) : Adds n (·.Computes n) (lastIteration plan) := by
  have hpast : ∀ last : Value, Adds n (·.Computes n) (if plan.overshoot = 0 then pure last else do
      let past := Value.ofWord (.ofInt (plan.step * plan.overshoot)) (plan.start.ty.bits.getD 64)
      compute plan.start.ty (.binary · .add last past)) := by
    intro last
    split
    · exact Adds.answer _
    · exact adds_compute fun _ => rfl
  unfold lastIteration
  simp only
  split
  · exact (adds_compute fun _ => rfl).bind hpast
  · exact (adds_span _ _ _).bind fun _ => (adds_wholeSteps _ _ _ _).bind fun _ =>
      (adds_compute fun _ => rfl).bind hpast

theorem adds_rebuildPointer (plan : RangePlan) (value : Value) :
    Adds n (·.Computes n) (rebuildPointer plan value) := by
  unfold rebuildPointer
  split
  · exact (adds_compute fun _ => rfl).bind fun _ => adds_compute fun _ => rfl
  · exact (Adds.answer _).bind fun _ => adds_compute fun _ => rfl

theorem adds_guardPointer (pointer : Value) (access : Access) :
    Adds m.temps (·.MayHoist m) (guardPointer m.hooks pointer access) :=
  ((adds_compute fun _ => rfl).mono fun _ => .inl).bind fun _ => Adds.perform (.inr ⟨_, _, rfl⟩)

theorem adds_entersLoop (plan : RangePlan) : Adds m.temps (·.MayHoist m) (entersLoop plan) :=
  (adds_compute fun _ => rfl).mono fun _ => .inl

theorem adds_guardRange (plan : RangePlan) (access : Access) (enters : Option Value) :
    Adds m.temps (·.MayHoist m) (guardRange m.hooks plan access enters) := by
  refine ((adds_rebuildPointer _ _).mono fun _ => .inl).bind fun first =>
    ((adds_lastIteration _).mono fun _ => .inl).bind fun counted => ?_
  have hguards : ∀ value, Adds m.temps (·.MayHoist m) (do
      let last ← rebuildPointer plan value
      guardPointer m.hooks first access
      guardPointer m.hooks last access) := fun value =>
    ((adds_rebuildPointer _ _).mono fun _ => .inl).bind fun last =>
      (adds_guardPointer _ _).bind fun _ => adds_guardPointer _ _
  cases enters with
  | some test => exact ((adds_compute fun _ => rfl).mono fun _ => .inl).bind hguards
  | none => exact (Adds.answer _).bind hguards

end GuardCode

namespace FlowGraph.Abreast

variable {m : Margin} {w : Ways} {f f' o o' : FlowGraph} {header preheader : Nat}

abbrev guardTags (r : GuardRule) : List (String × String) := [(Tag.injected, "guard"), (Tag.rule, r.text)]

theorem tag?_guardTags (i : Instruction) (r : GuardRule) :
    (i.setTags (guardTags r)).tag? Tag.rule = some r.text := by
  simp [Instruction.setTags, Instruction.setTag, Instruction.tag?, Table.get?_insert]

theorem hoistable {r : GuardRule} (hr : r.Hoists) {operations : List Operation}
    (h : ∀ operation ∈ operations, operation.MayHoist m) : Hoistable m (guardTags r) operations := by
  intro n next hn z hz
  refine ⟨Nat.le_trans hn (Instruction.index_of_mem_drafted hz).1, ⟨r, hr, ?_⟩, ?_⟩
  · induction operations generalizing next with
    | nil => cases hz
    | cons operation rest ih =>
      rcases List.mem_cons.mp hz with rfl | hz
      · exact tag?_guardTags _ r
      · exact ih (fun o ho => h o (List.mem_cons_of_mem _ ho)) (next + 1) (by omega) hz
  · apply h
    rw [← Instruction.drafted_operations (guardTags r) next operations]
    exact List.mem_map_of_mem hz

/-- A block that is entered from a preheader alone. -/
def Turns (m : Margin) (f : FlowGraph) (header preheader : Nat) : Prop :=
  header < m.blocks ∧ preheader < m.blocks ∧
    ∃ e, f.graph.edgesOut preheader = .ok [e] ∧ e.tail = header

theorem injectRange_above (h : f.Abreast m w o) {d : GuardDecision} (hr : d.rule.Hoists) {plan : RangePlan}
    (tested : plan.topTested = false) {last join : Nat}
    (hrun : (d.injectRange m.hooks plan last header).run o = .ok (join, o')) :
    join = last ∧ f.Abreast m w o' := by
  obtain ⟨operations, o₁, rfl, hcollect, hinject⟩ := GuardDecision.injectRange_above_ok tested hrun
  obtain ⟨hoperations, next, hnext, rfl⟩ := Drafting.Adds.collect_ok
    ((GuardCode.adds_entersLoop plan).bind fun _ => GuardCode.adds_guardRange plan d.access _)
    h.rightTemps hcollect
  exact ⟨rfl, (h.withTemps h.leftTemps hnext).append_hoisted (hoistable hr hoperations)
    hinject⟩

theorem computes_of_inject {c c' : FlowGraph} {k : Nat} {position : Block → Nat}
    {tags : List (String × String)} {operation : Operation} {v : Variable}
    (hv : operation.computes? = some v)
    (h : c.modifyBlock k (fun b => b.inject (position b) tags [operation]) = .ok c') : c'.Computes k v := by
  obtain ⟨b, b', -, hb', hk, -⟩ := block_modifyBlock h
  refine ⟨b', (Instruction.make b.nextIndex operation).setTags tags, hk, ?_, ?_⟩
  · rw [Block.inject_ok hb']
    exact List.mem_append_right _ (List.mem_append_left _ List.mem_cons_self)
  · rw [Instruction.setTags_operation]
    exact hv

theorem injectRange_around (h : f.Abreast m w o) {d : GuardDecision} (hr : d.rule.Hoists) {plan : RangePlan}
    (tested : plan.topTested) {last join : Nat} (hw : w header = some (preheader, last))
    (hrun : (d.injectRange m.hooks plan last header).run o = .ok (join, o')) :
    f.Abreast m (w.set header preheader join) o' := by
  obtain ⟨enters, test, o₁, o₂, operations, o₃, guards, o₄, o₅, o₆, e, o₇, o₈, o₉, o₁₀, o₁₁, htest,
    hinject, hcollect, hguards, hfill, hjoin, hremove, hthrough, hpast, hpasses, hjoins, hrename⟩ :=
    GuardDecision.injectRange_around_ok tested hrun
  obtain ⟨htests, next, hnext, rfl⟩ := (GuardCode.adds_entersLoop (m := m) plan).collect_ok h.rightTemps htest
  obtain ⟨rfl, rfl, -⟩ := Drafting.compute_ok htest
  have h₂ := (h.withTemps h.leftTemps hnext).append_hoisted (hoistable hr htests) hinject
  have tested₂ := computes_of_inject (v := .temporary o.nextTemp (.integer 1)) rfl hinject
  obtain ⟨hoperations, next', hnext', rfl⟩ :=
    (GuardCode.adds_guardRange plan d.access none).collect_ok h₂.rightTemps hcollect
  have h₃ := h₂.withTemps h₂.leftTemps hnext'
  obtain ⟨h₄, new, hnone₄, hold₄⟩ := h₃.newBlock hguards
  have h₅ := h₄.fill_hoisted (hoistable hr hoperations) new hfill
  obtain ⟨h₆, -, hnone₆, hold₆⟩ := h₅.newBlock hjoin
  have hedges₅ := edgesOut_modifyBlock hfill
  -- The end of the way has its one edge from the start, so the new blocks are behind it.
  obtain ⟨-, -, x, -, hx, hleads⟩ := h₃.joined.turned _ _ _ hw
  obtain ⟨y, hlast, hy, -⟩ := hleads.arriving
  obtain ⟨before, hlast₄⟩ := hold₄ _ _ hlast
  obtain ⟨behind, hnone₅⟩ := hold₆ guards [] ((hedges₅ guards).trans hnone₄)
  obtain ⟨-, hlast₆⟩ := hold₆ _ _ ((hedges₅ last).trans hlast₄)
  have tested₆ : o₆.Computes last (.temporary o.nextTemp (.integer 1)) := by
    obtain ⟨b, i, hb, hi⟩ := tested₂
    obtain ⟨_, _, -, -, -, hothers⟩ := block_modifyBlock hfill
    refine ⟨b, i, ?_, hi⟩
    rw [(block_newBlock hjoin).2 _ (by omega), hothers _ (by omega),
      (block_newBlock hguards).2 _ (by omega)]
    exact hb
  have hrerouted := rerouted h₆.joined.filed hlast₆ (hy.trans hx) hnone₅ hnone₆ before behind
    hremove hthrough hpast hpasses
    hjoins
  exact h₆.reroute hw new before behind hnone₅ hnone₆ tested₆ hrerouted hrename

def Records (hoisted : Hoisted) (w : Ways) : Prop := ∀ t, hoisted.entering.get? t = (w t).map (·.2)

def Leaves (w : Ways) (preheader? : Nat → Option Nat) : Prop :=
  ∀ t k last, w t = some (k, last) → preheader? t = some k

theorem leaves_set {preheader? : Nat → Option Nat} (hw : Leaves w preheader?) {k last : Nat}
    (hk : preheader? header = some k) : Leaves (w.set header k last) preheader? := by
  intro t j last' ht
  by_cases hth : t = header
  · subst hth
    rw [Ways.set_self] at ht
    cases ht
    exact hk
  · exact hw t j last' ((Ways.set_of_ne hth).symm.trans ht)

theorem records_set {hoisted : Hoisted} (h : Records hoisted w) {k last : Nat} :
    Records { hoisted with entering := hoisted.entering.insert header last } (w.set header k last) := by
  intro t
  change (hoisted.entering.insert header last).get? t = _
  rw [Table.get?_insert]
  split
  · rename_i ht
    subst ht
    rw [Ways.set_self]
    rfl
  · rename_i ht
    rw [Ways.set_of_ne ht]
    exact h t

theorem injectHoisted (h : f.Abreast m w o) {d : GuardDecision} (hr : d.rule.Hoists)
    (turns : Turns m f header preheader) {preheader? : Nat → Option Nat}
    (chosen : preheader? header = some preheader) (leaves : Leaves w preheader?) {hoisted hoisted' : Hoisted}
    (records : Records hoisted w) {count : Nat}
    (hrun : (d.injectHoisted m.hooks hoisted header preheader).run o = .ok ((count, hoisted'), o')) :
    ∃ w', f.Abreast m w' o' ∧ Leaves w' preheader? ∧ Records hoisted' w' := by
  unfold GuardDecision.injectHoisted at hrun
  simp only at hrun
  split at hrun
  · obtain ⟨hanswer, rfl⟩ := Edit.pure_ok.mp hrun
    cases hanswer
    exact ⟨w, h, leaves, records⟩
  · obtain ⟨_, o₁, hask, hplace⟩ := Edit.bind_ok.mp hrun
    obtain ⟨-, hsame⟩ := Edit.ask_ok.mp hask
    rw [hsame] at hplace
    cases hd : d.shape with
    | single =>
      rw [hd] at hplace
      obtain ⟨n, o₂, hinjection, hcount⟩ := Edit.bind_ok.mp hplace
      obtain ⟨hanswer, rfl⟩ := Edit.pure_ok.mp hcount
      cases hanswer
      obtain ⟨⟨_, operations⟩, o₃, hcollect, hcode⟩ := Edit.bind_ok.mp hinjection
      obtain ⟨_, o₄, hinject, hone⟩ := Edit.bind_ok.mp hcode
      obtain ⟨-, rfl⟩ := Edit.pure_ok.mp hone
      obtain ⟨hoperations, next, hnext, rfl⟩ :=
        (GuardCode.adds_guardPointer d.pointer d.access).collect_ok h.rightTemps hcollect
      exact ⟨w, (h.withTemps h.leftTemps hnext).append_hoisted (hoistable hr hoperations)
        (Edit.step_ok.mp hinject), leaves, records⟩
    | range plan =>
      rw [hd] at hplace
      obtain ⟨join, o₂, hinjection, hcount⟩ := Edit.bind_ok.mp hplace
      obtain ⟨hanswer, rfl⟩ := Edit.pure_ok.mp hcount
      cases hanswer
      obtain ⟨hheader, hpreheader, e, he, htail⟩ := turns
      -- The loop may not have been entered on a way of its own so far.
      have hway : ∃ w', f.Abreast m w' o ∧ w'.set header preheader join = w.set header preheader join ∧
          w' header = some (preheader, (hoisted.entering.get? header).getD preheader) := by
        cases hw : w header with
        | none =>
          refine ⟨_, h.turn hw hheader hpreheader he htail, ?_, ?_⟩
          · funext t
            by_cases ht : t = header
            · rw [ht, Ways.set_self, Ways.set_self]
            · rw [Ways.set_of_ne ht, Ways.set_of_ne ht, Ways.set_of_ne ht]
          · rw [Ways.set_self, records, hw]
            rfl
        | some way =>
          obtain ⟨k, last⟩ := way
          have hk := leaves header k last hw
          rw [chosen] at hk
          cases hk
          refine ⟨w, h, rfl, ?_⟩
          rw [records, hw]
          rfl
      obtain ⟨w', h', hset, hw'⟩ := hway
      refine ⟨w.set header preheader join, ?_, leaves_set leaves chosen, records_set records⟩
      rw [← hset]
      cases htested : plan.topTested with
      | true => exact h'.injectRange_around hr htested hw' hinjection
      | false =>
        obtain ⟨rfl, h''⟩ := h'.injectRange_above hr htested hinjection
        have hsame : w'.set header preheader ((hoisted.entering.get? header).getD preheader) = w' := by
          funext t
          by_cases ht : t = header
          · rw [ht, Ways.set_self, hw']
          · exact Ways.set_of_ne ht
        rw [hsame]
        exact h''

end FlowGraph.Abreast

end RegionGuard

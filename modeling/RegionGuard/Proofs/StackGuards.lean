import RegionGuard.Proofs.PlacedGuards
set_option autoImplicit false

/-!
# Guards of the stack

A function that calls code out of sight guards its stack. If all its slots stand in the entry block, one guard goes
behind the last of them, otherwise each such call has a guard in front of it. Whenever the call runs, a guard for the
frame of the function has run before it, unless the call stands in front of a slot that the one guard waits for.
-/

namespace RegionGuard

open FlowGraph Stateful

/-- The instruction was injected to guard the stack for a frame of a given size. -/
structure Instruction.GuardsStack (h : Hooks) (size : Word) (x : Instruction) : Prop where
  tag : x.tag? Tag.injected = some "stack-guard"
  operation : x.operation = .notify h.guardCalleeStack [.ofWord size 64]

namespace Instruction.GuardsStack

variable {h : Hooks} {size : Word} {x : Instruction}

theorem isInjected (hx : x.GuardsStack h size) : x.isInjected = true := by
  unfold Instruction.isInjected hasTag Table.contains
  change (x.tag? Tag.injected).isSome = true
  rw [hx.tag]
  rfl

theorem not_isPhi (hx : x.GuardsStack h size) : x.operation.isPhi = false := by
  rw [hx.operation]
  rfl

theorem follows {y : Instruction} (hx : x.GuardsStack h size) (hxy : x.Follows y) : y.GuardsStack h size :=
  ⟨hxy.injected.trans hx.tag, (hxy.operation hx.not_isPhi).trans hx.operation⟩

theorem drafted (h : Hooks) (size : Word) (next : Nat) :
    ∃ x, drafted [(Tag.injected, "stack-guard")] next [.notify h.guardCalleeStack [.ofWord size 64]] = [x] ∧
      x.GuardsStack h size :=
  ⟨_, rfl, (tag?_setTag _ Tag.injected "stack-guard" Tag.injected).trans (if_pos rfl), setTags_operation _ _⟩

end Instruction.GuardsStack

namespace Block

variable {h : Hooks} {size : Word} {b : Block}

def GuardsCall (h : Hooks) (size : Word) (index : Nat) (b : Block) : Prop :=
  ∃ x i, x.GuardsStack h size ∧ i.index = index ∧ [x, i].Sublist b.instructions

def GuardsSlots (h : Hooks) (size : Word) (b : Block) : Prop :=
  ∃ front x back, b.instructions = front ++ x :: back ∧ x.GuardsStack h size ∧
    ((∃ s, front.getLast? = some s ∧ s.operation.isAlloca) ∨ ∀ i ∈ front, i.operation.isPhi)

theorem stable_guardsCall (h : Hooks) (size : Word) (index : Nat) :
    Stable (fun _ _ => True) (GuardsCall h size index) where
  inject b b' position v tags operations hb _ hb' := by
    obtain ⟨x, i, hx, hi, hsub⟩ := hb
    refine ⟨x, i, hx, hi, hsub.trans ?_⟩
    rw [Block.inject_ok hb']
    conv_lhs => rw [← List.take_append_drop position b.instructions]
    exact (List.Sublist.refl _).append (List.sublist_append_right _ _)
  map b f hb hf := by
    obtain ⟨x, i, hx, hi, hsub⟩ := hb
    exact ⟨f x, f i, hx.follows (hf x), (hf i).index.trans hi, hsub.map f⟩

theorem GuardsCall.mem_done {done rest : List Instruction} {i : Instruction} (numbered : b.Numbered)
    (hb : b.GuardsCall h size i.index) (hinstructions : b.instructions = done ++ i :: rest) :
    ∃ x ∈ done, x.GuardsStack h size := by
  obtain ⟨x, j, hx, hj, hsub⟩ := hb
  have hi : i ∈ b.instructions := hinstructions ▸ List.mem_append_right _ List.mem_cons_self
  obtain rfl := Block.eq_of_index_eq numbered.2 hi (hsub.subset (List.mem_cons_of_mem _ List.mem_cons_self)) hj.symm
  have distinct : (done ++ i :: rest).Nodup := hinstructions ▸ List.Nodup.of_map _ numbered.2
  rw [List.nodup_append, List.nodup_cons] at distinct
  obtain ⟨-, ⟨hrest, -⟩, hdone⟩ := distinct
  rw [hinstructions] at hsub
  obtain ⟨older, newer, hsplit, holder, hnewer⟩ := List.sublist_append_iff.mp hsub
  -- The guard cannot be the instruction itself or stand behind it.
  match older, hsplit with
  | [], hsplit =>
    rw [List.nil_append] at hsplit
    subst hsplit
    exact absurd (List.singleton_sublist.mp hnewer.tail) hrest
  | [y], hsplit =>
    cases hsplit
    exact ⟨x, holder.subset List.mem_cons_self, hx⟩
  | _ :: y :: _, hsplit =>
    obtain ⟨-, rfl, -⟩ : x = _ ∧ i = y ∧ _ := by simpa using hsplit
    exact absurd rfl (hdone i (holder.subset (List.mem_cons_of_mem _ List.mem_cons_self)) i List.mem_cons_self)

/-- The guard behind the slots is among what has run when a call with no slot behind it is next. -/
theorem GuardsSlots.mem_done {done rest : List Instruction} {i : Instruction} (hb : b.GuardsSlots h size)
    (hinstructions : b.instructions = done ++ i :: rest) (fresh : i.isInjected = false)
    (notPhi : i.operation.isPhi = false) (notSlot : i.operation.isAlloca = false)
    (noSlot : ∀ k ∈ rest, k.operation.isAlloca = false) : ∃ x ∈ done, x.GuardsStack h size := by
  obtain ⟨front, x, back, hsplit, hx, hfront⟩ := hb
  refine ⟨x, ?_, hx⟩
  rw [hsplit] at hinstructions
  rcases List.append_eq_append_iff.mp hinstructions with ⟨between, rfl, hback⟩ | ⟨between, rfl, hback⟩
  · cases between with
    | nil =>
      cases hback
      rw [hx.isInjected] at fresh
      cases fresh
    | cons y between =>
      cases hback
      exact List.mem_append_right _ List.mem_cons_self
  · cases between with
    | nil =>
      cases hback
      rw [hx.isInjected] at fresh
      cases fresh
    | cons y between =>
      cases hback
      rcases hfront with ⟨s, hlast, hslot⟩ | hphis
      · rw [List.getLast?_append_of_ne_nil _ (List.cons_ne_nil _ _)] at hlast
        rcases List.mem_cons.mp (List.mem_of_getLast? hlast) with rfl | hs
        · rw [notSlot] at hslot
          cases hslot
        · rw [noSlot s (List.mem_append_left _ hs)] at hslot
          cases hslot
      · have hphi := hphis i (List.mem_append_right _ List.mem_cons_self)
        rw [notPhi] at hphi
        cases hphi

end Block

namespace Function

variable {p : Program} {c : Configuration} {f : Function}

/-- A function that has no guard of its stack yet gets one if it calls code out of sight. -/
theorem decideStackGuards_ok {ds : List StackGuardDecision} (h : f.decideStackGuards p c = .ok ds)
    (unguarded : f.hasStackGuard = false) :
    ∃ body entry, f.body = some body ∧ body.entry = some entry ∧ (f.escapingCalls p c ≠ [] →
      ∃ size, f.frameSize = .ok size ∧ ds = (if f.isGrouped entry then [.functionEntry] else
        (f.escapingCalls p c).map .beforeCall).map fun placement => ⟨f.name, placement, size⟩) := by
  obtain ⟨body, hbody, h⟩ := bind_eq_ok.mp h
  obtain ⟨entry, hentry, h⟩ := bind_eq_ok.mp h
  refine ⟨body, entry, orRaise_eq_ok.mp hbody, orRaise_eq_ok.mp hentry, fun hcalls => ?_⟩
  simp only [unguarded, Bool.false_or, List.isEmpty_iff, hcalls, if_false] at h
  obtain ⟨size, hsize, h⟩ := bind_eq_ok.mp h
  cases h
  exact ⟨size, hsize, rfl⟩

end Function

namespace StackGuardDecision

variable {c c' : FlowGraph} {h : Hooks} {d : StackGuardDecision} {u : Unit}

/-- A guard that is placed in front of a call stands there, whatever is guarded afterwards. -/
theorem guardsCall_forM {ds : List StackGuardDecision} {u : PUnit} (numbered : c.Numbered) (hd : d ∈ ds) {l : Location}
    (hl : d.placement = .beforeCall l) (hrun : (ds.forM fun d => d.inject h).run c = .ok (u, c')) :
    c'.HasBlock l.block (Block.GuardsCall h d.frameSize l.instruction) := by
  induction ds generalizing c with
  | nil => cases hd
  | cons e rest ih =>
    obtain ⟨_, c₁, hfirst, hrest⟩ := Edit.bind_ok.mp hrun
    obtain ⟨k, position, hplace, hinject⟩ := inject_ok hfirst
    have numbered₁ := indifferent_numbered.inject _ _ _ (fun _ => position) _ _ _ numbered hinject
    rcases List.mem_cons.mp hd with rfl | hd
    · unfold place at hplace
      rw [hl] at hplace
      obtain ⟨position', hposition, hanswer⟩ := bind_eq_ok.mp hplace
      cases hanswer
      obtain ⟨b, i, hb, hi, hdrop⟩ := position_ok hposition
      obtain ⟨b₁, b', hb₁, hb', hk, -⟩ := block_modifyBlock hinject
      cases hb.symm.trans hb₁
      obtain ⟨x, hx, hguards⟩ := Instruction.GuardsStack.drafted h d.frameSize b.nextIndex
      refine (indifferent_forM (indifferent_hasBlock (Block.stable_guardsCall h d.frameSize l.instruction) l.block)
        ⟨numbered₁, b', hk, x, i, hguards, hi, ?_⟩ hrest).2
      rw [Block.inject_ok hb', hx, hdrop]
      exact (List.Sublist.cons_cons x (List.Sublist.cons_cons i (List.nil_sublist _))).trans
        (List.sublist_append_right _ _)
    · exact ih numbered₁ hd hrest

theorem guardsSlots_inject {entry : Nat} (hentry : c.entry = some entry) (hd : d.placement = .functionEntry)
    (hrun : (d.inject h).run c = .ok (u, c')) : c'.HasBlock entry (Block.GuardsSlots h d.frameSize) := by
  obtain ⟨k, position, hplace, hinject⟩ := inject_ok hrun
  unfold place at hplace
  rw [hd] at hplace
  obtain ⟨entry', hentry', hplace⟩ := bind_eq_ok.mp hplace
  obtain ⟨b, hb, hplace⟩ := bind_eq_ok.mp hplace
  cases hplace
  cases hentry.symm.trans (orRaise_eq_ok.mp hentry')
  obtain ⟨b₁, b', hb₁, hb', hk, -⟩ := block_modifyBlock hinject
  cases hb.symm.trans hb₁
  obtain ⟨x, hx, hguards⟩ := Instruction.GuardsStack.drafted h d.frameSize b.nextIndex
  refine ⟨b', hk, b.instructions.take (afterSlots b), x, b.instructions.drop (afterSlots b), ?_, hguards,
    afterSlots_spec b⟩
  rw [Block.inject_ok hb', hx]
  rfl

end StackGuardDecision

namespace Program

variable {p q : Program} {c : Configuration} {f g : Function} {r : GuardReport}

/-- Whether calls into code out of sight are guarded in a body, for the frame of a function. -/
structure GuardsStack (p : Program) (c : Configuration) (f : Function) (entry : Nat) (body : FlowGraph) : Prop where
  numbered : body.Numbered
  starts : body.entry = some entry
  guards : ∀ k b, body.block k = .ok b → ∀ i ∈ b.instructions, i.isInjected = false → p.isEscaping c i.operation →
    ∃ size, f.frameSize = .ok size ∧
      if f.isGrouped entry then body.HasBlock entry (Block.GuardsSlots c.hooks size)
      else b.GuardsCall c.hooks size i.index

theorem guardsStack_of_guardFunction (numbered : p.Numbered) (restriction : c.restriction) (hr : p.decideGuards c = .ok r)
    {name : String} (hf : p.function? name = some f) (instrumented : c.instruments f)
    (unguarded : f.hasStackGuard = false) {n : Nat} (hg : guardFunction c r f = .ok (n, g)) :
    ∃ body entry, g.body = some body ∧ p.GuardsStack c f entry body := by
  obtain ⟨body, entry, hbody, hentry, hdecided⟩ :=
    Function.decideStackGuards_ok (filter_stackGuards numbered restriction hr hf instrumented) unguarded
  have numberedBody := (numbered_iff.mp numbered _ f hf).2 body hbody
  rcases Function.guardFunction_ok hg with ⟨hnone, -⟩ | ⟨body₁, m, middle, body', hbody₁, rfl, -, hall, hstack⟩
  · rw [hbody] at hnone
    cases hnone
  cases hbody.symm.trans hbody₁
  -- No step makes a call, so what calls code out of sight in the end is one of the old calls.
  have hphi : ∀ dst incoming, ¬ p.Escapes c (.phi dst incoming) := fun _ _ h => nomatch h
  have hdue : body.DueOnly Tag.injected (p.Escapes c) (· ∈ f.escapingCalls p c) := by
    intro k b hb i hi hdue
    refine List.mem_filterMap.mpr ⟨(⟨k, i.index⟩, i), (Function.located_iff hbody numberedBody.addressable).mpr ⟨b, hb, hi, rfl⟩, ?_⟩
    have hescapes : p.isEscaping c i.operation = true := hdue.2.2
    simp only [hdue.1, hescapes, Bool.not_false, Bool.and_self, if_true]
  have steady : Indifferent fun b => b.entry = some entry ∧ b.Numbered ∧
      b.DueOnly Tag.injected (p.Escapes c) (· ∈ f.escapingCalls p c) :=
    indifferent_and (indifferent_entry entry) (indifferent_dueOnly hphi _)
  have hmiddle := GuardDecision.indifferent_injectAll steady ⟨hentry, numberedBody, hdue⟩ hall
  obtain ⟨hentry', numbered', hdue'⟩ := StackGuardDecision.indifferent_forM steady hmiddle hstack
  refine ⟨body', entry, rfl, numbered', hentry', fun k b hb i hi fresh hescaping => ?_⟩
  have hcall := hdue' k b hb i hi ⟨fresh, fresh, hescaping⟩
  obtain ⟨size, hsize, hdecisions⟩ := hdecided (List.ne_nil_of_mem hcall)
  refine ⟨size, hsize, ?_⟩
  rw [hdecisions] at hstack
  split
  · rename_i grouped
    rw [if_pos grouped] at hstack
    obtain ⟨_, c₁, hinject, hnil⟩ := Edit.bind_ok.mp hstack
    obtain ⟨-, rfl⟩ := Edit.pure_ok.mp hnil
    exact StackGuardDecision.guardsSlots_inject hmiddle.1 rfl hinject
  · rename_i scattered
    rw [if_neg scattered] at hstack
    have hmem := List.mem_map_of_mem (f := fun placement => (⟨f.name, placement, size⟩ : StackGuardDecision))
      (List.mem_map_of_mem (f := StackGuardPlacement.beforeCall) hcall)
    obtain ⟨b', hb', hguards⟩ := StackGuardDecision.guardsCall_forM hmiddle.2.1 hmem rfl hstack
    cases hb.symm.trans hb'
    exact hguards

end Program

end RegionGuard

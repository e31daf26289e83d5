import RegionGuard.Proofs.PreheaderRoutes
set_option autoImplicit false

namespace RegionGuard

open FlowGraph Edit

section Positions

variable {l rest : List Instruction} {i : Instruction} {position : Nat}

theorem leading_le_of_drop (hdrop : l.drop position = i :: rest) (hi : i.operation.isPhi = false) :
    (leading l).length ≤ position := by
  by_contra hlt
  have hsplit : l.drop position = (leading l).drop position ++ behind l := by
    conv_lhs => rw [← leading_append_behind l]
    rw [List.drop_append, Nat.sub_eq_zero_of_le (by omega), List.drop_zero]
  have hhead : i ∈ (leading l).drop position := by
    cases hfront : (leading l).drop position with
    | nil =>
      have := List.drop_eq_nil_iff.mp hfront
      omega
    | cons j front =>
      rw [hdrop, hfront] at hsplit
      cases hsplit
      exact List.mem_cons_self
  rw [isPhi_of_leading (List.mem_of_mem_drop hhead)] at hi
  cases hi

theorem leading_le_terminatorPosition (b : Block) : (leading b.instructions).length ≤ b.terminatorPosition := by
  rcases Block.terminatorPosition_split b with ⟨-, hdrop⟩ | ⟨front, r, -, hr, -, hdrop⟩
  · exact Nat.le_trans (List.takeWhile_prefix _).length_le (List.drop_eq_nil_iff.mp hdrop)
  · refine leading_le_of_drop hdrop ?_
    cases ho : r.operation <;> rw [ho] at hr <;> first | rfl | cases hr

theorem leading_le_afterSlots (b : Block) : (leading b.instructions).length ≤ StackGuardDecision.afterSlots b := by
  rcases StackGuardDecision.afterSlots_split b with ⟨-, htake, -⟩ | ⟨front, i, back, hsplit, hi, -, htake, -⟩
  · have := congrArg List.length htake
    rw [List.length_take] at this
    change _ = (leading b.instructions).length at this
    omega
  · have hfront : (leading b.instructions).length ≤ front.length := by
      have hdrop : b.instructions.drop front.length = i :: back := by rw [hsplit, List.drop_left]
      refine leading_le_of_drop hdrop ?_
      cases ho : i.operation <;> rw [ho] at hi <;> first | rfl | cases hi
    have := congrArg List.length htake
    rw [List.length_take, List.length_append] at this
    omega

theorem FlowGraph.leading_le_position {c : FlowGraph} (hc : c.Numbered) {at_ : Location} {o : Operation}
    (hl : c.Holds at_ o) (ho : o.isPhi = false) (hposition : c.position at_ = .ok position) {b : Block}
    (hb : c.block at_.block = .ok b) : (leading b.instructions).length ≤ position := by
  obtain ⟨j, hj, hsplit, hdrop, -⟩ := Abreast.split_at hc hposition hb
  exact leading_le_of_drop hdrop (Abreast.operation_at hc hl hb hsplit hj ▸ ho)

end Positions

namespace FlowGraph

def Retains (c c' : FlowGraph) : Prop := ∀ l o, o.isPhi = false → c.Holds l o → c'.Holds l o

variable {h : Hooks} {r : Routes} {c c' c'' : FlowGraph} {k next : Nat}

theorem Retains.refl (c : FlowGraph) : c.Retains c := fun _ _ _ hl => hl

theorem Retains.trans (h₁ : c.Retains c') (h₂ : c'.Retains c'') : c.Retains c'' :=
  fun l o ho hl => h₂ l o ho (h₁ l o ho hl)

theorem retains_of_blocks (hblocks : ∀ j b, c.block j = .ok b → ∃ b', c'.block j = .ok b' ∧
    ∀ i ∈ b.instructions, i.operation.isPhi = false →
      ∃ j ∈ b'.instructions, j.index = i.index ∧ j.operation = i.operation) : c.Retains c' := by
  rintro l o ho ⟨b, i, hb, hi, hindex, rfl⟩
  obtain ⟨b', hb', hkeeps⟩ := hblocks l.block b hb
  obtain ⟨j, hj, hindex', hoperation⟩ := hkeeps i hi ho
  exact ⟨b', j, hb', hj, hindex'.trans hindex, hoperation⟩

theorem retains_of_modifyBlock {f : Block → Outcome Block}
    (hf : ∀ b b', c.block k = .ok b → f b = .ok b' → ∀ i ∈ b.instructions,
      ∃ j ∈ b'.instructions, j.index = i.index ∧ j.operation = i.operation)
    (hm : c.modifyBlock k f = .ok c') : c.Retains c' := by
  obtain ⟨b, b', hb, hb', hk, hothers⟩ := block_modifyBlock hm
  refine retains_of_blocks fun j x hx => ?_
  by_cases hj : j = k
  · subst hj
    cases hb.symm.trans hx
    exact ⟨b', hk, fun i hi _ => hf b b' hb hb' i hi⟩
  · exact ⟨x, (hothers j hj).trans hx, fun i hi _ => ⟨i, hi, rfl, rfl⟩⟩

theorem retains_of_newBlock (orderly : c.Orderly) (hnew : c.newBlock = .ok (k, c')) : c.Retains c' := by
  refine retains_of_blocks fun j b hb => ⟨b, ?_, fun i hi _ => ⟨i, hi, rfl, rfl⟩⟩
  have hbound := orderly.bounded j b hb
  have hk := (newBlock_ok hnew).1
  exact ((block_newBlock hnew).2 j (by omega)).trans hb

theorem Bypassed.retains {y x guards join : Nat} {test : Value} (hb : c.Bypassed y x guards join test c') :
    c.Retains c' := by
  refine retains_of_blocks fun j b hj => ?_
  by_cases hjx : j = x
  · subst hjx
    obtain ⟨b', hb', hrenamed⟩ := hb.header
    cases hj.symm.trans hb'
    refine ⟨_, hrenamed, fun i hi ho => ⟨_, List.mem_map_of_mem hi, ?_, ?_⟩⟩
    · exact (GuardDecision.renameIncoming_fields _ _ i).1
    · rw [(GuardDecision.renameIncoming_fields _ _ i).2.2, GuardDecision.relabel_of_notPhi ho]
  · exact ⟨b, (hb.blocks j hjx).trans hj, fun i hi _ => ⟨i, hi, rfl, rfl⟩⟩

namespace Carries

theorem inject (hc : Carries h r c c') (hnext : c'.nextTemp ≤ next) {position : Block → Nat}
    {tags : List (String × String)} {operations : List Operation} (hops : ∀ o ∈ operations, o.IsExtra h c'.nextTemp)
    (hposition : ∀ b, c'.block k = .ok b → (leading b.instructions).length ≤ position b)
    (hm : (c'.withTemps next).modifyBlock k (fun b => b.inject (position b) tags operations) = .ok c'') :
    Carries h r c c'' ∧ c'.Retains c'' := by
  constructor
  · refine hc.grow hnext (fun b b' hb hb' => ⟨Block.numbered_of_inject hb hb', ?_⟩)
      (fun b b' hb hb' => Block.grows_of_inject (hposition b hb) hops hb') hm
    rw [Block.inject_ok hb']
  · exact retains_of_modifyBlock (c := c'.withTemps next)
      (fun b b' _ hb' i hi => ⟨i, Block.mem_of_inject hb' hi, rfl, rfl⟩) hm

theorem setTag (hc : Carries h r c c') {l : Location} {key value : String}
    (hm : c'.modifyInstruction l (·.setTag key value) = .ok c'') : Carries h r c c'' ∧ c'.Retains c'' := by
  have hmap : ∀ b b', c'.block l.block = .ok b → b.modify l.instruction (·.setTag key value) = .ok b' →
      b'.instructions = b.instructions.map (Block.changeAt l.instruction (·.setTag key value)) := by
    intro b b' hb hb'
    rw [(Block.modify_ok (numbered_iff.mp hc.orderly.numbered _ b hb).2 hb').2]
  constructor
  · refine hc.grow (Nat.le_refl c'.nextTemp) (fun b b' hb hb' => ⟨?_, ?_⟩) (fun b b' hb hb' => ?_) hm
    · exact Block.numbered_of_modify (f := (·.setTag key value)) (fun _ => rfl) hb hb'
    · rw [(Block.modify_ok hb hb').2]
    · exact Block.grows_of_map (Block.tagAt_operation _ _ _) (hmap b b' hb hb')
  · refine retains_of_modifyBlock (fun b b' hb hb' i hi => ?_) hm
    rw [hmap b b' hb hb']
    exact ⟨_, List.mem_map_of_mem hi, Block.tagAt_index _ _ _ i, Block.tagAt_operation _ _ _ i⟩

end Carries

end FlowGraph

namespace ReportSite

open Drafting

variable {h : Hooks} {n : Nat} {l : Location}

theorem adds_operations_extra (l : Location) (s : ReportSite) : Adds n (·.IsExtra h n) (s.operations h l) :=
  adds_operations (fun _ _ _ hk _ => .inl ⟨_, rfl, Variable.isUpcoming_temporary.mpr hk⟩)
    (fun name hname arguments => .inr ⟨name, hname, arguments, rfl⟩) l s

theorem leading_le_position {c : FlowGraph} (hc : c.Numbered) {s : ReportSite} {o : Operation} (hl : c.Holds l o)
    (ho : o.isPhi = false) {position : Nat} (hposition : s.position c l = .ok position) {b : Block}
    (hb : c.block l.block = .ok b) : (leading b.instructions).length ≤ position := by
  have after : (do (← c.block l.block).positionAfter l.instruction) = Except.ok (ε := Failure) position →
      (leading b.instructions).length ≤ position := by
    intro hafter
    obtain ⟨b', hb', hafter⟩ := bind_eq_ok.mp hafter
    cases hb.symm.trans hb'
    obtain ⟨before, hbefore, hafter⟩ := bind_eq_ok.mp hafter
    cases hafter
    have hposition : c.position l = .ok before :=
      bind_eq_ok.mpr ⟨b, hb, orRaise_eq_ok.mpr (orRaise_eq_ok.mp hbefore)⟩
    have := FlowGraph.leading_le_position hc hl ho hposition hb
    omega
  cases s with
  | allocation => exact after hposition
  | free => exact FlowGraph.leading_le_position hc hl ho hposition hb
  | escape => exact after hposition

theorem retains_report {c c' : FlowGraph} (numbered : c.Numbered) {s : ReportSite} {u : Unit}
    (hrun : (s.report h l).run c = .ok (u, c')) : c.Retains c' := by
  obtain ⟨⟨_, operations⟩, c₁, hcollect, hrest⟩ := Edit.bind_ok.mp hrun
  obtain ⟨position, c₂, hask, hmodify⟩ := Edit.bind_ok.mp hrest
  obtain ⟨-, rfl⟩ := ask_ok.mp hask
  obtain ⟨-, next, -, rfl⟩ := (adds_operations_extra (n := 0) (h := h) l s).collect_ok (Nat.zero_le _) hcollect
  refine retains_of_modifyBlock (c := c.withTemps next) (fun b b' hb hb' i hi => ?_) (Edit.step_ok.mp hmodify)
  obtain ⟨injected, hinjected, hb'⟩ := bind_eq_ok.mp hb'
  have hnumbered := Block.numbered_of_inject (numbered_iff.mp numbered _ b hb).2 hinjected
  rw [(Block.modify_ok hnumbered hb').2]
  exact ⟨_, List.mem_map_of_mem (Block.mem_of_inject hinjected hi), Block.tagAt_index _ _ _ i,
    Block.tagAt_operation _ _ _ i⟩

theorem carries_report {r : Routes} {c c' c'' : FlowGraph} (hc : Carries h r c c') {s : ReportSite} {o : Operation}
    (hl : c'.Holds l o) (ho : o.isPhi = false) {u : Unit} (hrun : (s.report h l).run c' = .ok (u, c'')) :
    Carries h r c c'' := by
  obtain ⟨⟨_, operations⟩, c₁, hcollect, hrest⟩ := Edit.bind_ok.mp hrun
  obtain ⟨position, c₂, hask, hmodify⟩ := Edit.bind_ok.mp hrest
  obtain ⟨hposition, rfl⟩ := ask_ok.mp hask
  obtain ⟨hops, next, hnext, rfl⟩ := (adds_operations_extra (h := h) l s).collect_ok (Nat.le_refl _) hcollect
  have hm := Edit.step_ok.mp hmodify
  have hlead : ∀ b, c'.block l.block = .ok b → (leading b.instructions).length ≤ position := fun b hb =>
    leading_le_position (c := c'.withTemps next) hc.orderly.numbered hl ho hposition hb
  have htagged : ∀ (b injected b' : Block), b.Numbered → b.inject position [(Tag.injected, s.tag)] operations = .ok injected →
      injected.modify l.instruction (·.setTag Tag.tracked s.tag) = .ok b' → injected.Numbered ∧
        b' = { injected with instructions :=
          injected.instructions.map (Block.changeAt l.instruction (·.setTag Tag.tracked s.tag)) } := by
    intro b injected b' hb hinjected hb'
    have hnumbered := Block.numbered_of_inject hb hinjected
    exact ⟨hnumbered, (Block.modify_ok hnumbered hb').2⟩
  refine hc.grow hnext (fun b b' hb hb' => ?_) (fun b b' hb hb' => ?_) hm
  · obtain ⟨injected, hinjected, hb'⟩ := bind_eq_ok.mp hb'
    obtain ⟨hnumbered, heq⟩ := htagged b injected b' hb hinjected hb'
    refine ⟨Block.numbered_of_modify (f := (·.setTag Tag.tracked s.tag)) (fun _ => rfl) hnumbered hb', ?_⟩
    rw [heq, Block.inject_ok hinjected]
  · obtain ⟨injected, hinjected, hb'⟩ := bind_eq_ok.mp hb'
    obtain ⟨-, heq⟩ := htagged b injected b' (numbered_iff.mp hc.orderly.numbered _ b hb).2 hinjected hb'
    refine (Block.grows_of_inject (hlead b hb) hops hinjected).trans (Block.grows_of_map ?_ (by rw [heq]))
    exact Block.tagAt_operation _ _ _

theorem carries_reports {r : Routes} {c c' c'' : FlowGraph} {sites : List (Location × ReportSite)}
    (hc : Carries h r c c') (hsites : ∀ e ∈ sites, ∃ o, c'.Holds e.1 o ∧ o.isPhi = false) {u : PUnit}
    (hrun : (sites.forM fun e => e.2.report h e.1).run c' = .ok (u, c'')) : Carries h r c c'' ∧ c'.Retains c'' := by
  induction sites generalizing c' with
  | nil =>
    obtain ⟨-, rfl⟩ := pure_ok.mp hrun
    exact ⟨hc, .refl _⟩
  | cons e rest ih =>
    obtain ⟨_, c₁, hfirst, hrest⟩ := Edit.bind_ok.mp hrun
    obtain ⟨o, hl, ho⟩ := hsites e List.mem_cons_self
    have hc₁ := carries_report hc hl ho hfirst
    have hretains := retains_report hc.orderly.numbered hfirst
    obtain ⟨hc₂, hretains'⟩ := ih hc₁ (fun e' he' => by
      obtain ⟨o', hl', ho'⟩ := hsites e' (List.mem_cons_of_mem _ he')
      exact ⟨o', hretains _ _ ho' hl', ho'⟩) hrest
    exact ⟨hc₂, hretains.trans hretains'⟩

theorem holds_of_mem {c : Configuration} {f : Function} {body : FlowGraph} (hbody : f.body = some body)
    (hnumbered : body.Numbered) {e : Location × ReportSite} (he : e ∈ ofFunction c f) :
    ∃ o, body.Holds e.1 o ∧ o.isPhi = false := by
  obtain ⟨⟨l, i⟩, hi, hs⟩ := List.mem_filterMap.mp he
  obtain ⟨s, hsite, rfl⟩ := Option.map_eq_some_iff.mp hs
  refine ⟨i.operation, (Function.grown_sitesOf hnumbered).holds _ (Function.mem_sitesOf hbody hi), ?_⟩
  simp only [ofInstruction] at hsite
  split at hsite
  · cases hsite
  · split at hsite
    · rename_i ho
      simp only [ho]
      rfl
    · rename_i ho
      simp only [ho]
      rfl
    · cases hsite

end ReportSite

namespace Program

variable {h : Hooks} {r : Routes} {c c' c'' : FlowGraph}

theorem carries_registerIn {globals : List (String × Word)} (hc : Carries h r c c') {n : Nat}
    (hrun : (registerIn h globals).run c' = .ok (n, c'')) : Carries h r c c'' := by
  obtain ⟨entry, c₁, hask, hrest⟩ := Edit.bind_ok.mp hrun
  obtain ⟨-, rfl⟩ := ask_ok.mp hask
  obtain ⟨b, c₂, hblock, hregister⟩ := Edit.bind_ok.mp hrest
  obtain ⟨-, rfl⟩ := ask_ok.mp hblock
  split at hregister
  · obtain ⟨-, rfl⟩ := pure_ok.mp hregister
    exact hc
  · obtain ⟨_, c₃, hinject, hanswer⟩ := Edit.bind_ok.mp hregister
    obtain ⟨-, rfl⟩ := pure_ok.mp hanswer
    refine (hc.inject (Nat.le_refl _) (fun o ho => ?_) (fun b _ => ?_) (Edit.step_ok.mp hinject)).1
    · obtain ⟨id, hid, rfl⟩ := List.mem_mapIdx.mp ho
      exact .inr ⟨h.notifyGlobal, by simp [Hooks.names], _, rfl⟩
    · exact Nat.le_of_eq (firstNonPhi_eq b).symm

end Program

namespace StackGuardDecision

variable {h : Hooks} {r : Routes} {c c' c'' : FlowGraph}

theorem carries_inject (hc : Carries h r c c') {d : StackGuardDecision}
    (calls : ∀ l, d.placement = .beforeCall l → ∃ o, c'.Holds l o ∧ o.isPhi = false) {u : Unit}
    (hrun : (d.inject h).run c' = .ok (u, c'')) : Carries h r c c'' ∧ c'.Retains c'' := by
  obtain ⟨k, position, hplace, hm⟩ := inject_ok hrun
  refine hc.inject (Nat.le_refl _) (fun o ho => ?_) (fun b hb => ?_) hm
  · rw [List.mem_singleton.mp ho]
    exact .inr ⟨h.guardCalleeStack, by simp [Hooks.names], _, rfl⟩
  · unfold place at hplace
    split at hplace
    · obtain ⟨entry, -, hplace⟩ := bind_eq_ok.mp hplace
      obtain ⟨b', hb', hplace⟩ := bind_eq_ok.mp hplace
      cases hplace
      cases hb.symm.trans hb'
      exact leading_le_afterSlots b
    · rename_i l hl
      obtain ⟨position', hposition, hplace⟩ := bind_eq_ok.mp hplace
      cases hplace
      obtain ⟨o, hholds, ho⟩ := calls l hl
      exact leading_le_position hc.orderly.numbered hholds ho hposition hb

theorem carries_forM {ds : List StackGuardDecision} (hc : Carries h r c c')
    (calls : ∀ d ∈ ds, ∀ l, d.placement = .beforeCall l → ∃ o, c'.Holds l o ∧ o.isPhi = false) {u : PUnit}
    (hrun : (ds.forM fun d => d.inject h).run c' = .ok (u, c'')) : Carries h r c c'' := by
  induction ds generalizing c' with
  | nil =>
    obtain ⟨-, rfl⟩ := pure_ok.mp hrun
    exact hc
  | cons d rest ih =>
    obtain ⟨_, c₁, hfirst, hrest⟩ := Edit.bind_ok.mp hrun
    obtain ⟨hc₁, hretains⟩ := carries_inject hc (calls d List.mem_cons_self) hfirst
    refine ih hc₁ (fun d' hd' l hl => ?_) hrest
    obtain ⟨o, hholds, ho⟩ := calls d' (List.mem_cons_of_mem _ hd') l hl
    exact ⟨o, hretains l o ho hholds, ho⟩

end StackGuardDecision

end RegionGuard

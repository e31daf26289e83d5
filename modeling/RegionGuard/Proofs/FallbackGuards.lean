import RegionGuard.Proofs.Numbering
import RegionGuard.Proofs.Vouching
set_option autoImplicit false

namespace RegionGuard

theorem infix_of_insert {α : Type} {seg front back : List α} (h : seg <:+: front ++ back)
    (outside : (∀ x ∈ back.head?, x ∉ seg.tail) ∨ ∀ x ∈ front.getLast?, x ∉ seg.dropLast)
    (new : List α) : seg <:+: front ++ (new ++ back) := by
  obtain ⟨p, q, hpq⟩ := h
  rw [List.append_assoc] at hpq
  rcases List.append_eq_append_iff.mp hpq with ⟨a, rfl, hback⟩ | ⟨b, rfl, rfl⟩
  · rcases List.append_eq_append_iff.mp hback with ⟨b, rfl, rfl⟩ | ⟨b, rfl, rfl⟩
    · exact ⟨p, b ++ (new ++ back), by simp⟩
    · -- The split is inside unless one of its sides is empty.
      cases a with
      | nil => exact ⟨p ++ new, q, by simp⟩
      | cons x a =>
        cases b with
        | nil => exact ⟨p, new ++ q, by simp⟩
        | cons y b =>
          rcases outside with outside | outside
          · exact absurd (by simp) (outside y (by simp))
          · have hne : x :: a ≠ [] := by simp
            have hlast : (p ++ x :: a).getLast? = some ((x :: a).getLast hne) := by
              rw [List.getLast?_append_of_ne_nil _ hne, List.getLast?_eq_getLast_of_ne_nil hne]
            refine absurd ?_ (outside _ hlast)
            rw [List.dropLast_append_of_ne_nil (by simp)]
            exact List.mem_append_left _ (List.getLast_mem hne)
  · exact ⟨front ++ (new ++ b), q, by simp⟩

namespace GuardCode

/-- A guard of a pointer that takes its address into the temporary of a number. -/
def guards (h : Hooks) (v : Value) (a : Access) (number : Nat) : List Operation :=
  [.cast (.temporary number (.integer 64)) .ptrToInt v,
    .notify h.guardAddress
      [.variable (.temporary number (.integer 64)), .ofWord (if a.isWrite then 1 else 0) 32]]

variable {h : Hooks} {v : Value} {a : Access} {c c' : FlowGraph} {u : Unit}

theorem guardPointer_ok {before after : List Operation}
    (hrun : ((guardPointer h v a).run before).run c = .ok ((u, after), c')) :
    after = before ++ guards h v a c.nextTemp ∧ c' = c.withTemps (c.nextTemp + 1) := by
  obtain ⟨address, middle, c₁, haddress, hrun⟩ := Drafting.bind_ok.mp hrun
  obtain ⟨rfl, rfl, rfl⟩ := Drafting.compute_ok haddress
  cases hrun
  exact ⟨by simp [guards], rfl⟩

theorem collect_guardPointer {operations : List Operation}
    (hrun : (guardPointer h v a).collect.run c = .ok ((u, operations), c')) :
    operations = guards h v a c.nextTemp ∧ c' = c.withTemps (c.nextTemp + 1) := guardPointer_ok hrun

end GuardCode

namespace FlowGraph

variable {c c' : FlowGraph} {k : Nat} {h : Hooks} {sites : List (Location × Operation)} {l : Location}
  {o : Operation} {v : Value} {a : Access}

def Holds (c : FlowGraph) (l : Location) (o : Operation) : Prop :=
  ∃ b i, c.block l.block = .ok b ∧ i ∈ b.instructions ∧ i.index = l.instruction ∧ i.operation = o

structure Grown (sites : List (Location × Operation)) (c : FlowGraph) : Prop where
  numbered : c.Numbered
  holds : ∀ e ∈ sites, c.Holds e.1 e.2

/-- The instruction of a location stands right behind a guard, which has a number of its own. -/
def Guarded (h : Hooks) (sites : List (Location × Operation)) (c : FlowGraph) (l : Location)
    (o : Operation) (v : Value) (a : Access) : Prop :=
  ∃ b x y z temp, c.block l.block = .ok b ∧ [x, y, z] <:+: b.instructions ∧ x.TakesAddress temp v ∧
    y.Validates h temp a ∧ z.index = l.instruction ∧ z.operation = o ∧
    ∀ e ∈ sites, e.1.block = l.block → y.index ≠ e.1.instruction

theorem holds_of_modifyBlock {f : Block → Outcome Block}
    (hf : ∀ b b', c.block k = .ok b → f b = .ok b' → ∀ i ∈ b.instructions,
      ∃ j ∈ b'.instructions, j.index = i.index ∧ j.operation = i.operation)
    (hl : c.Holds l o) (hc : c.modifyBlock k f = .ok c') : c'.Holds l o := by
  obtain ⟨b, i, hb, hi, hindex, hoperation⟩ := hl
  obtain ⟨x, x', hx, hx', rfl⟩ := modifyBlock_ok hc
  by_cases hk : l.block = k
  · rw [hk, hx] at hb
    cases hb
    obtain ⟨j, hj, hj₁, hj₂⟩ := hf b x' hx hx' i hi
    exact ⟨x', j, by rw [block_setVertex, if_pos hk], hj, hj₁.trans hindex, hj₂.trans hoperation⟩
  · exact ⟨b, i, by rw [block_setVertex, if_neg hk, hb], hi, hindex, hoperation⟩

theorem grown_of_inject {position : Block → Nat} {tags : List (String × String)}
    {operations : List Operation} (hgrown : c.Grown sites)
    (hc : c.modifyBlock k (fun b => b.inject (position b) tags operations) = .ok c') :
    c'.Grown sites := by
  constructor
  · exact Edit.keeps_inject k position tags operations c () c' hgrown.numbered (Edit.step_ok.mpr hc)
  · intro e he
    refine holds_of_modifyBlock ?_ (hgrown.holds e he) hc
    intro x x' _ hx i hi
    refine ⟨i, ?_, rfl, rfl⟩
    rw [Block.inject_ok hx]
    rw [← List.take_append_drop (position x) x.instructions] at hi
    rcases List.mem_append.mp hi with hi | hi
    · exact List.mem_append_left _ hi
    · exact List.mem_append_right _ (List.mem_append_right _ hi)

theorem grown_of_setTag {key value : String} (hgrown : c.Grown sites)
    (hc : c.modifyInstruction l (·.setTag key value) = .ok c') : c'.Grown sites := by
  constructor
  · exact Edit.keeps_setTag l key value c () c' hgrown.numbered (Edit.step_ok.mpr hc)
  · intro e he
    refine holds_of_modifyBlock (fun b b' hb hb' i hi => ?_) (hgrown.holds e he) hc
    rw [(Block.modify_ok (numbered_iff.mp hgrown.numbered _ b hb).2 hb').2]
    exact ⟨_, List.mem_map_of_mem hi, Block.tagAt_index _ _ _ i, Block.tagAt_operation _ _ _ i⟩

theorem guarded_of_setTag {key value : String} {l' : Location} (hnumbered : c.Numbered)
    (hguarded : c.Guarded h sites l o v a) (hc : c.modifyInstruction l' (·.setTag key value) = .ok c') :
    c'.Guarded h sites l o v a := by
  obtain ⟨b, x, y, z, temp, hb, hinfix, hx, hy, hz, ho, hfresh⟩ := hguarded
  obtain ⟨b₁, b', hb₁, hb', rfl⟩ := modifyBlock_ok hc
  by_cases hk : l.block = l'.block
  · rw [hk, hb₁] at hb
    cases hb
    let tagged := Block.changeAt l'.instruction (·.setTag key value)
    have hindex : ∀ i, (tagged i).index = i.index := Block.tagAt_index _ _ _
    have hoperation : ∀ i, (tagged i).operation = i.operation := Block.tagAt_operation _ _ _
    refine ⟨b', tagged x, tagged y, tagged z, temp, by rw [block_setVertex, if_pos hk], ?_,
      ⟨(hoperation x).trans hx.1, hx.2⟩, (hoperation y).trans hy, (hindex z).trans hz,
      (hoperation z).trans ho, ?_⟩
    · rw [(Block.modify_ok (numbered_iff.mp hnumbered _ _ hb₁).2 hb').2]
      exact hinfix.map tagged
    · intro e he hblock
      rw [hindex]
      exact hfresh e he hblock
  · exact ⟨b, x, y, z, temp, by rw [block_setVertex, if_neg hk, hb], hinfix, hx, hy, hz, ho, hfresh⟩

/-- Where code may be injected without parting a guard from what it guards: in front of an original
instruction, or behind a stack slot or a phi. -/
def Clear (sites : List (Location × Operation)) (l : Location) (k : Nat) (front back : List Instruction) :
    Prop :=
  (∀ i ∈ back.head?, ∃ e ∈ sites, e.1.block = k ∧ e.1.instruction = i.index ∧ e.1 ≠ l) ∨
    ∀ i ∈ front.getLast?, i.operation.isAlloca ∨ i.operation.isPhi

theorem guarded_of_inject {position : Block → Nat} {tags : List (String × String)}
    {operations : List Operation} (hguarded : c.Guarded h sites l o v a)
    (clear : ∀ b, c.block k = .ok b →
      Clear sites l k (b.instructions.take (position b)) (b.instructions.drop (position b)))
    (hc : c.modifyBlock k (fun b => b.inject (position b) tags operations) = .ok c') :
    c'.Guarded h sites l o v a := by
  obtain ⟨b, x, y, z, temp, hb, hinfix, hx, hy, hz, ho, hfresh⟩ := hguarded
  obtain ⟨b₁, b', hb₁, hb', rfl⟩ := modifyBlock_ok hc
  by_cases hk : l.block = k
  · rw [hk, hb₁] at hb
    cases hb
    refine ⟨b', x, y, z, temp, by rw [block_setVertex, if_pos hk], ?_, hx, hy, hz, ho, hfresh⟩
    rw [Block.inject_ok hb']
    apply infix_of_insert
    · rw [List.take_append_drop]
      exact hinfix
    · rcases clear b hb₁ with hback | hfront
      · refine .inl fun i hi hmem => ?_
        obtain ⟨e, he, hblock, hindex, hne⟩ := hback i hi
        rcases List.mem_cons.mp hmem with rfl | hmem
        · exact hfresh e he (hblock.trans hk.symm) hindex.symm
        · rw [List.mem_singleton.mp hmem, hz] at hindex
          apply hne
          cases l
          cases he' : e.1
          simp_all
      · refine .inr fun i hi hmem => ?_
        rcases List.mem_cons.mp hmem with rfl | hmem
        · have := hfront i hi
          rw [hx.1] at this
          simp [Operation.isAlloca, Operation.isPhi] at this
        · have := hfront i hi
          rw [List.mem_singleton.mp hmem, hy] at this
          simp [Operation.isAlloca, Operation.isPhi, Operation.notify] at this
  · exact ⟨b, x, y, z, temp, by rw [block_setVertex, if_neg hk, hb], hinfix, hx, hy, hz, ho, hfresh⟩

theorem position_ok {position : Nat} (hp : c.position l = .ok position) :
    ∃ b i, c.block l.block = .ok b ∧ i.index = l.instruction ∧
      b.instructions.drop position = i :: b.instructions.drop (position + 1) := by
  obtain ⟨b, hb, hp⟩ := bind_eq_ok.mp hp
  obtain ⟨i, hi, hdrop⟩ := Block.position?_some (orRaise_eq_ok.mp hp)
  exact ⟨b, i, hb, hi, hdrop⟩

theorem guarded_of_guard {tags : List (String × String)} {position number : Nat}
    (hgrown : c.Grown sites) (hsite : (l, o) ∈ sites) (hposition : c.position l = .ok position)
    (hc : c.modifyBlock l.block (fun b => b.inject position tags (GuardCode.guards h v a number)) = .ok c') :
    c'.Guarded h sites l o v a := by
  obtain ⟨b, z, hb, hz, hdrop⟩ := position_ok hposition
  obtain ⟨b₁, b', hb₁, hb', rfl⟩ := modifyBlock_ok hc
  rw [hb] at hb₁
  cases hb₁
  obtain ⟨-, hnumbered⟩ := numbered_iff.mp hgrown.numbered _ b hb
  have hz' : z ∈ b.instructions := List.mem_of_mem_drop (hdrop ▸ List.mem_cons_self)
  have ho : z.operation = o := by
    obtain ⟨b₂, i, hb₂, hi, hindex, hoperation⟩ := hgrown.holds _ hsite
    rw [hb] at hb₂
    cases hb₂
    rw [Block.eq_of_index_eq hnumbered.2 hz' hi (hz.trans hindex.symm), hoperation]
  let temp : Variable := .temporary number (.integer 64)
  let x := (Instruction.make b.nextIndex (.cast temp .ptrToInt v)).setTags tags
  let y := (Instruction.make (b.nextIndex + 1) (.notify h.guardAddress
    [.variable temp, .ofWord (if a.isWrite then 1 else 0) 32])).setTags tags
  refine ⟨b', x, y, z, temp, by rw [block_setVertex, if_pos rfl], ?_, ?_, ?_, hz, ho, ?_⟩
  · rw [Block.inject_ok hb', hdrop]
    exact ⟨b.instructions.take position, b.instructions.drop (position + 1),
      by simp [GuardCode.guards, Instruction.drafted, temp, x, y]⟩
  · exact ⟨Instruction.setTags_operation _ _, rfl⟩
  · exact Instruction.setTags_operation _ _
  · intro e he hblock
    obtain ⟨b₂, i, hb₂, hi, hindex, -⟩ := hgrown.holds _ he
    rw [hblock, hb] at hb₂
    cases hb₂
    have hlt := hnumbered.1 i hi
    have hy : y.index = b.nextIndex + 1 := Instruction.setTags_index _ _
    omega

end FlowGraph

namespace GuardDecision

open FlowGraph

variable {c c' : FlowGraph} {h : Hooks} {sites : List (Location × Operation)} {d : GuardDecision}
  {hoisted hoisted' : Hoisted} {count : Nat}

def IsLocal (d : GuardDecision) : Prop :=
  d.placement = .omitted ∨ d.placement = .before d.location ∧ d.shape = .single

theorem inject_ok (hrun : (d.inject h hoisted).run c = .ok ((count, hoisted'), c')) :
    ∃ c₁, c.modifyInstruction d.location (·.setTag Tag.guarded d.rule.text) = .ok c₁ ∧
      ((d.placement = .omitted → count = 0) ∧ ∀ l, d.placement = .before l → count = 1) ∧
      match d.placement with
      | .omitted => hoisted' = hoisted ∧ c' = c₁
      | .preheader header preheader =>
        (d.injectHoisted h hoisted header preheader).run c₁ = .ok ((count, hoisted'), c')
      | .before l => hoisted' = hoisted ∧ ∃ position, c₁.position l = .ok position ∧
        (c₁.withTemps (c₁.nextTemp + 1)).modifyBlock l.block (fun b =>
          b.inject position [(Tag.injected, "guard"), (Tag.rule, d.rule.text)]
            (GuardCode.guards h d.pointer d.access c₁.nextTemp)) = .ok c' := by
  obtain ⟨_, c₁, hc₁, hplace⟩ := Edit.bind_ok.mp hrun
  refine ⟨c₁, Edit.step_ok.mp hc₁, ?_⟩
  cases hd : d.placement with
  | omitted =>
    rw [hd] at hplace
    obtain ⟨hanswer, rfl⟩ := Edit.pure_ok.mp hplace
    cases hanswer
    exact ⟨⟨fun _ => rfl, fun _ h => (nomatch h)⟩, rfl, rfl⟩
  | preheader header preheader =>
    rw [hd] at hplace
    exact ⟨⟨fun h => (nomatch h), fun _ h => (nomatch h)⟩, hplace⟩
  | before l =>
    rw [hd] at hplace
    obtain ⟨position, c₂, hask, hrest⟩ := Edit.bind_ok.mp hplace
    obtain ⟨hposition, rfl⟩ := Edit.ask_ok.mp hask
    by_cases hrange : d.isRange
    · simp only [hrange, if_true] at hrest
      cases hrest
    · simp only [hrange, Bool.false_eq_true, if_false] at hrest
      obtain ⟨n, c₃, hinjection, hcount⟩ := Edit.bind_ok.mp hrest
      obtain ⟨⟨_, operations⟩, c₄, hguard, hcode⟩ := Edit.bind_ok.mp hinjection
      obtain ⟨_, c₅, hinject, hone⟩ := Edit.bind_ok.mp hcode
      obtain ⟨rfl, rfl⟩ := GuardCode.collect_guardPointer hguard
      obtain ⟨rfl, rfl⟩ := Edit.pure_ok.mp hone
      obtain ⟨hanswer, rfl⟩ := Edit.pure_ok.mp hcount
      cases hanswer
      exact ⟨⟨fun h => (nomatch h), fun _ _ => rfl⟩, rfl, position, hposition, Edit.step_ok.mp hinject⟩

theorem inject_local (hlocal : d.IsLocal)
    (hrun : (d.inject h hoisted).run c = .ok ((count, hoisted'), c')) :
    ∃ c₁, c.modifyInstruction d.location (·.setTag Tag.guarded d.rule.text) = .ok c₁ ∧
      (d.placement = .omitted ∧ c' = c₁ ∨
        d.placement = .before d.location ∧ ∃ position, c₁.position d.location = .ok position ∧
          (c₁.withTemps (c₁.nextTemp + 1)).modifyBlock d.location.block (fun b =>
            b.inject position [(Tag.injected, "guard"), (Tag.rule, d.rule.text)]
              (GuardCode.guards h d.pointer d.access c₁.nextTemp)) = .ok c') := by
  obtain ⟨c₁, htag, -, hplace⟩ := inject_ok hrun
  refine ⟨c₁, htag, ?_⟩
  rcases hlocal with homitted | ⟨hbefore, -⟩
  · rw [homitted] at hplace
    exact .inl ⟨homitted, hplace.2⟩
  · rw [hbefore] at hplace
    exact .inr ⟨hbefore, hplace.2⟩

variable {l : Location} {o : Operation} {v : Value} {a : Access}

theorem grown_of_inject_local (hlocal : d.IsLocal) (hgrown : c.Grown sites)
    (hrun : (d.inject h hoisted).run c = .ok ((count, hoisted'), c')) : c'.Grown sites := by
  obtain ⟨c₁, htag, hplace⟩ := inject_local hlocal hrun
  have hgrown₁ := grown_of_setTag hgrown htag
  rcases hplace with ⟨-, rfl⟩ | ⟨-, position, -, hinject⟩
  · exact hgrown₁
  · exact grown_of_inject (c := c₁.withTemps (c₁.nextTemp + 1)) ⟨hgrown₁.numbered, hgrown₁.holds⟩ hinject

theorem guarded_of_inject_local (hlocal : d.IsLocal) (hgrown : c.Grown sites) (hsite : (l, o) ∈ sites)
    (hd : ∃ o', (d.location, o') ∈ sites) (hsame : d.location = l → d.pointer = v ∧ d.access = a)
    (hrun : (d.inject h hoisted).run c = .ok ((count, hoisted'), c'))
    (hguarded : c.Guarded h sites l o v a ∨ d.location = l ∧ d.placement = .before l) :
    c'.Guarded h sites l o v a := by
  obtain ⟨c₁, htag, hplace⟩ := inject_local hlocal hrun
  have hgrown₁ := grown_of_setTag hgrown htag
  rcases hplace with ⟨homitted, rfl⟩ | ⟨hbefore, position, hposition, hinject⟩
  · rcases hguarded with hguarded | ⟨-, hbefore⟩
    · exact guarded_of_setTag hgrown.numbered hguarded htag
    · rw [homitted] at hbefore
      cases hbefore
  · have hgrown₂ : (c₁.withTemps (c₁.nextTemp + 1)).Grown sites := ⟨hgrown₁.numbered, hgrown₁.holds⟩
    by_cases hl : d.location = l
    · obtain ⟨rfl, rfl⟩ := hsame hl
      subst hl
      exact guarded_of_guard hgrown₂ hsite hposition hinject
    · rcases hguarded with hguarded | ⟨hl', -⟩
      · have hguarded₁ := guarded_of_setTag hgrown.numbered hguarded htag
        refine guarded_of_inject (c := c₁.withTemps (c₁.nextTemp + 1)) hguarded₁ ?_ hinject
        intro b hb
        obtain ⟨b', i, hb', hi, hdrop⟩ := position_ok hposition
        have hsame : b' = b := Except.ok.inj (hb'.symm.trans hb)
        subst hsame
        obtain ⟨o', ho'⟩ := hd
        refine .inl fun j hj => ⟨_, ho', rfl, ?_, hl⟩
        rw [hdrop] at hj
        cases hj
        exact hi.symm
      · exact absurd hl' hl

theorem injectAll_local {ds : List GuardDecision} (hlocal : ∀ d ∈ ds, d.IsLocal)
    (hsites : ∀ d ∈ ds, ∃ o, (d.location, o) ∈ sites) (hgrown : c.Grown sites)
    (hrun : (injectAll h ds hoisted).run c = .ok (count, c')) :
    c'.Grown sites ∧ ∀ l o v a, (l, o) ∈ sites →
      (∀ d ∈ ds, d.location = l → d.pointer = v ∧ d.access = a) →
      (c.Guarded h sites l o v a ∨ ∃ d ∈ ds, d.location = l ∧ d.placement = .before l) →
      c'.Guarded h sites l o v a := by
  induction ds generalizing c hoisted count with
  | nil =>
    obtain ⟨-, rfl⟩ := Edit.pure_ok.mp hrun
    refine ⟨hgrown, fun l o v a _ _ hguarded => ?_⟩
    rcases hguarded with hguarded | ⟨d, hd, -⟩
    · exact hguarded
    · cases hd
  | cons d rest ih =>
    obtain ⟨⟨n, hoisted₁⟩, c₁, hfirst, hrest⟩ := Edit.bind_ok.mp hrun
    obtain ⟨m, c₂, hothers, hcount⟩ := Edit.bind_ok.mp hrest
    obtain ⟨-, rfl⟩ := Edit.pure_ok.mp hcount
    have hd := hlocal d List.mem_cons_self
    have hgrown₁ := grown_of_inject_local hd hgrown hfirst
    obtain ⟨hgrown₂, hguards⟩ := ih (fun d hd => hlocal d (List.mem_cons_of_mem _ hd))
      (fun d hd => hsites d (List.mem_cons_of_mem _ hd)) hgrown₁ hothers
    refine ⟨hgrown₂, fun l o v a hsite hsame hguarded => ?_⟩
    have hsame' : ∀ d ∈ rest, d.location = l → d.pointer = v ∧ d.access = a :=
      fun d hd => hsame d (List.mem_cons_of_mem _ hd)
    have step := guarded_of_inject_local (a := a) (v := v) hd hgrown hsite (hsites d List.mem_cons_self)
      (hsame d List.mem_cons_self) hfirst
    rcases hguarded with hguarded | ⟨d', hd', hl, hbefore⟩
    · exact hguards l o v a hsite hsame' (.inl (step (.inl hguarded)))
    · rcases List.mem_cons.mp hd' with rfl | hd'
      · exact hguards l o v a hsite hsame' (.inl (step (.inr ⟨hl, hbefore⟩)))
      · exact hguards l o v a hsite hsame' (.inr ⟨d', hd', hl, hbefore⟩)

end GuardDecision

namespace StackGuardDecision

open FlowGraph

variable {c c' : FlowGraph} {h : Hooks} {sites : List (Location × Operation)} {l : Location}

theorem afterSlots_spec (b : Block) :
    (∃ s, (b.instructions.take (afterSlots b)).getLast? = some s ∧ s.operation.isAlloca) ∨
      ∀ i ∈ b.instructions.take (afterSlots b), i.operation.isPhi := by
  unfold afterSlots
  simp only
  split
  · right
    unfold Block.firstNonPhi
    rw [← List.prefix_iff_eq_take.mp (List.takeWhile_prefix _)]
    exact fun i hi => List.all_eq_true.mp List.all_takeWhile i hi
  · rename_i hsome
    left
    have hdrop : ∀ r : List Instruction, r.drop (r.takeWhile fun i => !i.operation.isAlloca).length =
        r.dropWhile fun i => !i.operation.isAlloca := by
      intro r
      conv_lhs =>
        arg 2
        rw [← List.takeWhile_append_dropWhile (p := fun i => !i.operation.isAlloca) (l := r)]
      rw [List.drop_left]
    rw [← List.head?_reverse, ← List.drop_reverse, hdrop]
    cases hhead : (b.instructions.reverse.dropWhile fun i => !i.operation.isAlloca).head? with
    | none =>
      have hall := List.takeWhile_append_dropWhile (p := fun i : Instruction => !i.operation.isAlloca)
        (l := b.instructions.reverse)
      rw [List.head?_eq_none_iff.mp hhead, List.append_nil] at hall
      exact absurd (by rw [hall, List.length_reverse]) hsome
    | some s =>
      have hnot := List.head?_dropWhile_not (fun i : Instruction => !i.operation.isAlloca) b.instructions.reverse
      rw [hhead] at hnot
      exact ⟨s, rfl, by simpa using hnot⟩

/-- The stack is guarded behind a stack slot or a phi, unless it is guarded before a call. -/
theorem afterSlots_last (b : Block) :
    ∀ i ∈ (b.instructions.take (afterSlots b)).getLast?, i.operation.isAlloca ∨ i.operation.isPhi := by
  intro i hi
  rcases afterSlots_spec b with ⟨s, hs, hslot⟩ | hphis
  · cases hs.symm.trans hi
    exact .inl hslot
  · exact .inr (hphis i (List.mem_of_getLast? hi))

theorem inject_ok {d : StackGuardDecision} {u : Unit} (hrun : (d.inject h).run c = .ok (u, c')) :
    ∃ k position, d.place c = .ok (k, position) ∧
      c.modifyBlock k (fun b => b.inject position [(Tag.injected, "stack-guard")]
        [.notify h.guardCalleeStack [.ofWord d.frameSize 64]]) = .ok c' := by
  obtain ⟨⟨k, position⟩, c₁, hplace, hinject⟩ := Edit.bind_ok.mp hrun
  obtain ⟨hplace, rfl⟩ := Edit.ask_ok.mp hplace
  exact ⟨k, position, hplace, Edit.step_ok.mp hinject⟩

theorem clear_of_place {d : StackGuardDecision} {k position : Nat} (hplace : d.place c = .ok (k, position))
    (hcall : ∀ l', d.placement = .beforeCall l' → (∃ o', (l', o') ∈ sites) ∧ l' ≠ l) {b : Block}
    (hb : c.block k = .ok b) :
    Clear sites l k (b.instructions.take position) (b.instructions.drop position) := by
  unfold place at hplace
  split at hplace
  · obtain ⟨entry, -, hplace⟩ := bind_eq_ok.mp hplace
    obtain ⟨b', hb', hplace⟩ := bind_eq_ok.mp hplace
    cases hplace
    rw [hb] at hb'
    cases hb'
    exact .inr (afterSlots_last b)
  · rename_i l' hl'
    obtain ⟨position', hposition, hplace⟩ := bind_eq_ok.mp hplace
    cases hplace
    obtain ⟨b', i, hb', hi, hdrop⟩ := position_ok hposition
    have hsame : b' = b := Except.ok.inj (hb'.symm.trans hb)
    subst hsame
    obtain ⟨⟨o', ho'⟩, hne⟩ := hcall l' hl'
    refine .inl fun j hj => ⟨_, ho', rfl, ?_, hne⟩
    rw [hdrop] at hj
    cases hj
    exact hi.symm

theorem forM_inject {ds : List StackGuardDecision} {u : PUnit} (hgrown : c.Grown sites)
    (hrun : (ds.forM fun d => d.inject h).run c = .ok (u, c')) :
    c'.Grown sites ∧ ∀ l o v a,
      (∀ d ∈ ds, ∀ l', d.placement = .beforeCall l' → (∃ o', (l', o') ∈ sites) ∧ l' ≠ l) →
      c.Guarded h sites l o v a → c'.Guarded h sites l o v a := by
  induction ds generalizing c with
  | nil =>
    obtain ⟨-, rfl⟩ := Edit.pure_ok.mp hrun
    exact ⟨hgrown, fun l o v a _ hguarded => hguarded⟩
  | cons d rest ih =>
    obtain ⟨_, c₁, hfirst, hrest⟩ := Edit.bind_ok.mp hrun
    obtain ⟨k, position, hplace, hinject⟩ := inject_ok hfirst
    obtain ⟨hgrown', hguards⟩ := ih (grown_of_inject hgrown hinject) hrest
    refine ⟨hgrown', fun l o v a hcalls hguarded => ?_⟩
    apply hguards l o v a fun d hd => hcalls d (List.mem_cons_of_mem _ hd)
    exact guarded_of_inject hguarded
      (fun b hb => clear_of_place hplace (hcalls d List.mem_cons_self) hb) hinject

end StackGuardDecision

namespace Function

open FlowGraph

def sitesOf (c : FlowGraph) : List (Location × Operation) :=
  c.blocks.flatMap fun b => b.instructions.map fun i => (⟨b.index, i.index⟩, i.operation)

theorem grown_sitesOf {c : FlowGraph} (hc : c.Numbered) : c.Grown (sitesOf c) := by
  refine ⟨hc, fun e he => ?_⟩
  obtain ⟨b, hb, he⟩ := List.mem_flatMap.mp he
  obtain ⟨i, hi, rfl⟩ := List.mem_map.mp he
  obtain ⟨k, hk⟩ := Table.mem_values_iff.mp hb
  have hkb := (numbered_iff.mp hc k b (block_eq_ok.mpr hk)).1
  exact ⟨b, i, by rw [hkb]; exact block_eq_ok.mpr hk, hi, rfl, rfl⟩

theorem mem_sitesOf {f : Function} {c : FlowGraph} (hc : f.body = some c) {l : Location} {i : Instruction}
    (h : (l, i) ∈ f.located) : (l, i.operation) ∈ sitesOf c := by
  unfold located blocks at h
  rw [hc] at h
  obtain ⟨b, hb, h⟩ := List.mem_flatMap.mp h
  obtain ⟨j, hj, h⟩ := List.mem_map.mp h
  cases h
  exact List.mem_flatMap.mpr ⟨b, hb, List.mem_map.mpr ⟨i, hj, rfl⟩⟩

theorem operation_unique {c : FlowGraph} (hc : c.Numbered) {l : Location} {o o' : Operation}
    (h : c.Holds l o) (h' : c.Holds l o') : o = o' := by
  obtain ⟨b, i, hb, hi, hindex, rfl⟩ := h
  obtain ⟨b', i', hb', hi', hindex', rfl⟩ := h'
  rw [hb] at hb'
  cases hb'
  rw [Block.eq_of_index_eq (numbered_iff.mp hc _ b hb).2.2 hi hi' (hindex.trans hindex'.symm)]

end Function

end RegionGuard

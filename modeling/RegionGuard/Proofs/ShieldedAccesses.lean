import RegionGuard.Proofs.Dues
set_option autoImplicit false

namespace RegionGuard

open FlowGraph

namespace Block

def IsSeam (b : Block) (position : Nat) : Prop :=
  (∀ i ∈ (b.instructions.drop position).head?, i.isInjected = false ∨ i.operation.isReturn) ∨
    ∀ i ∈ (b.instructions.take position).getLast?, i.operation.isAlloca ∨ i.operation.isPhi

theorem isSeam_zero (b : Block) : b.IsSeam 0 := by
  refine .inr fun i hi => ?_
  rw [List.take_zero] at hi
  cases hi

theorem isSeam_terminatorPosition (b : Block) : b.IsSeam b.terminatorPosition := by
  refine .inl fun i hi => ?_
  unfold terminatorPosition at hi
  cases hlast : b.instructions.getLast? with
  | none =>
    rw [List.getLast?_eq_none_iff.mp hlast] at hi
    cases hi
  | some j =>
    simp only [hlast] at hi
    split at hi
    · rename_i hreturn
      have hdrop : b.instructions.drop (b.instructions.length - 1) = [j] := by
        obtain ⟨front, hfront⟩ := List.getLast?_eq_some_iff.mp hlast
        rw [hfront]
        simp
      rw [hdrop] at hi
      cases hi
      exact .inr hreturn
    · rw [List.drop_length] at hi
      cases hi

/-- An instruction stands behind the guard of a pointer, with injected code only in between. -/
def Shields (h : Hooks) (index : Nat) (o : Operation) (v : Value) (a : Access) (b : Block) : Prop :=
  ∃ x y between z temp, x :: y :: (between ++ [z]) <:+: b.instructions ∧ x.TakesAddress temp v ∧ y.Validates h temp a ∧
    (∀ i ∈ x :: y :: between, i.isInjected) ∧ z.index = index ∧ z.operation = o

end Block

/-- What is put between two instructions of a row stays between them. -/
theorem infix_of_insert_between {α : Type} {x y z : α} {between front back : List α}
    (h : x :: y :: (between ++ [z]) <:+: front ++ back)
    (outside : ¬ (front.getLast? = some x ∧ back.head? = some y)) (new : List α) :
    ∃ between', x :: y :: (between' ++ [z]) <:+: front ++ (new ++ back) ∧ ∀ i ∈ between', i ∈ between ∨ i ∈ new := by
  obtain ⟨p, q, hpq⟩ := h
  rw [List.append_assoc] at hpq
  rcases List.append_eq_append_iff.mp hpq with ⟨front', rfl, hrest⟩ | ⟨back', rfl, rfl⟩
  · -- The row begins at the front, or behind it.
    match front', hrest with
    | [], hrest =>
      exact ⟨between, ⟨p ++ new, q, by simp_all⟩, fun i hi => .inl hi⟩
    | [x'], hrest =>
      simp only [List.cons_append, List.nil_append, List.cons.injEq] at hrest
      obtain ⟨rfl, rfl⟩ := hrest
      exact absurd ⟨List.getLast?_concat, rfl⟩ outside
    | x' :: y' :: middle, hrest =>
      simp only [List.cons_append, List.cons.injEq, List.append_assoc] at hrest
      obtain ⟨rfl, rfl, hrest⟩ := hrest
      rcases List.append_eq_append_iff.mp hrest with ⟨m, rfl, hm⟩ | ⟨m, rfl, rfl⟩
      · -- The split is behind everything in between.
        match m, hm with
        | [], hm =>
          simp only [List.nil_append] at hm
          subst hm
          refine ⟨between ++ new, ⟨p, q, by simp⟩, fun i hi => ?_⟩
          exact List.mem_append.mp hi
        | z' :: m, hm =>
          simp only [List.cons_append, List.nil_append, List.cons.injEq] at hm
          obtain ⟨rfl, rfl⟩ := hm
          exact ⟨between, ⟨p, m ++ (new ++ back), by simp⟩, fun i hi => .inl hi⟩
      · refine ⟨middle ++ (new ++ m), ⟨p, q, by simp⟩, fun i hi => ?_⟩
        simp only [List.mem_append] at hi ⊢
        tauto
  · exact ⟨between, ⟨front ++ (new ++ back'), q, by simp⟩, fun i hi => .inl hi⟩

theorem Block.stable_shields {h : Hooks} {index : Nat} {o : Operation} {v : Value} {a : Access} (notPhi : o.isPhi = false) :
    Stable IsSeam (Block.Shields h index o v a) where
  inject b b' position value tags operations hb hseam hb' := by
    obtain ⟨x, y, between, z, temp, hinfix, hx, hy, hinjected, hz, ho⟩ := hb
    rw [← List.take_append_drop position b.instructions] at hinfix
    have outside : ¬ ((b.instructions.take position).getLast? = some x ∧
        (b.instructions.drop position).head? = some y) := by
      rintro ⟨hfront, hback⟩
      rcases hseam with hseam | hseam
      · rcases hseam y hback with hnot | hreturn
        · rw [hinjected y (by simp)] at hnot
          cases hnot
        · rw [hy] at hreturn
          cases hreturn
      · rcases hseam x hfront with halloca | hphi
        · rw [hx.1] at halloca
          cases halloca
        · rw [hx.1] at hphi
          cases hphi
    rw [Block.inject_ok hb']
    obtain ⟨between', hinfix', hnew⟩ := infix_of_insert_between hinfix outside
      (Instruction.drafted ((Tag.injected, value) :: tags) b.nextIndex operations)
    refine ⟨x, y, between', z, temp, hinfix', hx, hy, fun i hi => ?_, hz, ho⟩
    rcases List.mem_cons.mp hi with rfl | hi
    · exact hinjected _ (by simp)
    rcases List.mem_cons.mp hi with rfl | hi
    · exact hinjected _ (by simp)
    rcases hnew i hi with hi | hi
    · exact hinjected i (by simp [hi])
    · exact Instruction.isInjected_of_mem_drafted hi
  map b f hb hf := by
    obtain ⟨x, y, between, z, temp, hinfix, hx, hy, hinjected, hz, ho⟩ := hb
    refine ⟨f x, f y, between.map f, f z, temp, ?_, ⟨?_, hx.2⟩, ?_, fun i hi => ?_, ?_, ?_⟩
    · have := hinfix.map f
      simpa using this
    · exact ((hf x).operation (by rw [hx.1]; rfl)).trans hx.1
    · exact ((hf y).operation (by rw [hy]; rfl)).trans hy
    · have hi' : i ∈ (x :: y :: between).map f := hi
      obtain ⟨j, hj, rfl⟩ := List.mem_map.mp hi'
      rw [(hf j).isInjected]
      exact hinjected j hj
    · exact (hf z).index.trans hz
    · exact ((hf z).operation (by rw [ho]; exact notPhi)).trans ho

namespace FlowGraph

variable {c c' body : FlowGraph} {h : Hooks} {k : Nat} {l : Location} {o : Operation} {v : Value} {a : Access}

def Stands (c : FlowGraph) (l : Location) (o : Operation) : Prop :=
  c.HasBlock l.block fun b => ∃ i ∈ b.instructions, i.index = l.instruction ∧ i.operation = o ∧ i.isInjected = false

theorem stable_stands (notPhi : o.isPhi = false) (fits : Block → Nat → Prop) (index : Nat) :
    Stable fits fun b => ∃ i ∈ b.instructions, i.index = index ∧ i.operation = o ∧ i.isInjected = false :=
  stable_exists (fun _ _ hij ⟨hindex, ho, hinjected⟩ => ⟨hij.index.trans hindex,
    (hij.operation (by rw [ho]; exact notPhi)).trans ho, hij.isInjected.trans hinjected⟩) fits

/-- Whatever was not injected into a graph is still in another one. -/
def Spares (body c : FlowGraph) : Prop := ∀ l o, o.isPhi = false → body.Stands l o → c.Stands l o

theorem indifferent_spares (body : FlowGraph) : Indifferent fun c => c.Numbered ∧ body.Spares c := by
  have hstands : ∀ l o, o.isPhi = false → Indifferent fun c => c.Numbered ∧ c.Stands l o := fun l o notPhi =>
    indifferent_hasBlock (stable_stands notPhi _ l.instruction) l.block
  exact
    { temps := fun c next h => ⟨h.1, fun l o notPhi hl => ((hstands l o notPhi).temps c next ⟨h.1, h.2 l o notPhi hl⟩).2⟩
      blocks := fun c c' h hv he => ⟨numbered_of_vertices h.1 hv, fun l o notPhi hl =>
        ((hstands l o notPhi).blocks c c' ⟨h.1, h.2 l o notPhi hl⟩ hv he).2⟩
      newBlock := fun c c' j h hn => ⟨numbered_of_newBlock h.1 hn, fun l o notPhi hl =>
        ((hstands l o notPhi).newBlock c c' j ⟨h.1, h.2 l o notPhi hl⟩ hn).2⟩
      inject := fun c c' j position v tags operations h hi =>
        ⟨indifferent_numbered.inject c c' j position v tags operations h.1 hi, fun l o notPhi hl =>
          ((hstands l o notPhi).inject c c' j position v tags operations ⟨h.1, h.2 l o notPhi hl⟩ hi).2⟩
      guarded := fun c c' l' value h hg => ⟨indifferent_numbered.guarded c c' l' value h.1 hg, fun l o notPhi hl =>
        ((hstands l o notPhi).guarded c c' l' value ⟨h.1, h.2 l o notPhi hl⟩ hg).2⟩
      renamed := fun c c' j old new h hr => ⟨indifferent_numbered.renamed c c' j old new h.1 hr, fun l o notPhi hl =>
        ((hstands l o notPhi).renamed c c' j old new ⟨h.1, h.2 l o notPhi hl⟩ hr).2⟩ }

theorem drop_position (numbered : c.Numbered) (hl : c.Stands l o) {position : Nat}
    (hposition : c.position l = .ok position) {b : Block} (hb : c.block l.block = .ok b) :
    ∃ i, b.instructions.drop position = i :: b.instructions.drop (position + 1) ∧ i.index = l.instruction ∧
      i.operation = o ∧ i.isInjected = false := by
  obtain ⟨b₁, hb₁, i, hi, hindex, ho, hinjected⟩ := hl
  obtain ⟨b₂, j, hb₂, hj, hdrop⟩ := position_ok hposition
  cases hb.symm.trans hb₁
  cases hb.symm.trans hb₂
  have hmem : j ∈ b.instructions := List.mem_of_mem_drop (hdrop ▸ List.mem_cons_self)
  obtain rfl := Block.eq_of_index_eq (numbered_iff.mp numbered _ b hb).2.2 hmem hi (hj.trans hindex.symm)
  exact ⟨j, hdrop, hj, ho, hinjected⟩

/-- The place in front of an instruction that was not injected is no place inside a guard. -/
theorem isSeam_of_position (numbered : c.Numbered) (hl : c.Stands l o) {position : Nat}
    (hposition : c.position l = .ok position) {b : Block} (hb : c.block l.block = .ok b) : b.IsSeam position := by
  obtain ⟨i, hdrop, -, -, hinjected⟩ := drop_position numbered hl hposition hb
  refine .inl fun x hx => ?_
  rw [hdrop] at hx
  cases hx
  exact .inl hinjected

theorem shields_of_guard (numbered : c.Numbered) (hl : c.Stands l o) {position : Nat}
    (hposition : c.position l = .ok position) {value : String} {tags : List (String × String)} {number : Nat}
    (hc : c.modifyBlock l.block (fun b => b.inject position ((Tag.injected, value) :: tags)
      (GuardCode.guards h v a number)) = .ok c') : c'.HasBlock l.block (Block.Shields h l.instruction o v a) := by
  obtain ⟨b, b', hb, hb', hk, -⟩ := block_modifyBlock hc
  obtain ⟨i, hdrop, hi, ho, -⟩ := drop_position numbered hl hposition hb
  let x := (Instruction.make b.nextIndex (.cast (.temporary number (.integer 64)) .ptrToInt v)).setTags
    ((Tag.injected, value) :: tags)
  let y := (Instruction.make (b.nextIndex + 1) (.notify h.guardAddress
    [.variable (.temporary number (.integer 64)), .ofWord (if a.isWrite then 1 else 0) 32])).setTags
    ((Tag.injected, value) :: tags)
  refine ⟨b', hk, x, y, [], i, .temporary number (.integer 64), ?_, ⟨Instruction.setTags_operation _ _, rfl⟩,
    Instruction.setTags_operation _ _, fun z hz => ?_, hi, ho⟩
  · rw [Block.inject_ok hb', hdrop]
    exact ⟨b.instructions.take position, b.instructions.drop (position + 1),
      by simp [GuardCode.guards, Instruction.drafted, x, y]⟩
  · have hz : z ∈ Instruction.drafted ((Tag.injected, value) :: tags) b.nextIndex (GuardCode.guards h v a number) := hz
    exact Instruction.isInjected_of_mem_drafted hz

theorem Tallied.and {n : Nat} {fits : Block → Nat → Prop} {T : Nat → FlowGraph → Prop} {P : FlowGraph → Prop}
    (hT : Tallied h n fits T) (hP : Indifferent P) : Tallied h n fits fun m c => T m c ∧ P c where
  start := hT.start
  terminator := hT.terminator
  bound m c h := hT.bound m c h.1
  temps m c next hnext h := ⟨hT.temps m c next hnext h.1, hP.temps c next h.2⟩
  blocks m c c' h hv he ht := ⟨hT.blocks m c c' h.1 hv he ht, hP.blocks c c' h.2 hv he⟩
  newBlock m c c' k h hn := ⟨hT.newBlock m c c' k h.1 hn, hP.newBlock c c' k h.2 hn⟩
  inject m c c' k position v tags operations h ho hfits hi :=
    ⟨hT.inject m c c' k position v tags operations h.1 ho hfits hi, hP.inject c c' k position v tags operations h.2 hi⟩
  guarded m c c' l value h hg := ⟨hT.guarded m c c' l value h.1 hg, hP.guarded c c' l value h.2 hg⟩
  renamed m c c' k old new h hr := ⟨hT.renamed m c c' k old new h.1 hr, hP.renamed c c' k old new h.2 hr⟩

theorem tallied_shields (notPhi : o.isPhi = false) (body : FlowGraph) (h : Hooks) (l : Location) (v : Value) (a : Access) :
    Tallied h 0 Block.IsSeam fun _ c =>
      (c.Numbered ∧ c.HasBlock l.block (Block.Shields h l.instruction o v a)) ∧ c.Numbered ∧ body.Spares c :=
  (tallied_hasBlock (Block.stable_shields notPhi) Block.isSeam_zero Block.isSeam_terminatorPosition h l.block).and
    (indifferent_spares body)

end FlowGraph

namespace GuardDecision

variable {body c c' : FlowGraph} {h : Hooks} {d : GuardDecision} {ds : List GuardDecision} {hoisted : Hoisted}
  {count : Nat} {o : Operation}

/-- A decision about an access that a graph makes, which is guarded nowhere else than before it or in front of a
loop. -/
def IsAbout (d : GuardDecision) (body : FlowGraph) : Prop :=
  (∃ o, o.isPhi = false ∧ body.Stands d.location o) ∧ ∀ l, d.placement = .before l → l = d.location

theorem isSeam_of_isAbout (about : d.IsAbout body) (numbered : c.Numbered) (spares : body.Spares c) {l : Location}
    (hl : d.placement = .before l) {position : Nat} (hposition : c.position l = .ok position) {b : Block}
    (hb : c.block l.block = .ok b) : b.IsSeam position := by
  obtain ⟨⟨o, notPhi, hstands⟩, hbefore⟩ := about
  obtain rfl := hbefore l hl
  exact isSeam_of_position numbered (spares _ o notPhi hstands) hposition hb

/-- An access with a guard of its own is shielded in the end, whatever else is decided. -/
theorem shields_of_injectAll (about : ∀ d ∈ ds, d.IsAbout body) (numbered : c.Numbered) (spares : body.Spares c)
    (hd : d ∈ ds) (hbefore : d.placement = .before d.location) (notPhi : o.isPhi = false)
    (hstands : body.Stands d.location o) (hrun : (injectAll h ds hoisted).run c = .ok (count, c')) :
    c'.HasBlock d.location.block (Block.Shields h d.location.instruction o d.pointer d.access) := by
  induction ds generalizing c hoisted count with
  | nil => cases hd
  | cons e rest ih =>
    obtain ⟨⟨k, hoisted₁⟩, c₁, hfirst, hrest⟩ := Edit.bind_ok.mp hrun
    obtain ⟨k', c₂, hothers, hcount⟩ := Edit.bind_ok.mp hrest
    obtain ⟨-, rfl⟩ := Edit.pure_ok.mp hcount
    have htagged := fun c₁ htag => (indifferent_spares body).guarded c c₁ e.location e.rule.text ⟨numbered, spares⟩ htag
    obtain ⟨numbered₁, spares₁⟩ :=
      steadfast_inject ((indifferent_spares body).steadfast h) htagged hfirst
    have hrestAbout : ∀ d ∈ rest, d.IsAbout body := fun d hd => about d (List.mem_cons_of_mem _ hd)
    rcases List.mem_cons.mp hd with rfl | hd
    · obtain ⟨c₀, htag, -, hplace⟩ := inject_ok hfirst
      rw [hbefore] at hplace
      obtain ⟨-, position, hposition, hinject⟩ := hplace
      obtain ⟨numbered₀, spares₀⟩ := htagged c₀ htag
      have hshields := shields_of_guard (c := c₀.withTemps (c₀.nextTemp + 1)) numbered₀ (spares₀ _ o notPhi hstands)
        hposition hinject
      exact (tallied_injectAll (m := 0) (tallied_shields notPhi body h d.location d.pointer d.access)
        (fun d hd l hl m c₁ position b hc₁ hposition hb =>
          isSeam_of_isAbout (hrestAbout d hd) hc₁.2.1 hc₁.2.2 hl hposition hb)
        ⟨⟨numbered₁, hshields⟩, numbered₁, spares₁⟩ hothers).1.2
    · exact ih hrestAbout numbered₁ spares₁ hd hothers

end GuardDecision

theorem StackGuardDecision.isSeam_of_place {body c : FlowGraph} {d : StackGuardDecision}
    (hcall : ∀ l, d.placement = .beforeCall l → ∃ o, o.isPhi = false ∧ body.Stands l o) (numbered : c.Numbered)
    (spares : body.Spares c) {k position : Nat} (hplace : d.place c = .ok (k, position)) {b : Block}
    (hb : c.block k = .ok b) : b.IsSeam position := by
  unfold place at hplace
  split at hplace
  · obtain ⟨entry, -, hplace⟩ := bind_eq_ok.mp hplace
    obtain ⟨b', hb', hplace⟩ := bind_eq_ok.mp hplace
    cases hplace
    cases hb.symm.trans hb'
    exact .inr (afterSlots_last b)
  · rename_i l hl
    obtain ⟨position', hposition, hplace⟩ := bind_eq_ok.mp hplace
    cases hplace
    obtain ⟨o, notPhi, hstands⟩ := hcall l hl
    exact isSeam_of_position numbered (spares l o notPhi hstands) hposition hb

/-- An operation that code is injected neither behind, because it is there, nor in front of. -/
def Operation.IsInner (o : Operation) : Prop := o.isReturn = false ∧ o.isAlloca = false ∧ o.isPhi = false

theorem Operation.IsGuarding.isInner {h : Hooks} {n : Nat} {o : Operation} (ho : o.IsGuarding h n) : o.IsInner := by
  rcases ho with ⟨dst, hdst, -⟩ | ⟨name, -, arguments, rfl⟩
  · unfold IsInner
    cases o with
    | ret | alloca | phi => cases hdst
    | _ => exact ⟨rfl, rfl, rfl⟩
  · exact ⟨rfl, rfl, rfl⟩

namespace Block

variable {P Q : Instruction → Prop} {code operations : List Operation} {b b' : Block} {position : Nat} {v : String}
  {tags : List (String × String)}

/-- Injected code performs some operations, one directly after the other, between other instructions. -/
def Frames (P Q : Instruction → Prop) (code : List Operation) (b : Block) : Prop :=
  ∃ front new back, b.instructions = front ++ (new ++ back) ∧ (∀ i ∈ front, P i) ∧ (∀ i ∈ new, i.isInjected = true) ∧
    new.map (·.operation) = code ∧ ∀ i ∈ back, Q i

theorem IsSeam.parts {front before after back : List Instruction} (hseam : b.IsSeam position)
    (htake : b.instructions.take position = front ++ before) (hdrop : b.instructions.drop position = after ++ back)
    (injected : ∀ i ∈ before ++ after, i.isInjected = true)
    (inner : ∀ i ∈ before ++ after, i.operation.IsInner) : before = [] ∨ after = [] := by
  rcases List.eq_nil_or_concat' before with rfl | ⟨before, y, rfl⟩
  · exact .inl rfl
  cases after with
  | nil => exact .inr rfl
  | cons x after =>
    have hx : x ∈ before ++ [y] ++ x :: after := List.mem_append_right _ List.mem_cons_self
    have hy : y ∈ before ++ [y] ++ x :: after := by simp
    obtain ⟨notReturn, -, -⟩ := inner x hx
    obtain ⟨-, notAlloca, notPhi⟩ := inner y hy
    rcases hseam with hseam | hseam
    · rcases hseam x (by rw [hdrop]; rfl) with hnot | hreturn
      · rw [injected x hx] at hnot
        cases hnot
      · rw [notReturn] at hreturn
        cases hreturn
    · have hlast := hseam y (by rw [htake, ← List.append_assoc, List.getLast?_concat]; rfl)
      rw [notAlloca, notPhi] at hlast
      rcases hlast with halloca | hphi
      · cases halloca
      · cases hphi

theorem Frames.inject (hb : b.Frames P Q code) (inner : ∀ o ∈ code, o.IsInner)
    (fits : ∀ i ∈ Instruction.drafted ((Tag.injected, v) :: tags) b.nextIndex operations, P i ∧ Q i)
    (hseam : b.IsSeam position) (hb' : b.inject position ((Tag.injected, v) :: tags) operations = .ok b') :
    b'.Frames P Q code := by
  obtain ⟨front, new, back, hb, hfront, hnew, hoperations, hback⟩ := hb
  generalize hmore : Instruction.drafted ((Tag.injected, v) :: tags) b.nextIndex operations = more at fits
  have hinstructions : b'.instructions = b.instructions.take position ++ (more ++ b.instructions.drop position) := by
    rw [← hmore]
    exact congrArg Block.instructions (inject_ok hb')
  have hsplit := (List.take_append_drop position b.instructions).trans hb
  rcases List.append_eq_append_iff.mp hsplit with ⟨between, rfl, hdrop⟩ | ⟨between, htake, hrest⟩
  · refine ⟨b.instructions.take position ++ (more ++ between), new, back, by rw [hinstructions, hdrop]; simp, fun i hi => ?_,
      hnew, hoperations, hback⟩
    simp only [List.mem_append] at hi hfront
    rcases hi with hi | hi | hi
    · exact hfront i (.inl hi)
    · exact (fits i hi).1
    · exact hfront i (.inr hi)
  rcases List.append_eq_append_iff.mp hrest with ⟨behind, rfl, rfl⟩ | ⟨behind, rfl, hdrop⟩
  · refine ⟨front, new, behind ++ (more ++ b.instructions.drop position), by rw [hinstructions, htake]; simp, hfront, hnew,
      hoperations, fun i hi => ?_⟩
    simp only [List.mem_append] at hi hback
    rcases hi with hi | hi | hi
    · exact hback i (.inl hi)
    · exact (fits i hi).2
    · exact hback i (.inr hi)
  have hinner : ∀ i ∈ between ++ behind, i.operation.IsInner := fun i hi =>
    inner _ (hoperations ▸ List.mem_map_of_mem hi)
  rcases hseam.parts htake hdrop hnew hinner with rfl | rfl
  · refine ⟨front ++ more, [] ++ behind, back, by rw [hinstructions, htake, hdrop]; simp, fun i hi => ?_, hnew, hoperations,
      hback⟩
    exact (List.mem_append.mp hi).elim (hfront i) fun hi => (fits i hi).1
  · refine ⟨front, between ++ [], more ++ back, by rw [hinstructions, htake, hdrop]; simp, hfront, hnew, hoperations,
      fun i hi => ?_⟩
    exact (List.mem_append.mp hi).elim (fun hi => (fits i hi).2) (hback i)

theorem Frames.map (hb : b.Frames P Q code) (inner : ∀ o ∈ code, o.IsInner) {f : Instruction → Instruction}
    (hf : ∀ i, (f i).isInjected = i.isInjected ∧ (i.operation.isPhi = false → (f i).operation = i.operation))
    (hP : ∀ i, P i → P (f i)) (hQ : ∀ i, Q i → Q (f i)) :
    ({ b with instructions := b.instructions.map f } : Block).Frames P Q code := by
  obtain ⟨front, new, back, hb, hfront, hnew, rfl, hback⟩ := hb
  refine ⟨front.map f, new.map f, back.map f, by simp [hb], fun i hi => ?_, fun i hi => ?_, ?_, fun i hi => ?_⟩
  · obtain ⟨j, hj, rfl⟩ := List.mem_map.mp hi
    exact hP j (hfront j hj)
  · obtain ⟨j, hj, rfl⟩ := List.mem_map.mp hi
    exact (hf j).1.trans (hnew j hj)
  · rw [List.map_map]
    exact List.map_congr_left fun i hi => (hf i).2 (inner _ (List.mem_map_of_mem hi)).2.2
  · obtain ⟨j, hj, rfl⟩ := List.mem_map.mp hi
    exact hQ j (hback j hj)

end Block

namespace Instruction

variable {h : Hooks} {n : Nat} {i j : Instruction}

/-- What comes to stand behind a guard at the end of a block: a return, and guards with other temporaries. -/
def Trails (h : Hooks) (n : Nat) (i : Instruction) : Prop :=
  i.operation.isReturn = true ∨ i.operation.IsGuarding h n

theorem Trails.notPhi (hi : i.Trails h n) : i.operation.isPhi = false := by
  rcases hi with hreturn | hguarding
  · cases ho : i.operation <;> rw [ho] at hreturn <;> first | rfl | cases hreturn
  · exact hguarding.isInner.2.2

theorem Trails.follow (hi : i.Trails h n) (hij : i.Follows j) : j.Trails h n := by
  unfold Trails
  rw [hij.operation hi.notPhi]
  exact hi

theorem mem_operations_of_mem_drafted {tags : List (String × String)} {next : Nat} {operations : List Operation}
    (hi : i ∈ drafted tags next operations) : i.operation ∈ operations := by
  rw [← drafted_operations tags next operations]
  exact List.mem_map_of_mem hi

end Instruction

theorem Block.isReturn_of_terminatorPosition (b : Block) :
    ∀ i ∈ b.instructions.drop b.terminatorPosition, i.operation.isReturn = true := by
  intro i hi
  rcases b.terminatorPosition_split with ⟨-, hdrop⟩ | ⟨_, r, -, hr, -, hdrop⟩
  · rw [hdrop] at hi
    cases hi
  · rw [hdrop] at hi
    rw [List.mem_singleton.mp hi]
    exact hr

theorem Block.Frames.follow {h : Hooks} {n : Nat} {code : List Operation} {b : Block}
    (hb : b.Frames (fun _ => True) (·.Trails h n) code) (inner : ∀ o ∈ code, o.IsInner) {f : Instruction → Instruction}
    (hf : ∀ i, Instruction.Follows i (f i)) :
    ({ b with instructions := b.instructions.map f } : Block).Frames (fun _ => True) (·.Trails h n) code :=
  hb.map inner (fun i => ⟨(hf i).isInjected, (hf i).operation⟩) (fun _ _ => trivial) fun i hi => hi.follow (hf i)

namespace FlowGraph

variable {c c' : FlowGraph} {h : Hooks} {n k : Nat} {code : List Operation}

/-- Injected code performs some operations in a block, with the temporaries below a number. -/
structure Hosts (h : Hooks) (n k : Nat) (code : List Operation) (c : FlowGraph) : Prop where
  numbered : c.Numbered
  temps : n ≤ c.nextTemp
  frames : c.HasBlock k (Block.Frames (fun _ => True) (·.Trails h n) code)

theorem tallied_hosts (inner : ∀ o ∈ code, o.IsInner) : Tallied h n Block.IsSeam fun _ => Hosts h n k code where
  start := Block.isSeam_zero
  terminator := Block.isSeam_terminatorPosition
  bound _ _ hc := hc.temps
  temps _ _ _ hnext hc := ⟨hc.numbered, Nat.le_trans hc.temps hnext, hc.frames⟩
  blocks _ _ _ hc hv _ ht := ⟨numbered_of_vertices hc.numbered hv, hc.temps.trans_eq ht.symm, hc.frames.of_vertices hv⟩
  newBlock _ _ _ _ hc hn :=
    ⟨numbered_of_newBlock hc.numbered hn, hc.temps.trans_eq (newBlock_ok hn).2.2.2.1.symm, hc.frames.newBlock hn⟩
  inject _ c c' j position v tags operations hc ho hfits hi := by
    refine ⟨indifferent_numbered.inject c c' j position v tags operations hc.numbered hi,
      hc.temps.trans_eq (modifyBlock_fields hi).2.1.symm, hc.frames.modifyBlock hi fun b b' hb hframes hb' => ?_⟩
    exact hframes.inject inner
      (fun i hmem => ⟨trivial, .inr (ho _ (Instruction.mem_operations_of_mem_drafted hmem))⟩) (hfits b hb) hb'
  guarded _ c c' l value hc hg := by
    refine ⟨indifferent_numbered.guarded c c' l value hc.numbered hg,
      hc.temps.trans_eq (modifyBlock_fields hg).2.1.symm, hc.frames.modifyBlock hg fun b b' hb hframes hb' => ?_⟩
    obtain ⟨-, rfl⟩ := Block.modify_ok (numbered_iff.mp hc.numbered _ b hb).2 hb'
    exact hframes.follow inner fun i => .setTag_changeAt (by decide)
  renamed _ c c' j old new hc hr := by
    refine ⟨indifferent_numbered.renamed c c' j old new hc.numbered hr,
      hc.temps.trans_eq (modifyBlock_fields hr).2.1.symm, hc.frames.modifyBlock hr fun b b' hb hframes hb' => ?_⟩
    cases hb'
    exact hframes.follow inner fun i => .renameIncoming

theorem hosts_of_inject {position : Block → Nat} {v : String} {tags : List (String × String)} (numbered : c.Numbered)
    (temps : n ≤ c.nextTemp)
    (returns : ∀ b, c.block k = .ok b → ∀ i ∈ b.instructions.drop (position b), i.operation.isReturn = true)
    (hc : c.modifyBlock k (fun b => b.inject (position b) ((Tag.injected, v) :: tags) code) = .ok c') : c'.Hosts h n k code := by
  obtain ⟨b, b', hb, hb', hk, -⟩ := block_modifyBlock hc
  exact ⟨indifferent_numbered.inject c c' k position v tags code numbered hc, temps.trans_eq (modifyBlock_fields hc).2.1.symm,
    b', hk, _, _, _, congrArg Block.instructions (Block.inject_ok hb'), fun _ _ => trivial,
    fun i hi => Instruction.isInjected_of_mem_drafted hi, Instruction.drafted_operations .., fun i hi => .inl (returns b hb i hi)⟩

end FlowGraph

end RegionGuard

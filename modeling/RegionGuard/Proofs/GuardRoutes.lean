import RegionGuard.Proofs.WovenPasses
set_option autoImplicit false

namespace RegionGuard

open FlowGraph Edit
open Activation (phis)

namespace FlowGraph

variable {h : Hooks} {r : Routes} {c c' c'' : FlowGraph} {y x : Nat}

structure Clean (c : FlowGraph) : Prop where
  decided : c.Decided
  wired : c.graph.Wired
  tidy : c.Tidy

structure Funnels (c : FlowGraph) (y x : Nat) : Prop where
  leads : (c.graph.edges.get? (y, x)).isSome
  sole : ∀ b, (c.graph.edges.get? (y, b)).isSome → b = x

theorem Funnels.congr (hf : c.Funnels y x) (hedges : ∀ b, c'.graph.edges.get? (y, b) = c.graph.edges.get? (y, b)) :
    c'.Funnels y x :=
  ⟨by rw [hedges]; exact hf.leads, fun b hb => hf.sole b (by rw [← hedges]; exact hb)⟩

theorem Funnels.of_edgesOut (wired : c.graph.Wired) (filed : c.graph.Filed) {e : Edge}
    (he : c.graph.edgesOut y = .ok [e]) (htail : e.tail = x) : c.Funnels y x := by
  obtain ⟨s, hs, hall⟩ := Graph.edgesOut_eq_ok.mp he
  have hmem : ∀ b, b ∈ s.keys ↔ (c.graph.edges.get? (y, b)).isSome := by
    intro b
    rw [← wired.successors, Graph.successorsOf, hs]
    rfl
  have hone : s.keys = [x] := by
    cases hl : s.keys with
    | nil =>
      rw [hl] at hall
      cases hall
    | cons z rest =>
      rw [hl] at hall
      cases hall with
      | cons hhead htail' =>
        cases htail'
        rw [← htail]
        exact congrArg (· :: []) (filed _ _ _ hhead).2.symm
  refine ⟨(hmem x).mp (by rw [hone]; exact List.mem_cons_self), fun b hb => ?_⟩
  have := (hmem b).mpr hb
  rw [hone] at this
  exact List.mem_singleton.mp this

/-- What a block of the other graph offers mentions no temporaries that are not given out there. -/
theorem Clean.avoids_of_offers (clean : c.Clean) {t : Nat} {vs : List Value} (old : r.toward y = none)
    (hoffers : r.Offers c y t vs) : ∀ v ∈ vs, v.Avoids c.nextTemp := by
  intro v hv
  obtain ⟨b, hb, htakes⟩ := hoffers.old old
  obtain ⟨a, ha, harriving⟩ := exists_of_mem_forall₂ htakes hv
  obtain ⟨i, hi, ho⟩ := mem_phis ha
  refine (clean.tidy.code _ b (block_eq_ok.mp hb) i hi).avoids.reads v ?_
  rw [ho]
  exact List.mem_map.mpr ⟨(v, y), Preheader.mem_of_arriving? harriving, rfl⟩

namespace Carries

theorem exists_offers (clean : c.Clean) (hc : Carries h r c c') {e : Edge}
    (he : c'.graph.edges.get? (y, x) = some e) :
    ∃ vs, r.Offers c y (r.target x) vs ∧ ∀ v ∈ vs, v.Avoids c'.nextTemp := by
  obtain ⟨vs, hoffers, -⟩ := (hc.ways y x e he).values
  refine ⟨vs, hoffers, fun v hv => ?_⟩
  cases hy : r.toward y with
  | some t =>
    have hsome : (r.toward y).isSome := by rw [hy]; rfl
    exact hc.brought y hsome v (hoffers.new hsome ▸ hv)
  | none => exact (clean.avoids_of_offers hy hoffers v hv).mono hc.temps

end Carries

end FlowGraph

structure GuardsRange (h : Hooks) (c c' : FlowGraph) (y x join : Nat) (c'' : FlowGraph) : Prop where
  carries : ∃ r, Carries h r c c''
  funnels : c''.Funnels join x
  retains : c'.Retains c''
  others : ∀ a b, a ≠ y → (∃ z, (c'.graph.edges.get? (a, z)).isSome) →
    c''.graph.edges.get? (a, b) = c'.graph.edges.get? (a, b)

namespace GuardDecision

variable {h : Hooks} {r : Routes} {c c' c'' : FlowGraph} {d : GuardDecision} {plan : RangePlan} {y x join : Nat}

theorem isExtra_of_mayHoist {m : Margin} {operations : List Operation} (hall : ∀ o ∈ operations, o.MayHoist m) :
    ∀ o ∈ operations, o.IsExtra m.hooks m.temps := fun o ho => (hall o ho).isExtra

/-- The guards of a range that is always entered go to the end of the block in front of it. -/
theorem carries_injectRange_above (tested : plan.topTested = false) (hc : Carries h r c c') (funnels : c'.Funnels y x)
    (hrun : (d.injectRange h plan y x).run c' = .ok (join, c'')) : GuardsRange h c c' y x join c'' := by
  let m := c'.margin h fun _ _ _ => False
  obtain ⟨operations, c₁, rfl, hcollect, hm⟩ := injectRange_above_ok tested hrun
  obtain ⟨hoperations, next, hnext, rfl⟩ := Drafting.Adds.collect_ok
    ((GuardCode.adds_entersLoop (m := m) plan).bind fun _ => GuardCode.adds_guardRange plan d.access _)
    (Nat.le_refl _) hcollect
  obtain ⟨hc', hretains⟩ := hc.inject hnext (isExtra_of_mayHoist hoperations)
    (fun b _ => leading_le_terminatorPosition b) hm
  have hedges : ∀ a b, c''.graph.edges.get? (a, b) = c'.graph.edges.get? (a, b) := fun a b => by
    rw [edges_modifyBlock hm]
    rfl
  exact ⟨⟨r, hc'⟩, funnels.congr (hedges join), hretains, fun a b _ _ => hedges a b⟩

/-- The guards of a range that may not be entered go into new blocks, which lead to the header as the block in
front of it did. -/
theorem carries_injectRange_around (tested : plan.topTested) (clean : c.Clean) (hc : Carries h r c c')
    (funnels : c'.Funnels y x) (hrun : (d.injectRange h plan y x).run c' = .ok (join, c'')) :
    GuardsRange h c c' y x join c'' := by
  let m := c'.margin h fun _ _ _ => False
  obtain ⟨enters, test, c₁, c₂, operations, c₃, guards, c₄, c₅, c₆, e, c₇, c₈, c₉, c₁₀, c₁₁, htest,
    hinject, hcollect, hguards, hfill, hjoin, hremove, hthrough, hpast, hpasses, hjoins, hrename⟩ :=
    injectRange_around_ok tested hrun
  -- The test goes to the end of the block.
  obtain ⟨htests, next, hnext, rfl⟩ := (GuardCode.adds_entersLoop (m := m) plan).collect_ok (Nat.le_refl _) htest
  obtain ⟨hc₂, hretains₂⟩ := hc.inject hnext (isExtra_of_mayHoist htests) (fun b _ => leading_le_terminatorPosition b) hinject
  have funnels₂ : c₂.Funnels y x := funnels.congr fun b => by rw [edges_modifyBlock hinject]; rfl
  obtain ⟨e₂, he₂⟩ := Option.isSome_iff_exists.mp funnels₂.leads
  obtain ⟨vs, hoffers, havoids⟩ := hc₂.exists_offers clean he₂
  have htarget := hc₂.exists_target he₂
  -- The guards go into a block of their own.
  let m₂ := c₂.margin h fun _ _ _ => False
  obtain ⟨hoperations, next', hnext', rfl⟩ :=
    (GuardCode.adds_guardRange (m := m₂) plan d.access none).collect_ok (Nat.le_refl _) hcollect
  obtain ⟨c₄', hguards', rfl⟩ := newBlock_withTemps hguards
  obtain ⟨hc₄, hnone₄, hfresh₄⟩ := hc₂.newBlock hguards' htarget havoids
  obtain ⟨hg, -, -, htemps₄, -⟩ := newBlock_ok hguards'
  obtain ⟨hempty₄, hothers₄⟩ := block_newBlock hguards'
  obtain ⟨hc₅, hretains₅⟩ := hc₄.inject (htemps₄ ▸ hnext') (htemps₄.symm ▸ isExtra_of_mayHoist hoperations)
    (fun b hb => by
      cases hempty₄.symm.trans hb
      exact Nat.le_refl _) hfill
  -- Both ways meet in another block.
  obtain ⟨hj, hknown, -, htemps₆, -⟩ := newBlock_ok hjoin
  obtain ⟨hempty₆, hothers₆⟩ := block_newBlock hjoin
  obtain ⟨_, htemps₅, hnext₅⟩ := modifyBlock_fields hfill
  have htemps₅ : c₂.nextTemp ≤ c₅.nextTemp := htemps₅ ▸ hnext'
  obtain ⟨hc₆, hnone₆, hfresh₆⟩ := hc₅.newBlock hjoin htarget fun w hw => (havoids w hw).mono htemps₅
  have hedges₆ : ∀ a b, c₆.graph.edges.get? (a, b) = c₂.graph.edges.get? (a, b) := by
    intro a b
    rw [edges_newBlock hjoin, edges_modifyBlock hfill]
    exact congrArg (Table.get? · (a, b)) (show c₄'.graph.edges = c₂.graph.edges from edges_newBlock hguards')
  have hnext₄ : guards < c₅.nextBlock := by
    rw [hnext₅]
    change guards < c₄'.nextBlock
    have := (newBlock_ok hguards').2.1
    omega
  have hends : ∀ a b, (c₂.graph.edges.get? (a, b)).isSome → a < guards ∧ b < guards := by
    intro a b hab
    obtain ⟨ha, hb⟩ := hc₂.orderly.wired.ends a b hab
    obtain ⟨ba, hba⟩ := Option.isSome_iff_exists.mp ha
    obtain ⟨bb, hbb⟩ := Option.isSome_iff_exists.mp hb
    have h₁ := hc₂.orderly.bounded a ba (block_eq_ok.mpr hba)
    have h₂ := hc₂.orderly.bounded b bb (block_eq_ok.mpr hbb)
    omega
  obtain ⟨hy, hx⟩ := hends y x funnels₂.leads
  have hbypassed := bypassed hc₆.orderly (fun b hb => funnels₂.sole b (hedges₆ y b ▸ hb))
    (fun b => by
      rw [hedges₆]
      rw [← edges_newBlock hguards']
      exact (hfresh₄ b).1)
    (fun b => (hfresh₆ b).1) hy (by omega) (by omega) hremove hthrough
    hpast hpasses hjoins hrename
  have hplain₅ : ∃ b, c₅.block guards = .ok b ∧ phis b.instructions = [] := by
    obtain ⟨b, b', hb, hb', hk, -⟩ := block_modifyBlock hfill
    cases hempty₄.symm.trans hb
    refine ⟨b', hk, ?_⟩
    rw [(Block.grows_of_inject (Nat.le_refl _) (isExtra_of_mayHoist hoperations) hb').phis]
    rfl
  obtain ⟨b₅, hb₅, hphis₅⟩ := hplain₅
  have hguards₆ : guards ≠ join := by omega
  have htoward : ∀ j, j ≠ guards → j ≠ join →
      ((r.set guards (r.target x) vs).set join (r.target x) vs).toward j = r.toward j ∧
      ((r.set guards (r.target x) vs).set join (r.target x) vs).brings j = r.brings j := fun j h₁ h₂ =>
    ⟨(Routes.toward_set_of_ne h₂).trans (Routes.toward_set_of_ne h₁),
      (Routes.brings_set_of_ne h₂).trans (Routes.brings_set_of_ne h₁)⟩
  obtain ⟨htowardx, -⟩ := htoward x (by omega) (by omega)
  obtain ⟨htowardy, hbringsy⟩ := htoward y (by omega) (by omega)
  have hcarries := hc₆.bypass clean.decided clean.wired (hedges₆ y x ▸ he₂)
    (fun b hb => funnels₂.sole b (hedges₆ y b ▸ hb)) (Routes.target_congr htowardx)
    (hoffers.congr htowardy hbringsy)
    ⟨(Routes.toward_set_of_ne hguards₆).trans Routes.toward_set_self,
      (Routes.brings_set_of_ne hguards₆).trans Routes.brings_set_self⟩
    ⟨Routes.toward_set_self, Routes.brings_set_self⟩
    (fun j hj => by
      rcases hj with rfl | rfl
      · exact ⟨by omega, b₅, (hothers₆ _ hguards₆).trans hb₅, hphis₅⟩
      · exact ⟨by omega, _, hempty₆, rfl⟩)
    (fun b hb e he l hl => by
      obtain ⟨i, hi, ho⟩ := mem_phis he
      have := hc₅.orderly.known x b ((hothers₆ x (by omega)).symm.trans hb) i hi _ _ ho l hl
      omega)
    (fun z => by rw [(hfresh₆ z).1]; rfl) hbypassed
  have hretains := hretains₂.trans <| (retains_of_newBlock hc₂.orderly hguards').trans <|
    hretains₅.trans <| (retains_of_newBlock hc₅.orderly hjoin).trans hbypassed.retains
  refine ⟨⟨_, hcarries⟩, ⟨hbypassed.arrives, fun b hb => ?_⟩, hretains, fun a b hay hz => ?_⟩
  · obtain ⟨e', he'⟩ := Option.isSome_iff_exists.mp hb
    exact hbypassed.joins b e' he'
  · obtain ⟨z, hz⟩ := hz
    have hedges₂ : ∀ b, c₂.graph.edges.get? (a, b) = c'.graph.edges.get? (a, b) := fun b => by
      rw [edges_modifyBlock hinject]
      rfl
    have ha := (hends a z (hedges₂ z ▸ hz)).1
    rw [hbypassed.others a b (by omega), hedges₆, hedges₂]

/-- What is known of a graph while its guards are injected: it carries the original one, has all instructions of the
one that was decided on, and its loops are entered from the blocks that were recorded. -/
structure Guarding (h : Hooks) (c decided : FlowGraph) (forest : LoopForest) (hoisted : Hoisted) (c' : FlowGraph) :
    Prop where
  carries : ∃ r, Carries h r c c'
  retains : decided.Retains c'
  entering : ∀ l ∈ forest.toList, ∀ preheader, l.preheader = some preheader →
    c'.Funnels ((hoisted.entering.get? l.header).getD preheader) l.header

namespace Guarding

variable {decided : FlowGraph} {forest : LoopForest} {hoisted hoisted' : Hoisted} {l : NaturalLoop} {preheader : Nat}

/-- Extra code in blocks that are there changes nothing about this. -/
theorem grow (g : Guarding h c decided forest hoisted c') (hentering : hoisted'.entering = hoisted.entering)
    (hc : ∀ r, Carries h r c c' → Carries h r c c'' ∧ c'.Retains c'') (hedges : c''.graph.edges = c'.graph.edges) :
    Guarding h c decided forest hoisted' c'' := by
  obtain ⟨r, hr⟩ := g.carries
  obtain ⟨hr', hretains⟩ := hc r hr
  refine ⟨⟨r, hr'⟩, g.retains.trans hretains, fun l hl preheader hpreheader => ?_⟩
  rw [hentering]
  exact (g.entering l hl preheader hpreheader).congr fun b => by rw [hedges]

theorem guard (g : Guarding h c decided forest hoisted c') (hentering : hoisted'.entering = hoisted.entering)
    {k next : Nat} {position : Block → Nat} {tags : List (String × String)} {operations : List Operation}
    (hoperations : ∀ o ∈ operations, o.MayHoist (c'.margin h fun _ _ _ => False)) (hnext : c'.nextTemp ≤ next)
    (hposition : ∀ b, c'.block k = .ok b → (leading b.instructions).length ≤ position b)
    (hm : (c'.withTemps next).modifyBlock k (fun b => b.inject (position b) tags operations) = .ok c'') :
    Guarding h c decided forest hoisted' c'' :=
  g.grow hentering (fun _ hc => hc.inject hnext (isExtra_of_mayHoist hoperations) hposition hm)
    (edges_modifyBlock (c := c'.withTemps next) hm)

theorem injectHoisted (clean : c.Clean) (g : Guarding h c decided forest hoisted c') (hl : l ∈ forest.toList)
    (hpreheader : l.preheader = some preheader) {count : Nat}
    (hrun : (d.injectHoisted h hoisted l.header preheader).run c' = .ok ((count, hoisted'), c'')) :
    Guarding h c decided forest hoisted' c'' := by
  unfold GuardDecision.injectHoisted at hrun
  simp only at hrun
  split at hrun
  · obtain ⟨hanswer, rfl⟩ := Edit.pure_ok.mp hrun
    cases hanswer
    exact g
  · obtain ⟨_, c₁, hask, hplace⟩ := Edit.bind_ok.mp hrun
    obtain ⟨-, rfl⟩ := Edit.ask_ok.mp hask
    cases hd : d.shape with
    | single =>
      rw [hd] at hplace
      obtain ⟨n, c₂, hinjection, hcount⟩ := Edit.bind_ok.mp hplace
      obtain ⟨hanswer, rfl⟩ := Edit.pure_ok.mp hcount
      cases hanswer
      obtain ⟨⟨_, operations⟩, c₃, hcollect, hcode⟩ := Edit.bind_ok.mp hinjection
      obtain ⟨_, c₄, hinject, hone⟩ := Edit.bind_ok.mp hcode
      obtain ⟨-, rfl⟩ := Edit.pure_ok.mp hone
      obtain ⟨hoperations, next, hnext, rfl⟩ := (GuardCode.adds_guardPointer
        (m := c₁.margin h fun _ _ _ => False) d.pointer d.access).collect_ok (Nat.le_refl _) hcollect
      exact g.guard rfl hoperations hnext (fun b _ => leading_le_terminatorPosition b) (Edit.step_ok.mp hinject)
    | range plan =>
      rw [hd] at hplace
      obtain ⟨join, c₂, hinjection, hcount⟩ := Edit.bind_ok.mp hplace
      obtain ⟨hanswer, rfl⟩ := Edit.pure_ok.mp hcount
      cases hanswer
      obtain ⟨r, hc⟩ := g.carries
      have funnels := g.entering l hl preheader hpreheader
      have hguards : GuardsRange h c c₁ ((hoisted.entering.get? l.header).getD preheader) l.header join c₂ := by
        cases tested : plan.topTested with
        | false => exact carries_injectRange_above tested hc funnels hinjection
        | true => exact carries_injectRange_around tested clean hc funnels hinjection
      refine ⟨hguards.carries, g.retains.trans hguards.retains, fun l' hl' preheader' hpreheader' => ?_⟩
      change c₂.Funnels (((hoisted.entering.insert l.header join).get? l'.header).getD preheader') l'.header
      rw [Table.get?_insert]
      split
      · rename_i hsame
        rw [hsame]
        exact hguards.funnels
      · -- Another loop is entered from another block, as each of them leads to its loop alone.
        rename_i hother
        have funnels' := g.entering l' hl' preheader' hpreheader'
        refine funnels'.congr fun b => hguards.others _ b (fun hsame => ?_) ⟨_, funnels'.leads⟩
        rw [hsame] at funnels'
        exact hother (funnels.sole _ funnels'.leads)

theorem inject (clean : c.Clean) (g : Guarding h c decided forest hoisted c') {o : Operation}
    (site : decided.Holds d.location o) (notPhi : o.isPhi = false)
    (before : ∀ l, d.placement = .before l → l = d.location)
    (hoists : ∀ header preheader, d.placement = .preheader header preheader →
      ∃ l ∈ forest.toList, l.preheader = some preheader ∧ l.header = header) {count : Nat}
    (hrun : (d.inject h hoisted).run c' = .ok ((count, hoisted'), c'')) :
    Guarding h c decided forest hoisted' c'' := by
  obtain ⟨c₁, htag, -, hplace⟩ := GuardDecision.inject_ok hrun
  have g₁ : Guarding h c decided forest hoisted c₁ :=
    g.grow rfl (fun _ hc => hc.setTag htag) (edges_modifyBlock htag)
  cases hd : d.placement with
  | omitted =>
    rw [hd] at hplace
    obtain ⟨rfl, rfl⟩ := hplace
    exact g₁
  | preheader header preheader =>
    rw [hd] at hplace
    obtain ⟨l, hl, hpreheader, rfl⟩ := hoists header preheader hd
    exact g₁.injectHoisted clean hl hpreheader hplace
  | before l =>
    rw [hd] at hplace
    obtain ⟨rfl, position, hposition, hinject⟩ := hplace
    obtain rfl := before l hd
    obtain ⟨r, hc₁⟩ := g₁.carries
    refine g₁.guard rfl (fun o ho => ?_) (Nat.le_succ _) (fun b hb => ?_) hinject
    · rcases List.mem_cons.mp ho with rfl | ho
      · exact .inl ⟨_, rfl, Variable.isUpcoming_temporary.mpr (Nat.le_refl _)⟩
      · rw [List.mem_singleton.mp ho]
        exact .inr ⟨_, _, rfl⟩
    · exact leading_le_position hc₁.orderly.numbered (g₁.retains _ o notPhi site) notPhi hposition hb

theorem injectAll (clean : c.Clean) {ds : List GuardDecision} (g : Guarding h c decided forest hoisted c')
    (sites : ∀ d ∈ ds, ∃ o, decided.Holds d.location o ∧ o.isPhi = false)
    (before : ∀ d ∈ ds, ∀ l, d.placement = .before l → l = d.location)
    (hoists : ∀ d ∈ ds, ∀ header preheader, d.placement = .preheader header preheader →
      ∃ l ∈ forest.toList, l.preheader = some preheader ∧ l.header = header) {count : Nat}
    (hrun : (GuardDecision.injectAll h ds hoisted).run c' = .ok (count, c'')) :
    ∃ hoisted', Guarding h c decided forest hoisted' c'' := by
  induction ds generalizing hoisted c' count with
  | nil =>
    obtain ⟨-, rfl⟩ := Edit.pure_ok.mp hrun
    exact ⟨hoisted, g⟩
  | cons d rest ih =>
    obtain ⟨⟨n, hoisted₁⟩, c₁, hfirst, hrest⟩ := Edit.bind_ok.mp hrun
    obtain ⟨n', c₂, hothers, hcount⟩ := Edit.bind_ok.mp hrest
    obtain ⟨-, rfl⟩ := Edit.pure_ok.mp hcount
    obtain ⟨o, site, notPhi⟩ := sites d List.mem_cons_self
    have g₁ := g.inject clean site notPhi (before d List.mem_cons_self) (hoists d List.mem_cons_self) hfirst
    exact ih g₁ (fun e he => sites e (List.mem_cons_of_mem d he)) (fun e he => before e (List.mem_cons_of_mem d he))
      (fun e he => hoists e (List.mem_cons_of_mem d he)) hothers

end Guarding

end GuardDecision

namespace Program

variable {p : Program} {c : Configuration} {r : GuardReport}

theorem funnels_of_loop (h : Hooks) {body : FlowGraph} (tidy : body.Tidy) (wired : body.graph.Wired) {forest : LoopForest}
    (hforest : LoopForest.ofGraph body = .ok forest) {l : NaturalLoop} (hl : l ∈ forest.toList) {preheader : Nat}
    (hpreheader : l.preheader = some preheader) : body.Funnels preheader l.header := by
  obtain ⟨-, -, e, he, htail⟩ := turns_of_loop (m := body.margin h fun _ _ _ => False) tidy hforest hl hpreheader rfl
  exact .of_edgesOut wired tidy.filed he htail

theorem carries_guardFunction (numbered : p.Numbered) (tidy : p.Tidy) (hr : p.decideGuards c = .ok r) {name : String}
    {f g : Function} (hf : p.function? name = some f) {body : FlowGraph} (hbody : f.body = some body)
    {original : FlowGraph} (clean : original.Clean) (hc : ∃ s, Carries c.hooks s original body) {n : Nat}
    (hg : guardFunction c r f = .ok (n, g)) :
    ∃ body', g = { f with body := some body' } ∧ ∃ s, Carries c.hooks s original body' := by
  rcases Function.guardFunction_ok hg with ⟨hnone, -⟩ | ⟨body₁, k, middle, body', hbody₁, rfl, -, hall, hstack⟩
  · rw [hbody] at hnone
    cases hnone
  cases hbody.symm.trans hbody₁
  have numberedBody := (numbered_iff.mp numbered _ f hf).2 body hbody
  have tidyBody := tidy _ f hf body hbody
  obtain ⟨s, hs⟩ := hc
  -- What the decisions of this function are about.
  have hdecides : ∀ d ∈ r.decisions.filter (·.function = f.name),
      (f.Decides p c d ∧ ∃ body forest, f.body = some body ∧ LoopForest.ofGraph body = .ok forest) ∧
        ∀ l, d.placement = .before l → l = d.location := by
    intro d hd
    obtain ⟨hd, hsame⟩ := List.mem_filter.mp hd
    obtain ⟨⟨f', hf', hdecides, hforest⟩, hbefore⟩ := decides_of_mem hr hd
    obtain rfl := eq_of_name numbered hf hf' (hdecides.function.symm.trans (of_decide_eq_true hsame))
    exact ⟨⟨hdecides, hforest⟩, hbefore⟩
  have sites : ∀ d ∈ r.decisions.filter (·.function = f.name), ∃ o, body.Holds d.location o ∧ o.isPhi = false := by
    intro d hd
    obtain ⟨a, ha, hlocation, -, -⟩ := (hdecides d hd).1.1.access
    obtain ⟨o, hsite, hmem⟩ := Function.decision_site hbody ha
    exact ⟨o, hlocation ▸ (Function.grown_sitesOf numberedBody).holds _ hsite, (MemoryAccess.mem_reads hmem).2⟩
  have hmiddle : (∃ s, Carries c.hooks s original middle) ∧ body.Retains middle := by
    by_cases hempty : r.decisions.filter (·.function = f.name) = []
    · rw [hempty] at hall
      obtain ⟨-, rfl⟩ := Edit.pure_ok.mp hall
      exact ⟨⟨s, hs⟩, .refl _⟩
    obtain ⟨d₀, hd₀⟩ := List.exists_mem_of_ne_nil _ hempty
    obtain ⟨body₂, forest, hbody₂, hforest⟩ := (hdecides d₀ hd₀).1.2
    cases hbody.symm.trans hbody₂
    have guarding : GuardDecision.Guarding c.hooks original body forest ⟨[], ∅⟩ body :=
      ⟨⟨s, hs⟩, .refl _, fun l hl preheader hpreheader =>
        funnels_of_loop c.hooks tidyBody hs.orderly.wired hforest hl hpreheader⟩
    obtain ⟨hoisted, hguarding⟩ := guarding.injectAll clean sites (fun d hd => (hdecides d hd).2)
      (fun d hd header preheader hplacement => by
        obtain ⟨-, body₃, forest', hbody₃, hforest', hl⟩ := (hdecides d hd).1.1.hoists header preheader hplacement
        cases hbody.symm.trans hbody₃
        cases hforest.symm.trans hforest'
        exact hl) hall
    exact ⟨hguarding.carries, hguarding.retains⟩
  obtain ⟨⟨s', hs'⟩, hretains⟩ := hmiddle
  refine ⟨body', rfl, s', StackGuardDecision.carries_forM hs' (fun d hd l hl => ?_) hstack⟩
  obtain ⟨hd, hsame⟩ := List.mem_filter.mp hd
  obtain ⟨f', hf', hfunction, hcalls⟩ := mem_stackGuards hr hd
  obtain rfl := eq_of_name numbered hf hf' (hfunction.symm.trans (of_decide_eq_true hsame))
  obtain ⟨i, hi, -, hescaping⟩ := hcalls l hl
  have notPhi : i.operation.isPhi = false := by
    cases ho : i.operation <;> rw [ho] at hescaping <;> first | rfl | cases hescaping
  exact ⟨i.operation, hretains _ _ notPhi ((Function.grown_sitesOf numberedBody).holds _ (Function.mem_sitesOf hbody hi)),
    notPhi⟩

end Program

end RegionGuard

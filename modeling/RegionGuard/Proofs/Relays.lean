import RegionGuard.Proofs.BlockExits
set_option autoImplicit false

namespace RegionGuard

open Activation (phis)

namespace FlowGraph

variable {c c' : FlowGraph} {via : Nat → Nat → Option Nat} {y x p : Nat}

/-- In every block the phis come first. -/
def Ordered (c : FlowGraph) : Prop :=
  ∀ k b, c.block k = .ok b → ∀ i ∈ behind b.instructions, i.operation.isPhi = false

theorem Ordered.phi_mem (ordered : c.Ordered) {k : Nat} {b : Block} (hb : c.block k = .ok b) {i : Instruction}
    (hi : i ∈ b.instructions) {dst : Variable} {incoming : List (Value × Nat)} (ho : i.operation = .phi dst incoming) :
    (dst, incoming) ∈ phis b.instructions := by
  rw [← leading_append_behind b.instructions] at hi
  rcases List.mem_append.mp hi with hi | hi
  · exact RegionGuard.phi_mem hi ho
  · have := ordered k b hb i hi
    rw [ho] at this
    cases this

def SamePhis (y : Nat) (b b' : Block) : Prop :=
  List.Forall₂ (fun e e' => e'.1 = e.1 ∧ arriving? e'.2 y = arriving? e.2 y) (phis b.instructions) (phis b'.instructions)

/-- A stop on the way from a block to another one: the phis there take what passes the stop. -/
structure Stop (c c' : FlowGraph) (y x p : Nat) : Prop where
  onward : ∃ e, c'.graph.edges.get? (p, x) = some e ∧ e.condition = none
  sole : ∀ z, (c'.graph.edges.get? (p, z)).isSome → z = x
  passes : ∀ b b', c.block x = .ok b → c'.block x = .ok b' → ∃ front, c'.block p = .ok front ∧
    behind front.instructions = [] ∧ ((phis front.instructions).map (·.1.name)).Nodup ∧
    (∀ e ∈ phis front.instructions, e.1.IsUpcoming c.nextTemp) ∧
    (∀ e ∈ phis front.instructions, ∃ e₀ ∈ phis b.instructions, ∃ v, arriving? e.2 y = some v ∧ arriving? e₀.2 y = some v) ∧
    List.Forall₂ (fun e e' => e'.1 = e.1 ∧ ∃ v w, arriving? e.2 y = some v ∧ arriving? e'.2 p = some w ∧
      Supplies (phis front.instructions) y v w) (phis b.instructions) (phis b'.instructions)

/-- Where control goes from a block to get to another one. -/
def stop (via : Nat → Nat → Option Nat) (y x : Nat) : Nat := (via y x).getD x

structure Relays (via : Nat → Nat → Option Nat) (c c' : FlowGraph) : Prop where
  plain : c.Plain
  ordered : c.Ordered
  plain' : c'.Plain
  ordered' : c'.Ordered
  entry : c'.entry = c.entry
  blocks : ∀ k b, c.block k = .ok b → ∃ b', c'.block k = .ok b' ∧ b.Relabels (fun _ _ => True) b'
  diverts : ∀ y b, c.block y = .ok b → c.Diverts c' y (stop via y)
  straight : ∀ y x, (c.graph.edges.get? (y, x)).isSome → via y x = none → ∀ b b', c.block x = .ok b →
    c'.block x = .ok b' → SamePhis y b b'
  round : ∀ y x p, (c.graph.edges.get? (y, x)).isSome → via y x = some p → c.Stop c' y x p

def Linked (c c' : FlowGraph) : Prop := ∃ via, Relays via c c'

theorem Linked.refl (plain : c.Plain) (ordered : c.Ordered) : c.Linked c := by
  refine ⟨fun _ _ => none, plain, ordered, plain, ordered, rfl, fun k b hb => ⟨b, hb, .refl fun _ => trivial⟩,
    fun y _ _ => .of_same fun _ => rfl, fun y x _ _ b b' hb hb' => ?_, fun y x p _ hp => by cases hp⟩
  cases hb.symm.trans hb'
  exact List.forall₂_same.mpr fun _ _ => ⟨rfl, rfl⟩

end FlowGraph

namespace Preheader

open FlowGraph Edit

variable {c c' : FlowGraph} {header preheader y x p y₀ : Nat} {outside : List Nat}

def through (header preheader : Nat) (outside : List Nat) (y x : Nat) : Option Nat :=
  if y ∈ outside ∧ x = header then some preheader else none

theorem through_eq_some : through header preheader outside y x = some p ↔ y ∈ outside ∧ x = header ∧ preheader = p := by
  unfold through
  split
  · simp [*]
  · simp only [reduceCtorEq, false_iff]
    tauto

theorem through_eq_none : through header preheader outside y x = none ↔ ¬ (y ∈ outside ∧ x = header) := by
  unfold through
  split <;> simp [*]

namespace Fronted

variable (hf : Fronted header preheader outside c c')

include hf

theorem ne_of_block (plain : c.Plain) {k : Nat} {b : Block} (hb : c.block k = .ok b) : k ≠ preheader := by
  have := plain.tidy.vertices k b (block_eq_ok.mp hb)
  have := hf.fresh
  omega

theorem ne_of_edge (plain : c.Plain) (hyx : (c.graph.edges.get? (y, x)).isSome) : y ≠ preheader ∧ x ≠ preheader := by
  obtain ⟨hy, hx⟩ := plain.wired.ends y x hyx
  obtain ⟨b, hb⟩ := Option.isSome_iff_exists.mp hy
  obtain ⟨b', hb'⟩ := Option.isSome_iff_exists.mp hx
  exact ⟨hf.ne_of_block plain (block_eq_ok.mpr hb), hf.ne_of_block plain (block_eq_ok.mpr hb')⟩

theorem block_of_block (plain : c.Plain) {k : Nat} {b : Block} (hb : c.block k = .ok b) :
    ∃ b', c'.block k = .ok b' ∧ b.Relabels (fun _ _ => True) b' := by
  by_cases hk : k = header
  · subst hk
    obtain ⟨p, -, -, -, -, x, x', hx, hx', hrelabels⟩ := hf.front
    cases hb.symm.trans hx
    exact ⟨x', hx', hrelabels.imp fun _ _ _ _ => trivial⟩
  · exact ⟨b, (hf.blocks k hk (hf.ne_of_block plain hb)).trans hb, .refl fun _ => trivial⟩

theorem diverts (plain : c.Plain) {b : Block} (hb : c.block y = .ok b) :
    c.Diverts c' y (stop (through header preheader outside) y) := by
  have hy := hf.ne_of_block plain hb
  have hstop : ∀ {x}, stop (through header preheader outside) y x =
      if y ∈ outside ∧ x = header then preheader else x := by
    intro x
    unfold stop through
    split <;> rfl
  refine ⟨fun x e he => ?_, fun z hz => ?_, fun x x' hx hx' heq => ?_⟩
  · rw [hstop]
    split
    · rename_i hout
      obtain ⟨hout, rfl⟩ := hout
      obtain ⟨e', he'⟩ := Option.isSome_iff_exists.mp (hf.there y hout)
      obtain ⟨e'', he'', hcondition⟩ := hf.moved y hout e' he'
      cases he.symm.trans he''
      exact ⟨e', he', hcondition.symm⟩
    · rename_i hout
      refine ⟨e, ?_, rfl⟩
      have hx := (hf.ne_of_edge plain (by rw [he]; rfl : (c.graph.edges.get? (y, x)).isSome)).2
      rw [hf.others y x hy (by tauto)]
      exact he
  · by_cases hout : y ∈ outside ∧ (z = header ∨ z = preheader)
    · obtain ⟨hout, rfl | rfl⟩ := hout
      · rw [hf.gone y hout] at hz
        cases hz
      · exact ⟨header, hf.had y hout, by rw [hstop, if_pos ⟨hout, rfl⟩]⟩
    · rw [hf.others y z hy hout] at hz
      exact ⟨z, hz, by rw [hstop, if_neg (by tauto)]⟩
  · have hx := (hf.ne_of_edge plain hx).2
    have hx' := (hf.ne_of_edge plain hx').2
    rw [hstop, hstop] at heq
    split at heq <;> split at heq
    · rename_i h h'
      exact h.2.trans h'.2.symm
    · exact absurd heq.symm hx'
    · exact absurd heq hx
    · exact heq

/-- The phis of a block that control enters as before take what they took. -/
theorem samePhis (plain : c.Plain) (hyx : (c.graph.edges.get? (y, x)).isSome) (hout : ¬ (y ∈ outside ∧ x = header))
    {b b' : Block} (hb : c.block x = .ok b) (hb' : c'.block x = .ok b') : SamePhis y b b' := by
  obtain ⟨hy, hx⟩ := hf.ne_of_edge plain hyx
  by_cases hxh : x = header
  · subst hxh
    obtain ⟨p, -, -, -, -, z, z', hz, hz', hrelabels⟩ := hf.front
    cases hb.symm.trans hz
    cases hb'.symm.trans hz'
    exact hrelabels.phis.imp fun e e' hee' => ⟨hee'.1, hee'.2.1 y hy fun h => hout ⟨h, rfl⟩⟩
  · cases ((hf.blocks x hxh hx).symm.trans hb').symm.trans hb
    exact List.forall₂_same.mpr fun _ _ => ⟨rfl, rfl⟩

theorem stops (plain : c.Plain) (ordered : c.Ordered) (hy : y ∈ outside) : c.Stop c' y header preheader := by
  obtain ⟨front, hfront, hphis, hnodup, hupcoming, z, z', hz, hz', hrelabels⟩ := hf.front
  have hcomplete := plain.complete y header (hf.had y hy)
  refine ⟨hf.ahead, fun w hw => ?_, fun b b' hb hb' => ?_⟩
  · obtain ⟨e, he⟩ := Option.isSome_iff_exists.mp hw
    exact hf.leads w e he
  · cases hb.symm.trans hz
    cases hb'.symm.trans hz'
    refine ⟨front, hfront, List.dropWhile_eq_nil_iff.mpr fun i hi => hphis i hi, hnodup, hupcoming, fun e he => ?_, ?_⟩
    · obtain ⟨i, hi, dst, incoming, ho, hfilter⟩ := hf.sources front z hfront hb e he
      have hmem := ordered.phi_mem hb hi ho
      obtain ⟨v, hv⟩ := hcomplete z hb _ hmem
      refine ⟨_, hmem, v, ?_, hv⟩
      rw [hfilter, arriving?_filter fun x _ hx => by simpa [hx] using hy]
      exact hv
    · have hboth : List.Forall₂ (fun e e' => (∃ v, arriving? e.2 y = some v) ∧ e'.1 = e.1 ∧
          Hands (phis front.instructions) c'.nextTemp preheader outside e.2 e'.2) (phis z.instructions)
          (phis z'.instructions) :=
        (List.forall₂_and_left _ _).mpr ⟨fun e he => hcomplete z hb e he, hrelabels.phis⟩
      refine hboth.imp fun e e' hee' => ?_
      obtain ⟨⟨v, hv⟩, hdst, hhands⟩ := hee'
      obtain ⟨w, hw, -, hsupplies⟩ := hhands.2 y hy v hv
      exact ⟨hdst, v, w, hv, hw, hsupplies⟩

theorem edge_cases (hyx : (c'.graph.edges.get? (y, x)).isSome) :
    y = preheader ∧ x = header ∨ y ∈ outside ∧ x = preheader ∨
      (c.graph.edges.get? (y, x)).isSome ∧ ¬ (y ∈ outside ∧ x = header) := by
  by_cases hy : y = preheader
  · subst hy
    obtain ⟨e, he⟩ := Option.isSome_iff_exists.mp hyx
    exact .inl ⟨rfl, hf.leads x e he⟩
  · by_cases hout : y ∈ outside ∧ (x = header ∨ x = preheader)
    · obtain ⟨hout, rfl | rfl⟩ := hout
      · rw [hf.gone y hout] at hyx
        cases hyx
      · exact .inr (.inl ⟨hout, rfl⟩)
    · rw [hf.others y x hy hout] at hyx
      exact .inr (.inr ⟨hyx, by tauto⟩)

theorem complete (plain : c.Plain) (ordered : c.Ordered) (hy₀ : y₀ ∈ outside) : c'.Complete := by
  intro y x hyx b' hb' e' he'
  rcases hf.edge_cases hyx with ⟨rfl, rfl⟩ | ⟨hout, rfl⟩ | ⟨hold, hout⟩
  · -- The header takes from the preheader what it took from the blocks outside.
    have hx := (plain.wired.ends y₀ x (hf.had y₀ hy₀)).2
    obtain ⟨b, hb⟩ := Option.isSome_iff_exists.mp hx
    obtain ⟨front, -, -, -, -, -, hpasses⟩ := (hf.stops plain ordered hy₀).passes b b' (block_eq_ok.mpr hb) hb'
    obtain ⟨e, -, -, v, w, -, hw, -⟩ := exists_of_mem_forall₂ hpasses he'
    exact ⟨w, hw⟩
  · obtain ⟨b, hb⟩ := Option.isSome_iff_exists.mp (plain.wired.ends y header (hf.had y hout)).2
    obtain ⟨z', hz', -⟩ := hf.block_of_block plain (block_eq_ok.mpr hb)
    obtain ⟨front, hfront, -, -, -, hsources, -⟩ := (hf.stops plain ordered hout).passes b z' (block_eq_ok.mpr hb) hz'
    cases hfront.symm.trans hb'
    obtain ⟨e₀, -, v, hv, -⟩ := hsources e' he'
    exact ⟨v, hv⟩
  · obtain ⟨b, hb⟩ := Option.isSome_iff_exists.mp (plain.wired.ends y x hold).2
    have hb := block_eq_ok.mpr hb
    obtain ⟨e, he, -, hsame⟩ := exists_of_mem_forall₂ (hf.samePhis plain hold hout hb hb') he'
    obtain ⟨v, hv⟩ := plain.complete y x hold b hb e he
    exact ⟨v, hsame.trans hv⟩

theorem block_cases {k : Nat} {b' : Block} (hb' : c'.block k = .ok b') : k = preheader ∨ ∃ b, c.block k = .ok b := by
  by_cases hk : k = preheader
  · exact .inl hk
  · by_cases hkh : k = header
    · obtain ⟨-, -, -, -, -, b, -, hb, -⟩ := hf.front
      exact .inr ⟨b, hkh ▸ hb⟩
    · exact .inr ⟨b', (hf.blocks k hkh hk).symm.trans hb'⟩

theorem plain_of_plain (plain : c.Plain) (ordered : c.Ordered) (hy₀ : y₀ ∈ outside) (wired : c'.graph.Wired)
    (tidy : c'.Tidy) (numbered : c'.Numbered) : c'.Plain where
  decided := by
    refine decided_of_exits wired fun y hy => ?_
    obtain ⟨b', hb'⟩ := Option.isSome_iff_exists.mp hy
    rcases hf.block_cases (block_eq_ok.mpr hb') with rfl | ⟨b, hb⟩
    · obtain ⟨e, he, halways⟩ := hf.ahead
      exact .one he halways (hf.stops plain ordered hy₀).sole
    · refine (hf.diverts plain hb).exits (plain.decided.exits plain.wired ?_)
      rw [block_eq_ok.mp hb]
      rfl
  wired := wired
  tidy := tidy
  numbered := numbered
  complete := hf.complete plain ordered hy₀
  started entry hentry := by
    obtain ⟨b, hb⟩ := plain.started entry (hf.entry ▸ hentry)
    obtain ⟨b', hb', -⟩ := hf.block_of_block plain hb
    exact ⟨b', hb'⟩

theorem ordered_of_ordered (plain : c.Plain) (ordered : c.Ordered) : c'.Ordered := by
  intro k b' hb' i hi
  rcases hf.block_cases hb' with rfl | ⟨b, hb⟩
  · obtain ⟨front, hfront, hphis, -⟩ := hf.front
    cases hfront.symm.trans hb'
    rw [show behind b'.instructions = [] from List.dropWhile_eq_nil_iff.mpr fun i hi => hphis i hi] at hi
    cases hi
  · obtain ⟨x, hx, hrelabels⟩ := hf.block_of_block plain hb
    cases hx.symm.trans hb'
    obtain ⟨j, hj, hresembles⟩ := exists_of_mem_forall₂ hrelabels.behind hi
    have hnot := ordered k b hb j hj
    rcases hresembles with heq | ⟨hphi, -⟩
    · rw [heq]
      exact hnot
    · rw [hphi] at hnot
      cases hnot

theorem linked (plain : c.Plain) (ordered : c.Ordered) (hy₀ : y₀ ∈ outside) (wired : c'.graph.Wired)
    (tidy : c'.Tidy) (numbered : c'.Numbered) : c.Linked c' := by
  refine ⟨through header preheader outside, plain, ordered, hf.plain_of_plain plain ordered hy₀ wired tidy numbered,
    hf.ordered_of_ordered plain ordered, hf.entry, fun k b hb => hf.block_of_block plain hb,
    fun y b hb => hf.diverts plain hb, fun y x hyx hnone b b' hb hb' => ?_, fun y x p _ hp => ?_⟩
  · exact hf.samePhis plain hyx (through_eq_none.mp hnone) hb hb'
  · obtain ⟨hout, rfl, rfl⟩ := through_eq_some.mp hp
    exact hf.stops plain ordered hout

end Fronted

structure Chained (c c' : FlowGraph) : Prop where
  plain : c'.Plain
  ordered : c'.Ordered
  chain : Relation.ReflTransGen Linked c c'

theorem chained_insert {header : Nat} {outside : List Nat} (hout : outside ≠ []) {c' c'' : FlowGraph}
    (hc : Chained c c') {b : Block} (hb : c'.block header = .ok b) {u : Unit}
    (hrun : (Preheader.insert header outside).run c' = .ok (u, c'')) : Chained c c'' := by
  obtain ⟨y₀, hy₀⟩ := List.exists_mem_of_ne_nil outside hout
  have horderly := orderly_of_tidy hc.plain.numbered hc.plain.wired hc.plain.tidy
  obtain ⟨preheader, hfronted⟩ := insert_ok horderly hc.plain.tidy hb hrun
  have wired := wires_insert header outside c' u c'' hc.plain.wired hrun
  have tidy := keeps_tidy_insert header outside c' u c'' hc.plain.tidy hrun
  have numbered := keeps_insert header outside c' u c'' hc.plain.numbered hrun
  have hlinked := hfronted.linked hc.plain hc.ordered hy₀ wired tidy numbered
  exact ⟨hfronted.plain_of_plain hc.plain hc.ordered hy₀ wired tidy numbered,
    hfronted.ordered_of_ordered hc.plain hc.ordered, hc.chain.tail hlinked⟩

theorem chained_simplify : Keeps (Chained c) simplify :=
  keeps_simplify_of_insert (fun _ hc => hc.plain.wired) fun _ _ hout _ _ _ _ hc hb hrun => chained_insert hout hc hb hrun

end Preheader

end RegionGuard

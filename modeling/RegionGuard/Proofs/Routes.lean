import RegionGuard.Proofs.WovenCode
set_option autoImplicit false

namespace RegionGuard

open Activation (phis)

/-- Where the new blocks of a graph lead, and the values they bring to the phis there. -/
structure Routes where
  toward : Nat → Option Nat
  brings : Nat → List Value

def arriving? (incoming : List (Value × Nat)) (y : Nat) : Option Value := (incoming.find? (·.2 = y)).map (·.1)

def Takes (ps : List (Variable × List (Value × Nat))) (y : Nat) (vs : List Value) : Prop :=
  List.Forall₂ (fun e v => arriving? e.2 y = some v) ps vs

def Supplies (ps : List (Variable × List (Value × Nat))) (y : Nat) (v w : Value) : Prop :=
  (w = v ∧ ∀ e ∈ ps, ∀ x, v = .variable x → x.name ≠ e.1.name) ∨
    ∃ e ∈ ps, w = .variable e.1 ∧ arriving? e.2 y = some v

/-- A block in which nothing but extra code was added to another one. -/
structure Kept (h : Hooks) (n : Nat) (b b' : Block) : Prop where
  phis : (phis b'.instructions).map (·.1) = (phis b.instructions).map (·.1)
  woven : Woven h n (behind b.instructions) (behind b'.instructions)

structure Added (h : Hooks) (n : Nat) (ws : List Value) (b : Block) : Prop where
  distinct : ((phis b.instructions).map (·.1.name)).Nodup
  temporary : ∀ e ∈ phis b.instructions, e.1.IsUpcoming n
  extra : ∀ z ∈ behind b.instructions, z.operation.IsExtra h n
  spares : ∀ z ∈ behind b.instructions, ∀ dst, z.operation.computes? = some dst →
    ∀ x, .variable x ∈ ws → x.name ≠ dst.name

namespace Routes

def target (r : Routes) (k : Nat) : Nat := (r.toward k).getD k

structure Offers (r : Routes) (c : FlowGraph) (y t : Nat) (vs : List Value) : Prop where
  old : r.toward y = none → ∃ b, c.block t = .ok b ∧ Takes (phis b.instructions) y vs
  new : (r.toward y).isSome → vs = r.brings y

structure Accepts (r : Routes) (c' : FlowGraph) (x y : Nat) (vs : List Value) : Prop where
  old : r.toward x = none → ∃ b, c'.block x = .ok b ∧ Takes (phis b.instructions) y vs
  new : (r.toward x).isSome → ∃ b, c'.block x = .ok b ∧
    List.Forall₂ (Supplies (phis b.instructions) y) vs (r.brings x)

/-- A way from block to block stands for an edge of the other graph, or stays on its way. -/
structure Way (r : Routes) (c c' : FlowGraph) (y x : Nat) (condition : Option Condition) : Prop where
  old : r.toward y = none → ∃ e, c.graph.edges.get? (y, r.target x) = some e ∧
    (e.condition = none ∨ e.condition = condition)
  new : ∀ t, r.toward y = some t → r.target x = t
  values : ∃ vs, r.Offers c y (r.target x) vs ∧ r.Accepts c' x y vs

end Routes

namespace FlowGraph

structure Orderly (c : FlowGraph) : Prop where
  numbered : c.Numbered
  wired : c.graph.Wired
  filed : c.graph.Filed
  bounded : ∀ k b, c.block k = .ok b → k < c.nextBlock
  known : ∀ k b, c.block k = .ok b → ∀ i ∈ b.instructions, ∀ dst incoming, i.operation = .phi dst incoming →
    ∀ e ∈ incoming, e.2 < c.nextBlock

/-- The second graph does what the first one does, with extra code on the way. -/
structure Carries (h : Hooks) (r : Routes) (c c' : FlowGraph) : Prop where
  orderly : c'.Orderly
  entry : c'.entry = c.entry
  temps : c.nextTemp ≤ c'.nextTemp
  kept : ∀ k b, c.block k = .ok b → r.toward k = none ∧ ∃ b', c'.block k = .ok b' ∧ Kept h c.nextTemp b b'
  added : ∀ k t, r.toward k = some t →
    (∃ b, c.block t = .ok b) ∧ ∃ b', c'.block k = .ok b' ∧ Added h c.nextTemp (r.brings k) b'
  brought : ∀ k, (r.toward k).isSome → ∀ w ∈ r.brings k, w.Avoids c'.nextTemp
  ways : ∀ y x e, c'.graph.edges.get? (y, x) = some e → r.Way c c' y x e.condition
  onward : ∀ y t, (c.graph.edges.get? (y, t)).isSome → ∃ x, (c'.graph.edges.get? (y, x)).isSome ∧ r.target x = t

end FlowGraph

theorem mem_phis {l : List Instruction} {e : Variable × List (Value × Nat)} (he : e ∈ phis l) :
    ∃ i ∈ l, i.operation = .phi e.1 e.2 := by
  induction l with
  | nil => cases he
  | cons i rest ih =>
    rw [phis] at he
    split at he
    · rename_i dst incoming ho
      rcases List.mem_cons.mp he with rfl | he
      · exact ⟨i, List.mem_cons_self, ho⟩
      · obtain ⟨j, hj, ho⟩ := ih he
        exact ⟨j, List.mem_cons_of_mem i hj, ho⟩
    · cases he

theorem phi_mem {l : List Instruction} {i : Instruction} (hi : i ∈ leading l) {dst : Variable}
    {incoming : List (Value × Nat)} (ho : i.operation = .phi dst incoming) : (dst, incoming) ∈ phis l := by
  induction l with
  | nil => cases hi
  | cons j rest ih =>
    unfold leading at hi ih
    cases hphi : j.operation.isPhi with
    | false =>
      rw [List.takeWhile_cons, hphi] at hi
      cases hi
    | true =>
      obtain ⟨dst', incoming', ho'⟩ := Activation.exists_phi hphi
      rw [Activation.phis_cons ho']
      rw [List.takeWhile_cons, if_pos hphi] at hi
      rcases List.mem_cons.mp hi with rfl | hi
      · rw [ho] at ho'
        cases ho'
        exact List.mem_cons_self
      · exact List.mem_cons_of_mem _ (ih hi)

theorem Takes.unique {ps : List (Variable × List (Value × Nat))} {y : Nat} {vs ws : List Value}
    (hv : Takes ps y vs) (hw : Takes ps y ws) : vs = ws := by
  induction hv generalizing ws with
  | nil =>
    cases hw
    rfl
  | cons hhead _ ih =>
    cases hw with
    | cons hhead' htail =>
      rw [Option.some.inj (hhead.symm.trans hhead'), ih htail]

namespace FlowGraph

variable {h : Hooks} {r : Routes} {c c' c'' : FlowGraph} {k : Nat}

theorem edges_modifyBlock {f : Block → Outcome Block} (h : c.modifyBlock k f = .ok c') :
    c'.graph.edges = c.graph.edges := by
  obtain ⟨b, b', -, -, rfl⟩ := modifyBlock_ok h
  rfl

theorem edges_newBlock (h : c.newBlock = .ok (k, c')) : c'.graph.edges = c.graph.edges := by
  rw [(Graph.insertVertex_ok (newBlock_ok h).2.2.2.2).2]

namespace Orderly

theorem withTemps (hc : c.Orderly) (next : Nat) : (c.withTemps next).Orderly :=
  ⟨hc.numbered, hc.wired, hc.filed, hc.bounded, hc.known⟩

theorem modifyBlock {f : Block → Outcome Block} (hc : c.Orderly)
    (hf : ∀ b b', b.Numbered → f b = .ok b' → b'.Numbered ∧ b'.index = b.index)
    (hknown : ∀ b b', c.block k = .ok b → f b = .ok b' → ∀ i ∈ b'.instructions, ∀ dst incoming,
      i.operation = .phi dst incoming → ∀ e ∈ incoming, e.2 < c.nextBlock)
    (h : c.modifyBlock k f = .ok c') : c'.Orderly := by
  have hnumbered := numbered_of_modifyBlock hf hc.numbered h
  obtain ⟨b, b', hb, hb', hk, hothers⟩ := block_modifyBlock h
  obtain ⟨-, -, hnext⟩ := modifyBlock_fields h
  obtain ⟨y, y', hy, -, hc'⟩ := modifyBlock_ok h
  have hold : ∀ j x, c'.block j = .ok x → j = k ∧ x = b' ∨ c.block j = .ok x := by
    intro j x hx
    by_cases hj : j = k
    · subst hj
      exact .inl ⟨rfl, Except.ok.inj (hx.symm.trans hk)⟩
    · exact .inr ((hothers j hj).symm.trans hx)
  refine ⟨hnumbered, ?_, filed_modifyBlock hc.filed h, fun j x hx => ?_, fun j x hx => ?_⟩
  · rw [hc']
    exact hc.wired.setVertex (Option.isSome_iff_exists.mpr ⟨y, block_eq_ok.mp hy⟩) y'
  · rw [hnext]
    rcases hold j x hx with ⟨rfl, rfl⟩ | hx
    · exact hc.bounded j b hb
    · exact hc.bounded j x hx
  · rw [hnext]
    rcases hold j x hx with ⟨rfl, rfl⟩ | hx
    · exact hknown b x hb hb'
    · exact hc.known j x hx

theorem newBlock (hc : c.Orderly) (h : c.newBlock = .ok (k, c')) : c'.Orderly := by
  obtain ⟨hk, hnext, -, -, hg⟩ := newBlock_ok h
  obtain ⟨hnew, hothers⟩ := block_newBlock h
  have hfiled : c'.graph.Filed := by
    obtain ⟨-, hg⟩ := Graph.insertVertex_ok hg
    rw [hg]
    exact hc.filed
  refine ⟨numbered_of_newBlock hc.numbered h, hc.wired.insertVertex hg, hfiled, fun j b hb => ?_, fun j b hb => ?_⟩
  · by_cases hj : j = k
    · omega
    · have := hc.bounded j b ((hothers j hj).symm.trans hb)
      omega
  · by_cases hj : j = k
    · subst hj
      cases hnew.symm.trans hb
      exact fun i hi => (List.not_mem_nil hi).elim
    · intro i hi dst incoming ho e he
      have := hc.known j b ((hothers j hj).symm.trans hb) i hi dst incoming ho e he
      omega

theorem insertEdge {head tail : Nat} {condition : Option Condition} (hc : c.Orderly)
    (h : c.insertEdge head tail condition = .ok c') : c'.Orderly := by
  obtain ⟨hg, hc'⟩ := insertEdge_ok h
  have hvertices := Graph.vertices_of_insertEdge hg
  have hblock : ∀ j, c'.block j = c.block j := fun j => congrArg (Failure.orRaise · _) (congrArg (Table.get? · j) hvertices)
  refine ⟨numbered_of_vertices hc.numbered hvertices, hc.wired.insertEdge hg, Graph.filed_insertEdge hc.filed hg,
    fun j b hb => ?_, fun j b hb => ?_⟩
  · rw [hc']
    exact hc.bounded j b ((hblock j).symm.trans hb)
  · rw [hc']
    exact hc.known j b ((hblock j).symm.trans hb)

theorem removeEdge {head tail : Nat} {e : Edge} (hc : c.Orderly) (h : c.removeEdge head tail = .ok (e, c')) :
    c'.Orderly := by
  obtain ⟨hg, hc'⟩ := removeEdge_ok h
  have hvertices := Graph.vertices_of_removeEdge hg
  have hblock : ∀ j, c'.block j = c.block j := fun j => congrArg (Failure.orRaise · _) (congrArg (Table.get? · j) hvertices)
  refine ⟨numbered_of_vertices hc.numbered hvertices, hc.wired.removeEdge hg, Graph.filed_removeEdge hc.filed hg,
    fun j b hb => ?_, fun j b hb => ?_⟩
  · rw [hc']
    exact hc.bounded j b ((hblock j).symm.trans hb)
  · rw [hc']
    exact hc.known j b ((hblock j).symm.trans hb)

end Orderly

def Complete (c : FlowGraph) : Prop :=
  ∀ y x, (c.graph.edges.get? (y, x)).isSome → ∀ b, c.block x = .ok b → ∀ e ∈ phis b.instructions,
    ∃ v, arriving? e.2 y = some v

theorem takes_of_complete {ps : List (Variable × List (Value × Nat))} {y : Nat}
    (hps : ∀ e ∈ ps, ∃ v, arriving? e.2 y = some v) : ∃ vs, Takes ps y vs := by
  induction ps with
  | nil => exact ⟨[], .nil⟩
  | cons e rest ih =>
    obtain ⟨v, hv⟩ := hps e List.mem_cons_self
    obtain ⟨vs, hvs⟩ := ih fun e' he' => hps e' (List.mem_cons_of_mem e he')
    exact ⟨v :: vs, .cons hv hvs⟩

namespace Carries

theorem refl (h : Hooks) (orderly : c.Orderly) (complete : c.Complete)
    (avoids : ∀ k b, c.block k = .ok b → ∀ i ∈ b.instructions, i.operation.Avoids c.nextTemp) :
    Carries h ⟨fun _ => none, fun _ => []⟩ c c where
  orderly := orderly
  entry := rfl
  temps := Nat.le_refl _
  kept k b hb := ⟨rfl, b, hb, rfl, .refl fun i hi => avoids k b hb i ((List.dropWhile_suffix _).subset hi)⟩
  added k t hk := by cases hk
  brought k hk := by cases hk
  ways y x e he := by
    have hx : (c.graph.vertices.get? x).isSome := (orderly.wired.ends y x (by rw [he]; rfl)).2
    obtain ⟨b, hb⟩ := Option.isSome_iff_exists.mp hx
    have hb := block_eq_ok.mpr hb
    obtain ⟨vs, hvs⟩ := takes_of_complete (complete y x (by rw [he]; rfl) b hb)
    exact ⟨fun _ => ⟨e, he, .inr rfl⟩, fun t ht => (by cases ht), vs,
      ⟨fun _ => ⟨b, hb, hvs⟩, fun hy => (by cases hy)⟩, ⟨fun _ => ⟨b, hb, hvs⟩, fun hx => (by cases hx)⟩⟩
  onward y t ht := ⟨t, ht, rfl⟩

theorem accepts_congr {x y : Nat} {vs : List Value} (ha : r.Accepts c' x y vs)
    (hblocks : ∀ b, c'.block x = .ok b → ∃ b'', c''.block x = .ok b'' ∧ phis b''.instructions = phis b.instructions) :
    r.Accepts c'' x y vs := by
  refine ⟨fun hx => ?_, fun hx => ?_⟩
  · obtain ⟨b, hb, htakes⟩ := ha.old hx
    obtain ⟨b'', hb'', hphis⟩ := hblocks b hb
    exact ⟨b'', hb'', hphis ▸ htakes⟩
  · obtain ⟨b, hb, hsupplies⟩ := ha.new hx
    obtain ⟨b'', hb'', hphis⟩ := hblocks b hb
    exact ⟨b'', hb'', hphis ▸ hsupplies⟩

theorem grow {f : Block → Outcome Block} (hc : Carries h r c c') {next : Nat} (hnext : c'.nextTemp ≤ next)
    (hf : ∀ b b', b.Numbered → f b = .ok b' → b'.Numbered ∧ b'.index = b.index)
    (hgrows : ∀ b b', c'.block k = .ok b → f b = .ok b' → b.Grows h c'.nextTemp b')
    (hm : (c'.withTemps next).modifyBlock k f = .ok c'') : Carries h r c c'' := by
  obtain ⟨b, b', hb, hb', hk, hothers⟩ := block_modifyBlock hm
  have hb : c'.block k = .ok b := hb
  have hgrow := hgrows b b' hb hb'
  have hedges : c''.graph.edges = c'.graph.edges := edges_modifyBlock (c := c'.withTemps next) hm
  obtain ⟨hentry, htemps, -⟩ := modifyBlock_fields hm
  -- Every block has grown, most of them by nothing.
  have hall : ∀ j x, c'.block j = .ok x → ∃ x', c''.block j = .ok x' ∧ x.Grows h c'.nextTemp x' := by
    intro j x hx
    by_cases hj : j = k
    · subst hj
      cases hb.symm.trans hx
      exact ⟨b', hk, hgrow⟩
    · exact ⟨x, (hothers j hj).trans hx, .refl _ _ _⟩
  have hknown : ∀ x x', (c'.withTemps next).block k = .ok x → f x = .ok x' → ∀ i ∈ x'.instructions, ∀ dst incoming,
      i.operation = .phi dst incoming → ∀ e ∈ incoming, e.2 < (c'.withTemps next).nextBlock := by
    intro x x' hx hx' i hi dst incoming ho
    have hold : ∃ i ∈ x.instructions, i.operation = .phi dst incoming := by
      have hgrow := hgrows x x' hx hx'
      rw [← leading_append_behind x'.instructions] at hi
      rcases List.mem_append.mp hi with hi | hi
      · exact mem_phis (hgrow.phis ▸ phi_mem hi ho)
      · rcases hgrow.extra i hi with ⟨y, hy, heq⟩ | hextra
        · exact ⟨y, (List.dropWhile_suffix _).subset hy, heq ▸ ho⟩
        · have hphi := hextra.notPhi
          rw [ho] at hphi
          cases hphi
    obtain ⟨i, hi, ho⟩ := hold
    exact hc.orderly.known k x hx i hi dst incoming ho
  refine ⟨(hc.orderly.withTemps next).modifyBlock hf hknown hm, hentry.trans hc.entry, ?_, fun j x hx => ?_,
    fun j t ht => ?_, fun j hj w hw => ?_, fun y x e he => ?_, fun y t ht => ?_⟩
  · rw [htemps]
    exact Nat.le_trans hc.temps hnext
  · obtain ⟨hnone, x', hx', hkept⟩ := hc.kept j x hx
    obtain ⟨x'', hx'', hgrow⟩ := hall j x' hx'
    refine ⟨hnone, x'', hx'', ?_, ?_⟩
    · rw [hgrow.phis]
      exact hkept.phis
    · exact hgrow.woven _ hc.temps _ hkept.woven
  · obtain ⟨htarget, x', hx', hadded⟩ := hc.added j t ht
    obtain ⟨x'', hx'', hgrow⟩ := hall j x' hx'
    refine ⟨htarget, x'', hx'', ?_, ?_, fun z hz => ?_, fun z hz dst hdst v hv => ?_⟩
    · rw [hgrow.phis]
      exact hadded.distinct
    · rw [hgrow.phis]
      exact hadded.temporary
    · rcases hgrow.extra z hz with ⟨y, hy, heq⟩ | hextra
      · exact heq ▸ hadded.extra y hy
      · exact hextra.mono hc.temps
    · rcases hgrow.extra z hz with ⟨y, hy, heq⟩ | hextra
      · exact hadded.spares y hy dst (heq ▸ hdst) v hv
      · intro hname
        rcases hextra with ⟨dst', hdst', hup⟩ | ⟨name, -, arguments, ho⟩
        · cases hdst.symm.trans hdst'
          obtain ⟨number, hnumber, hdst⟩ := hup
          exact hc.brought j (by rw [ht]; rfl) _ hv v rfl ⟨number, hnumber, hname.trans hdst⟩
        · rw [ho] at hdst
          cases hdst
  · rw [htemps]
    exact (hc.brought j hj w hw).mono hnext
  · rw [hedges] at he
    have hway := hc.ways y x e he
    obtain ⟨vs, hoffers, haccepts⟩ := hway.values
    refine ⟨hway.old, hway.new, vs, hoffers, accepts_congr haccepts fun b hb => ?_⟩
    obtain ⟨b'', hb'', hgrow⟩ := hall x b hb
    exact ⟨b'', hb'', hgrow.phis⟩
  · rw [hedges]
    exact hc.onward y t ht

end Carries

end FlowGraph

end RegionGuard

import RegionGuard.Proofs.Routes
set_option autoImplicit false

namespace RegionGuard

open Activation (phis)

theorem Takes.imp {ps qs : List (Variable × List (Value × Nat))} {y z : Nat} {vs : List Value}
    (hv : Takes ps y vs) (hq : List.Forall₂ (fun e e' => e'.1 = e.1 ∧ arriving? e'.2 z = arriving? e.2 y) ps qs) :
    Takes qs z vs := by
  induction hv generalizing qs with
  | nil =>
    cases hq
    exact .nil
  | cons hhead _ ih =>
    cases hq with
    | cons hq htail => exact .cons (hq.2.trans hhead) (ih htail)

theorem forall₂_fst {ps qs : List (Variable × List (Value × Nat))}
    {Q : List (Value × Nat) → List (Value × Nat) → Prop}
    (hq : List.Forall₂ (fun e e' => e'.1 = e.1 ∧ Q e.2 e'.2) ps qs) : qs.map (·.1) = ps.map (·.1) := by
  induction hq with
  | nil => rfl
  | cons hhead _ ih => rw [List.map_cons, List.map_cons, hhead.1, ih]

theorem Supplies.imp {ps qs : List (Variable × List (Value × Nat))} {y z : Nat} {v w : Value}
    (hv : Supplies ps y v w)
    (hq : List.Forall₂ (fun e e' => e'.1 = e.1 ∧ arriving? e'.2 z = arriving? e.2 y) ps qs) :
    Supplies qs z v w := by
  rcases hv with ⟨rfl, hspares⟩ | ⟨e, he, rfl, htakes⟩
  · refine .inl ⟨rfl, fun e' he' => ?_⟩
    have hfst : e'.1 ∈ ps.map (·.1) :=
      forall₂_fst (Q := fun l l' => arriving? l' z = arriving? l y) hq ▸ List.mem_map_of_mem he'
    obtain ⟨e, he, heq⟩ := List.mem_map.mp hfst
    exact heq ▸ hspares e he
  · obtain ⟨e', he', hfst, harriving⟩ := exists_of_mem_forall₂ hq.flip he
    exact .inr ⟨e', he', by rw [hfst], harriving.trans htakes⟩

/-- An instruction gives way to another one, which may take something else if it is a phi. -/
def Instruction.Relabels (Q : List (Value × Nat) → List (Value × Nat) → Prop) (i j : Instruction) : Prop :=
  (∃ dst l l', i.operation = .phi dst l ∧ j.operation = .phi dst l' ∧ Q l l') ∨
    i.operation.isPhi = false ∧ j.operation = i.operation

structure Block.Relabels (Q : List (Value × Nat) → List (Value × Nat) → Prop) (b b' : Block) : Prop where
  phis : List.Forall₂ (fun e e' => e'.1 = e.1 ∧ Q e.2 e'.2) (phis b.instructions) (phis b'.instructions)
  behind : List.Forall₂ Instruction.Resembles (behind b.instructions) (behind b'.instructions)

theorem Block.relabels_of_instructions {b b' : Block} {Q : List (Value × Nat) → List (Value × Nat) → Prop}
    (hall : List.Forall₂ (Instruction.Relabels Q) b.instructions b'.instructions) : b.Relabels Q b' := by
  have hresembles : ∀ {i j : Instruction}, i.Relabels Q j → i.Resembles j := by
    rintro i j (⟨dst, l, l', hi, hj, -⟩ | ⟨-, heq⟩)
    · refine .inr ⟨?_, ?_⟩ <;> simp [hi, hj, Operation.isPhi]
    · exact .inl heq
  constructor
  · generalize b.instructions = is at hall ⊢
    generalize b'.instructions = js at hall ⊢
    induction hall with
    | nil => exact .nil
    | cons hhead _ ih =>
      rcases hhead with ⟨dst, l, l', hi, hj, hq⟩ | ⟨hphi, heq⟩
      · rw [Activation.phis_cons hi, Activation.phis_cons hj]
        exact .cons ⟨rfl, hq⟩ ih
      · rw [Activation.phis_of_pastPhis (Instruction.pastPhis_cons hphi),
          Activation.phis_of_pastPhis (Instruction.pastPhis_cons (heq ▸ hphi))]
        exact .nil
  · generalize b.instructions = is at hall ⊢
    generalize b'.instructions = js at hall ⊢
    unfold RegionGuard.behind
    induction hall with
    | nil => exact .nil
    | cons hhead htail ih =>
      rcases hhead with ⟨dst, l, l', hi, hj, hq⟩ | ⟨hphi, heq⟩
      · rw [List.dropWhile_cons_of_pos (by rw [hi]; rfl), List.dropWhile_cons_of_pos (by rw [hj]; rfl)]
        exact ih
      · rw [List.dropWhile_cons_of_neg (by rw [hphi]; exact Bool.false_ne_true),
          List.dropWhile_cons_of_neg (by rw [heq, hphi]; exact Bool.false_ne_true)]
        exact .cons (.inl heq) (htail.imp fun _ _ => hresembles)

theorem Block.Relabels.imp {b b' : Block} {Q R : List (Value × Nat) → List (Value × Nat) → Prop} (h : b.Relabels Q b')
    (hqr : ∀ e ∈ Activation.phis b.instructions, ∀ l, Q e.2 l → R e.2 l) : b.Relabels R b' where
  phis := by
    have hphis := h.phis
    generalize Activation.phis b'.instructions = qs at hphis ⊢
    generalize Activation.phis b.instructions = ps at hphis hqr ⊢
    induction hphis with
    | nil => exact .nil
    | cons hhead _ ih =>
      exact .cons ⟨hhead.1, hqr _ List.mem_cons_self _ hhead.2⟩ (ih fun e he => hqr e (List.mem_cons_of_mem _ he))
  behind := h.behind

theorem Block.Relabels.refl {b : Block} {Q : List (Value × Nat) → List (Value × Nat) → Prop} (hq : ∀ l, Q l l) :
    b.Relabels Q b where
  phis := List.forall₂_same.mpr fun _ _ => ⟨rfl, hq _⟩
  behind := List.forall₂_same.mpr fun _ _ => .inl rfl

def relabelled (old new : Nat) (incoming : List (Value × Nat)) : List (Value × Nat) :=
  incoming.map fun e => (e.1, if e.2 = old then new else e.2)

section Relabelled

variable {old new y : Nat} {incoming : List (Value × Nat)}

theorem arriving?_relabelled_new (hnew : ∀ e ∈ incoming, e.2 ≠ new) :
    arriving? (relabelled old new incoming) new = arriving? incoming old := by
  induction incoming with
  | nil => rfl
  | cons e rest ih =>
    have hrest := ih fun x hx => hnew x (List.mem_cons_of_mem e hx)
    unfold arriving? relabelled at hrest ⊢
    rw [List.map_cons, List.find?_cons, List.find?_cons]
    by_cases he : e.2 = old
    · simp [he]
    · simpa [he, hnew e List.mem_cons_self] using hrest

theorem arriving?_relabelled_of_ne (hold : y ≠ old) (hnew : y ≠ new) :
    arriving? (relabelled old new incoming) y = arriving? incoming y := by
  induction incoming with
  | nil => rfl
  | cons e rest ih =>
    unfold arriving? relabelled at ih ⊢
    rw [List.map_cons, List.find?_cons, List.find?_cons]
    by_cases he : e.2 = old
    · simpa [he, Ne.symm hold, Ne.symm hnew] using ih
    · by_cases hey : e.2 = y
      · simp [hey, hold]
      · simpa [he, hey] using ih

theorem Block.relabels_rename (b : Block) (old new : Nat) :
    b.Relabels (fun l l' => l' = relabelled old new l)
      { b with instructions := b.instructions.map (GuardDecision.renameIncoming old new) } := by
  refine Block.relabels_of_instructions (List.forall₂_map_right_iff.mpr (List.forall₂_same.mpr fun i _ => ?_))
  have hoperation := (GuardDecision.renameIncoming_fields old new i).2.2
  cases hphi : i.operation.isPhi with
  | true =>
    obtain ⟨dst, incoming, ho⟩ := Activation.exists_phi hphi
    refine .inl ⟨dst, incoming, _, ho, ?_, rfl⟩
    rw [hoperation, ho]
    rfl
  | false =>
    refine .inr ⟨hphi, ?_⟩
    rw [hoperation, GuardDecision.relabel_of_notPhi hphi]

end Relabelled

section Relabelling

variable {h : Hooks} {n : Nat} {b b' b'' : Block} {Q : List (Value × Nat) → List (Value × Nat) → Prop}

theorem Kept.relabel (hb : Kept h n b b') (hq : b'.Relabels Q b'') : Kept h n b b'' where
  phis := (forall₂_fst hq.phis).trans hb.phis
  woven := hb.woven.resemble hq.behind

theorem Added.relabel {ws : List Value} (hb : Added h n ws b) (hq : b.Relabels Q b') : Added h n ws b' := by
  have hfst := forall₂_fst hq.phis
  have hnames : (phis b'.instructions).map (·.1.name) = (phis b.instructions).map (·.1.name) := by
    have := congrArg (List.map Variable.name) hfst
    rwa [List.map_map, List.map_map] at this
  have hsame : ∀ z' ∈ behind b'.instructions, ∃ z ∈ behind b.instructions, z'.operation = z.operation := by
    intro z' hz'
    obtain ⟨z, hz, hresembles⟩ := exists_of_mem_forall₂ hq.behind hz'
    refine ⟨z, hz, hresembles.resolve_right fun hphi => ?_⟩
    have := (hb.extra z hz).notPhi
    rw [hphi.1] at this
    cases this
  refine ⟨hnames ▸ hb.distinct, fun e he => ?_, fun z' hz' => ?_, fun z' hz' dst hdst => ?_⟩
  · have hmem : e.1 ∈ (phis b.instructions).map (·.1) := hfst ▸ List.mem_map_of_mem he
    obtain ⟨e', he', heq⟩ := List.mem_map.mp hmem
    exact heq ▸ hb.temporary e' he'
  · obtain ⟨z, hz, heq⟩ := hsame z' hz'
    exact heq ▸ hb.extra z hz
  · obtain ⟨z, hz, heq⟩ := hsame z' hz'
    exact hb.spares z hz dst (heq ▸ hdst)

end Relabelling

namespace Routes

variable {r r' : Routes} {c c' c'' : FlowGraph} {x y z : Nat} {vs : List Value} {condition : Option Condition}

def set (r : Routes) (k t : Nat) (ws : List Value) : Routes :=
  ⟨fun j => if j = k then some t else r.toward j, fun j => if j = k then ws else r.brings j⟩

theorem toward_set_of_ne {k t : Nat} {ws : List Value} (hx : x ≠ k) : (r.set k t ws).toward x = r.toward x := if_neg hx

theorem brings_set_of_ne {k t : Nat} {ws : List Value} (hx : x ≠ k) : (r.set k t ws).brings x = r.brings x := if_neg hx

theorem toward_set_self {k t : Nat} {ws : List Value} : (r.set k t ws).toward k = some t := if_pos rfl

theorem brings_set_self {k t : Nat} {ws : List Value} : (r.set k t ws).brings k = ws := if_pos rfl

theorem target_of_toward {t : Nat} (h : r.toward x = some t) : r.target x = t := by
  unfold target
  rw [h]
  rfl

theorem target_congr (hx : r'.toward x = r.toward x) : r'.target x = r.target x := by
  unfold target
  rw [hx]

theorem Offers.congr {t : Nat} (ho : r.Offers c y t vs) (htoward : r'.toward y = r.toward y)
    (hbrings : r'.brings y = r.brings y) : r'.Offers c y t vs where
  old hy := ho.old (htoward ▸ hy)
  new hy := (ho.new (htoward ▸ hy)).trans hbrings.symm

theorem Accepts.congr (ha : r.Accepts c' x y vs) (htoward : r'.toward x = r.toward x)
    (hbrings : r'.brings x = r.brings x)
    (hblocks : ∀ b, c'.block x = .ok b → ∃ b'', c''.block x = .ok b'' ∧
      List.Forall₂ (fun e e' => e'.1 = e.1 ∧ arriving? e'.2 z = arriving? e.2 y)
        (phis b.instructions) (phis b''.instructions)) : r'.Accepts c'' x z vs := by
  refine ⟨fun hx => ?_, fun hx => ?_⟩
  · obtain ⟨b, hb, htakes⟩ := ha.old (htoward ▸ hx)
    obtain ⟨b'', hb'', hphis⟩ := hblocks b hb
    exact ⟨b'', hb'', htakes.imp hphis⟩
  · obtain ⟨b, hb, hsupplies⟩ := ha.new (htoward ▸ hx)
    obtain ⟨b'', hb'', hphis⟩ := hblocks b hb
    exact ⟨b'', hb'', hbrings.symm ▸ hsupplies.imp fun _ _ hs => hs.imp hphis⟩

theorem same_phis (b : Block) (y : Nat) :
    List.Forall₂ (fun e e' => e'.1 = e.1 ∧ arriving? e'.2 y = arriving? e.2 y) (phis b.instructions)
      (phis b.instructions) := List.forall₂_same.mpr fun _ _ => ⟨rfl, rfl⟩

theorem Way.congr (hw : r.Way c c' y x condition) (hy : r'.toward y = r.toward y ∧ r'.brings y = r.brings y)
    (hx : r'.toward x = r.toward x ∧ r'.brings x = r.brings x)
    (hblocks : ∀ b, c'.block x = .ok b → ∃ b'', c''.block x = .ok b'' ∧
      List.Forall₂ (fun e e' => e'.1 = e.1 ∧ arriving? e'.2 y = arriving? e.2 y)
        (phis b.instructions) (phis b''.instructions)) : r'.Way c c'' y x condition := by
  obtain ⟨vs, hoffers, haccepts⟩ := hw.values
  have htarget := target_congr hx.1
  refine ⟨fun h => ?_, fun t ht => ?_, vs, ?_, haccepts.congr hx.1 hx.2 hblocks⟩
  · rw [htarget]
    exact hw.old (hy.1 ▸ h)
  · rw [htarget]
    exact hw.new t (hy.1 ▸ ht)
  · rw [htarget]
    exact hoffers.congr hy.1 hy.2

theorem accepts_plain {t : Nat} {b : Block} (ht : r.toward x = some t) (hbrings : r.brings x = vs)
    (hb : c'.block x = .ok b) (hphis : phis b.instructions = []) : r.Accepts c' x y vs where
  old hx := by
    rw [ht] at hx
    cases hx
  new _ := by
    refine ⟨b, hb, ?_⟩
    rw [hbrings, hphis]
    exact List.forall₂_same.mpr fun v _ => .inl ⟨rfl, fun e he => (List.not_mem_nil he).elim⟩

end Routes

namespace FlowGraph

variable {h : Hooks} {r : Routes} {c c' c'' : FlowGraph} {k : Nat}

namespace Carries

theorem newBlock (hc : Carries h r c c') (hnew : c'.newBlock = .ok (k, c'')) {t : Nat}
    (ht : ∃ b, c.block t = .ok b) {ws : List Value} (hws : ∀ w ∈ ws, w.Avoids c'.nextTemp) :
    Carries h (r.set k t ws) c c'' ∧ r.toward k = none ∧ ∀ x, c''.graph.edges.get? (k, x) = none ∧
      c''.graph.edges.get? (x, k) = none := by
  obtain ⟨hk, -, hentry, htemps, hg⟩ := newBlock_ok hnew
  obtain ⟨hblock, hothers⟩ := block_newBlock hnew
  have hfresh : ∀ j b, c'.block j = .ok b → j ≠ k := fun j b hb => by
    have := hc.orderly.bounded j b hb
    omega
  have hnone : c'.graph.vertices.get? k = none := (Graph.insertVertex_ok hg).1
  have hedges : c''.graph.edges = c'.graph.edges := edges_newBlock hnew
  have hends : ∀ y x e, c'.graph.edges.get? (y, x) = some e → y ≠ k ∧ x ≠ k := by
    intro y x e he
    obtain ⟨hy, hx⟩ := hc.orderly.wired.ends y x (by rw [he]; rfl)
    constructor
    · rintro rfl
      rw [hnone] at hy
      cases hy
    · rintro rfl
      rw [hnone] at hx
      cases hx
  have hroutes : ∀ j t, r.toward j = some t → j ≠ k := fun j t hj => by
    obtain ⟨-, b, hb, -⟩ := hc.added j t hj
    exact hfresh j b hb
  have htoward : r.toward k = none := by
    cases hr : r.toward k with
    | none => rfl
    | some t => exact absurd rfl (hroutes k t hr)
  refine ⟨⟨hc.orderly.newBlock hnew, hentry.trans hc.entry, by rw [htemps]; exact hc.temps, fun j b hb => ?_,
    fun j t' hj => ?_, fun j hj w hw => ?_, fun y x e he => ?_, fun y x hx => ?_⟩, htoward, fun x => ?_⟩
  · obtain ⟨hj, b', hb', hkept⟩ := hc.kept j b hb
    have hne := hfresh j b' hb'
    exact ⟨(Routes.toward_set_of_ne hne).trans hj, b', (hothers j hne).trans hb', hkept⟩
  · by_cases hjk : j = k
    · subst hjk
      rw [Routes.toward_set_self] at hj
      cases hj
      exact ⟨ht, _, hblock, List.nodup_nil, fun e he => (List.not_mem_nil he).elim,
        fun z hz => (List.not_mem_nil hz).elim, fun z hz => (List.not_mem_nil hz).elim⟩
    · rw [Routes.toward_set_of_ne hjk] at hj
      obtain ⟨htarget, b, hb, hadded⟩ := hc.added j t' hj
      rw [Routes.brings_set_of_ne hjk]
      exact ⟨htarget, b, (hothers j hjk).trans hb, hadded⟩
  · rw [htemps]
    by_cases hjk : j = k
    · subst hjk
      rw [Routes.brings_set_self] at hw
      exact hws w hw
    · rw [Routes.toward_set_of_ne hjk] at hj
      rw [Routes.brings_set_of_ne hjk] at hw
      exact hc.brought j hj w hw
  · rw [hedges] at he
    obtain ⟨hy, hx⟩ := hends y x e he
    refine (hc.ways y x e he).congr ⟨Routes.toward_set_of_ne hy, Routes.brings_set_of_ne hy⟩
      ⟨Routes.toward_set_of_ne hx, Routes.brings_set_of_ne hx⟩ fun b hb => ?_
    exact ⟨b, (hothers x hx).trans hb, Routes.same_phis b y⟩
  · rw [hedges]
    obtain ⟨z, hz, htarget⟩ := hc.onward y x hx
    obtain ⟨e, he⟩ := Option.isSome_iff_exists.mp hz
    exact ⟨z, hz, (Routes.target_congr (Routes.toward_set_of_ne (hends y z e he).2)).trans htarget⟩
  · rw [hedges]
    constructor
    · cases he : c'.graph.edges.get? (k, x) with
      | none => rfl
      | some e => exact absurd rfl (hends k x e he).1
    · cases he : c'.graph.edges.get? (x, k) with
      | none => rfl
      | some e => exact absurd rfl (hends x k e he).2

theorem exists_target (hc : Carries h r c c') {y x : Nat} {e : Edge} (he : c'.graph.edges.get? (y, x) = some e) :
    ∃ b, c.block (r.target x) = .ok b := by
  have hway := hc.ways y x e he
  cases hy : r.toward y with
  | some t =>
    rw [hway.new t hy]
    exact (hc.added y t hy).1
  | none =>
    obtain ⟨vs, hoffers, -⟩ := hway.values
    obtain ⟨b, hb, -⟩ := hoffers.old hy
    exact ⟨b, hb⟩

/-- A graph may give way to one with other edges and other phis, if all ways still lead where they did. -/
theorem replace {r' : Routes} (hc : Carries h r c c') (orderly : c''.Orderly) (entry : c''.entry = c'.entry)
    (temps : c'.nextTemp ≤ c''.nextTemp)
    (routes : ∀ j b, c'.block j = .ok b → r'.toward j = r.toward j ∧ r'.brings j = r.brings j)
    (blocks : ∀ j b, c'.block j = .ok b → ∃ b', c''.block j = .ok b' ∧ b.Relabels (fun _ _ => True) b')
    (added : ∀ j t, r'.toward j = some t → (∃ b, c'.block j = .ok b) ∨ (∃ b, c.block t = .ok b) ∧
      (∃ b, c''.block j = .ok b ∧ Added h c.nextTemp (r'.brings j) b) ∧ ∀ w ∈ r'.brings j, w.Avoids c''.nextTemp)
    (ways : ∀ y x e, c''.graph.edges.get? (y, x) = some e → r'.Way c c'' y x e.condition)
    (onward : ∀ y t, (c.graph.edges.get? (y, t)).isSome →
      ∃ x, (c''.graph.edges.get? (y, x)).isSome ∧ r'.target x = t) : Carries h r' c c'' where
  orderly := orderly
  entry := entry.trans hc.entry
  temps := Nat.le_trans hc.temps temps
  kept k b hb := by
    obtain ⟨hk, b', hb', hkept⟩ := hc.kept k b hb
    obtain ⟨b'', hb'', hrelabels⟩ := blocks k b' hb'
    exact ⟨(routes k b' hb').1.trans hk, b'', hb'', hkept.relabel hrelabels⟩
  added k t hk := by
    rcases added k t hk with ⟨b', hb'⟩ | ⟨htarget, hadded, -⟩
    · obtain ⟨htoward, hbrings⟩ := routes k b' hb'
      obtain ⟨htarget, x, hx, hadded⟩ := hc.added k t (htoward ▸ hk)
      obtain ⟨x', hx', hrelabels⟩ := blocks k x hx
      rw [hbrings]
      exact ⟨htarget, x', hx', hadded.relabel hrelabels⟩
    · exact ⟨htarget, hadded⟩
  brought k hk w hw := by
    obtain ⟨t, ht⟩ := Option.isSome_iff_exists.mp hk
    rcases added k t ht with ⟨b', hb'⟩ | ⟨-, -, havoids⟩
    · obtain ⟨htoward, hbrings⟩ := routes k b' hb'
      rw [hbrings] at hw
      exact (hc.brought k (htoward ▸ hk) w hw).mono temps
    · exact havoids w hw
  ways := ways
  onward := onward

end Carries

end FlowGraph

namespace FlowGraph

variable {h : Hooks} {r : Routes} {c c' c'' : FlowGraph} {k : Nat}

section Edges

variable {head tail y x : Nat} {condition : Option Condition} {e : Edge}

theorem edge_insertEdge (hc : c.insertEdge head tail condition = .ok c') (y x : Nat) :
    c'.graph.edges.get? (y, x) =
      if (y, x) = (head, tail) then some (.make head tail condition) else c.graph.edges.get? (y, x) := by
  have hg := (Graph.insertEdge_ok (insertEdge_ok hc).1).2
  rw [hg]
  exact Table.get?_insert _ _ _ _

theorem edge_removeEdge (hc : c.removeEdge head tail = .ok (e, c')) (y x : Nat) :
    c'.graph.edges.get? (y, x) = if (y, x) = (head, tail) then none else c.graph.edges.get? (y, x) := by
  have hg := (Graph.removeEdge_ok (removeEdge_ok hc).1).2
  rw [hg]
  exact Table.get?_erase _ _ _

theorem block_insertEdge (hc : c.insertEdge head tail condition = .ok c') (j : Nat) : c'.block j = c.block j :=
  congrArg (Failure.orRaise · _) (congrArg (Table.get? · j) (Graph.vertices_of_insertEdge (insertEdge_ok hc).1))

theorem block_removeEdge (hc : c.removeEdge head tail = .ok (e, c')) (j : Nat) : c'.block j = c.block j :=
  congrArg (Failure.orRaise · _) (congrArg (Table.get? · j) (Graph.vertices_of_removeEdge (removeEdge_ok hc).1))

end Edges

/-- A block is left by no edge, by one that is always taken, or by two that test one value both ways. -/
def Decided (c : FlowGraph) : Prop := ∀ k es, c.graph.edgesOut k = .ok es →
  es = [] ∨ (∃ e, es = [e] ∧ e.condition = none) ∨ ∃ e e' v, es = [e, e'] ∧
    (e.condition = some (.isTrue v) ∧ e'.condition = some (.isFalse v) ∨
      e.condition = some (.isFalse v) ∧ e'.condition = some (.isTrue v))

theorem Decided.unconditional (decided : c.Decided) (wired : c.graph.Wired) {y t : Nat} {e : Edge}
    (he : c.graph.edges.get? (y, t) = some e) (sole : ∀ x, (c.graph.edges.get? (y, x)).isSome → x = t) :
    e.condition = none := by
  have hsome : (c.graph.edges.get? (y, t)).isSome := by rw [he]; rfl
  obtain ⟨s, hs⟩ := Option.isSome_iff_exists.mp ((wired.hasSuccessors y).trans (wired.ends y t hsome).1)
  have hkeys : ∀ x, x ∈ s.keys ↔ (c.graph.edges.get? (y, x)).isSome := by
    intro x
    rw [← wired.successors, Graph.successorsOf, hs]
    rfl
  have hone : s.keys = [t] := by
    have hnodup := Table.nodup_keys s
    have hall : ∀ x ∈ s.keys, x = t := fun x hx => sole x ((hkeys x).mp hx)
    have hmem := (hkeys t).mpr hsome
    rcases hl : s.keys with _ | ⟨x, _ | ⟨z, rest⟩⟩
    · rw [hl] at hmem
      cases hmem
    · rw [hall x (by rw [hl]; exact List.mem_cons_self)]
    · rw [hl] at hnodup
      have hx := hall x (by rw [hl]; exact List.mem_cons_self)
      have hz := hall z (by rw [hl]; exact List.mem_cons_of_mem _ List.mem_cons_self)
      refine absurd ?_ (List.nodup_cons.mp hnodup).1
      rw [hx, hz]
      exact List.mem_cons_self
  have hedges : c.graph.edgesOut y = .ok [e] := by
    refine Graph.edgesOut_eq_ok.mpr ⟨s, hs, ?_⟩
    rw [hone]
    exact .cons he .nil
  rcases decided y [e] hedges with hnil | ⟨e', heq, hnone⟩ | ⟨e', e'', v, heq, -⟩
  · cases hnil
  · cases heq
    exact hnone
  · cases heq

theorem newBlock_withTemps {next : Nat} (hc : (c.withTemps next).newBlock = .ok (k, c')) :
    ∃ c₀, c.newBlock = .ok (k, c₀) ∧ c' = c₀.withTemps next := by
  obtain ⟨number, hnumber, hc⟩ := bind_eq_ok.mp hc
  obtain ⟨g, hg, hc⟩ := bind_eq_ok.mp hc
  cases hc
  exact ⟨_, bind_eq_ok.mpr ⟨number, hnumber, bind_eq_ok.mpr ⟨g, hg, rfl⟩⟩, rfl⟩

namespace Carries

theorem withTemps (hc : Carries h r c c') {next : Nat} (hnext : c'.nextTemp ≤ next) :
    Carries h r c (c'.withTemps next) where
  orderly := hc.orderly.withTemps next
  entry := hc.entry
  temps := Nat.le_trans hc.temps hnext
  kept := hc.kept
  added := hc.added
  brought k hk w hw := (hc.brought k hk w hw).mono hnext
  ways y x e he := by
    have hway := hc.ways y x e he
    obtain ⟨vs, hoffers, haccepts⟩ := hway.values
    exact ⟨hway.old, hway.new, vs, hoffers, haccepts.old, haccepts.new⟩
  onward := hc.onward

end Carries

/-- Two blocks between a block and the one it leads to: one is passed through or not, and both meet in the
other. -/
structure Bypassed (c : FlowGraph) (y x guards join : Nat) (test : Value) (c' : FlowGraph) : Prop where
  fields : c'.entry = c.entry ∧ c'.nextTemp = c.nextTemp
  orderly : c'.Orderly
  others : ∀ a b, ¬ (a = y ∨ a = guards ∨ a = join) → c'.graph.edges.get? (a, b) = c.graph.edges.get? (a, b)
  tests : ∀ b e, c'.graph.edges.get? (y, b) = some e → b = guards ∨ b = join
  passes : ∀ b e, c'.graph.edges.get? (guards, b) = some e → b = join
  joins : ∀ b e, c'.graph.edges.get? (join, b) = some e → b = x
  through : (c'.graph.edges.get? (y, guards)).isSome
  arrives : (c'.graph.edges.get? (join, x)).isSome
  header : ∃ b, c.block x = .ok b ∧ c'.block x = .ok { b with
    instructions := b.instructions.map (GuardDecision.renameIncoming y join) }
  blocks : ∀ j, j ≠ x → c'.block j = c.block j

theorem bypassed {y x guards join : Nat} {test : Value} {e : Edge} {c₁ c₂ c₃ c₄ c₅ c₆ : FlowGraph}
    (orderly : c.Orderly) (sole : ∀ b, (c.graph.edges.get? (y, b)).isSome → b = x)
    (hguards : ∀ b, c.graph.edges.get? (guards, b) = none) (hjoin : ∀ b, c.graph.edges.get? (join, b) = none)
    (before : y < guards) (behind : guards < join) (known : join < c.nextBlock)
    (h₁ : c.removeEdge y x = .ok (e, c₁)) (h₂ : c₁.insertEdge y guards (some (.isTrue test)) = .ok c₂)
    (h₃ : c₂.insertEdge y join (some (.isFalse test)) = .ok c₃) (h₄ : c₃.insertEdge guards join none = .ok c₄)
    (h₅ : c₄.insertEdge join x none = .ok c₅)
    (h₆ : c₅.modifyBlock x (fun b => pure { b with
      instructions := b.instructions.map (GuardDecision.renameIncoming y join) }) = .ok c₆) :
    c.Bypassed y x guards join test c₆ := by
  have hedges : ∀ a b, c₆.graph.edges.get? (a, b) =
      if (a, b) = (join, x) then some (.make join x none)
      else if (a, b) = (guards, join) then some (.make guards join none)
      else if (a, b) = (y, join) then some (.make y join (some (.isFalse test)))
      else if (a, b) = (y, guards) then some (.make y guards (some (.isTrue test)))
      else if (a, b) = (y, x) then none else c.graph.edges.get? (a, b) := by
    intro a b
    rw [edges_modifyBlock h₆, edge_insertEdge h₅, edge_insertEdge h₄, edge_insertEdge h₃, edge_insertEdge h₂, edge_removeEdge h₁]
  have hblocks : ∀ j, c₅.block j = c.block j := fun j =>
    (block_insertEdge h₅ j).trans <| (block_insertEdge h₄ j).trans <| (block_insertEdge h₃ j).trans <|
      (block_insertEdge h₂ j).trans (block_removeEdge h₁ j)
  have orderly₅ := ((((orderly.removeEdge h₁).insertEdge h₂).insertEdge h₃).insertEdge h₄).insertEdge h₅
  obtain ⟨b, b', hb, hb', hx, hothers⟩ := block_modifyBlock h₆
  cases hb'
  have hfields : c₅.entry = c.entry ∧ c₅.nextTemp = c.nextTemp ∧ c₅.nextBlock = c.nextBlock := by
    rw [(insertEdge_ok h₅).2, (insertEdge_ok h₄).2, (insertEdge_ok h₃).2, (insertEdge_ok h₂).2, (removeEdge_ok h₁).2]
    exact ⟨rfl, rfl, rfl⟩
  obtain ⟨hentry, htemps, -⟩ := modifyBlock_fields h₆
  have hguardsy : guards ≠ y := Nat.ne_of_gt before
  have hjoiny : join ≠ y := by omega
  have hjoing : join ≠ guards := Nat.ne_of_gt behind
  refine ⟨⟨hentry.trans hfields.1, htemps.trans hfields.2.1⟩, ?_, fun a b hab => ?_, fun b e he => ?_, fun b e he => ?_,
    fun b e he => ?_, ?_, ?_, ⟨b, (hblocks x).symm.trans hb, hx⟩, fun j hj => (hothers j hj).trans (hblocks j)⟩
  · refine orderly₅.modifyBlock (fun b b' hb hb' => ?_) (fun b b' hb hb' i hi dst incoming ho e he => ?_) h₆
    · cases hb'
      exact ⟨Block.numbered_of_map (fun i => (GuardDecision.renameIncoming_fields _ _ i).1) hb, rfl⟩
    · cases hb'
      obtain ⟨i', hi', rfl⟩ := List.mem_map.mp hi
      rw [(GuardDecision.renameIncoming_fields _ _ i').2.2] at ho
      cases hphi : i'.operation.isPhi with
      | false =>
        rw [GuardDecision.relabel_of_notPhi hphi] at ho
        rw [ho] at hphi
        cases hphi
      | true =>
        obtain ⟨dst', incoming', ho'⟩ := Activation.exists_phi hphi
        rw [ho'] at ho
        cases ho
        obtain ⟨e', he', rfl⟩ := List.mem_map.mp he
        have hold := orderly₅.known x b hb i' hi' _ _ ho' e' he'
        rw [hfields.2.2] at hold ⊢
        dsimp only
        split
        · exact known
        · exact hold
  · rw [hedges]
    simp only [Prod.mk.injEq]
    rw [if_neg (by tauto), if_neg (by tauto), if_neg (by tauto), if_neg (by tauto), if_neg (by tauto)]
  · rw [hedges] at he
    simp only [Prod.mk.injEq, Ne.symm hjoiny, Ne.symm hguardsy, false_and, if_false, true_and] at he
    by_cases hbj : b = join
    · exact .inr hbj
    by_cases hbg : b = guards
    · exact .inl hbg
    rw [if_neg hbj, if_neg hbg] at he
    split at he
    · cases he
    · rename_i hbx
      exact absurd (sole b (by rw [he]; rfl)) hbx
  · rw [hedges] at he
    simp only [Prod.mk.injEq, Ne.symm hjoing, hguardsy, false_and, if_false, true_and] at he
    split at he
    · assumption
    · rw [hguards] at he
      cases he
  · rw [hedges] at he
    simp only [Prod.mk.injEq, hjoing, hjoiny, false_and, if_false, true_and] at he
    split at he
    · assumption
    · rw [hjoin] at he
      cases he
  · rw [hedges]
    simp only [Prod.mk.injEq, Ne.symm hjoiny, Ne.symm hguardsy, Ne.symm hjoing, false_and, and_false, if_false, true_and]
    rfl
  · rw [hedges, if_pos rfl]
    rfl

namespace Carries

/-- The way through new blocks stands for the edge that they take the place of. -/
theorem bypass (hc : Carries h r c c') (decided : c.Decided) (wired : c.graph.Wired) {y x guards join t : Nat}
    {test : Value} {vs : List Value} {e : Edge} (he : c'.graph.edges.get? (y, x) = some e)
    (sole : ∀ b, (c'.graph.edges.get? (y, b)).isSome → b = x) (htarget : r.target x = t) (offers : r.Offers c y t vs)
    (hguards : r.toward guards = some t ∧ r.brings guards = vs) (hjoin : r.toward join = some t ∧ r.brings join = vs)
    (hplain : ∀ j, j = guards ∨ j = join → j ≠ x ∧ ∃ b, c'.block j = .ok b ∧ phis b.instructions = [])
    (hlabels : ∀ b, c'.block x = .ok b → ∀ e ∈ phis b.instructions, ∀ l ∈ e.2, l.2 ≠ join)
    (hnone : ∀ z, (c'.graph.edges.get? (join, z)).isSome = false)
    (hb : c'.Bypassed y x guards join test c'') : Carries h r c c'' := by
  have hway := hc.ways y x e he
  obtain ⟨vs', hoffers, haccepts⟩ := hway.values
  -- The edge of the first graph is its only one there, so it needs no test.
  have hold : r.toward y = none → ∃ e, c.graph.edges.get? (y, t) = some e ∧ e.condition = none := by
    intro hy
    obtain ⟨e', he', -⟩ := hway.old hy
    rw [htarget] at he'
    refine ⟨e', he', decided.unconditional wired he' fun s hs => ?_⟩
    obtain ⟨z, hz, hztarget⟩ := hc.onward y s hs
    rw [sole z hz, htarget] at hztarget
    exact hztarget.symm
  have hsame : vs' = vs := by
    rw [htarget] at hoffers
    cases hy : r.toward y with
    | some s => rw [hoffers.new (by rw [hy]; rfl), offers.new (by rw [hy]; rfl)]
    | none =>
      obtain ⟨b, hblock, htakes⟩ := hoffers.old hy
      obtain ⟨b', hblock', htakes'⟩ := offers.old hy
      cases hblock.symm.trans hblock'
      exact htakes.unique htakes'
  subst hsame
  have hnewPlain : ∀ j, j = guards ∨ j = join → ∀ z, r.Accepts c'' j z vs' := by
    intro j hj z
    obtain ⟨hjx, b, hb', hphis⟩ := hplain j hj
    rcases hj with rfl | rfl
    · exact Routes.accepts_plain hguards.1 hguards.2 ((hb.blocks _ hjx).trans hb') hphis
    · exact Routes.accepts_plain hjoin.1 hjoin.2 ((hb.blocks _ hjx).trans hb') hphis
  have hnewTarget : ∀ j, j = guards ∨ j = join → r.target j = t := by
    rintro j (rfl | rfl)
    · exact Routes.target_of_toward hguards.1
    · exact Routes.target_of_toward hjoin.1
  -- From the first block to a new one.
  have hleave : ∀ j condition, j = guards ∨ j = join → r.Way c c'' y j condition := by
    intro j condition hj
    refine ⟨fun hy => ?_, fun s hs => ?_, vs', ?_, hnewPlain j hj y⟩
    · obtain ⟨e', he', hcondition⟩ := hold hy
      exact ⟨e', (hnewTarget j hj).symm ▸ he', .inl hcondition⟩
    · rw [hnewTarget j hj, ← htarget]
      exact hway.new s hs
    · rw [hnewTarget j hj]
      exact offers
  have hnew : ∀ j z condition, r.toward j = some t ∧ r.brings j = vs' → r.target z = t → r.Accepts c'' z j vs' →
      r.Way c c'' j z condition := by
    intro j z condition hj hz haccepts
    refine ⟨fun hnone => ?_, fun s hs => ?_, vs', ⟨fun hnone => ?_, fun _ => hj.2.symm⟩, haccepts⟩
    · rw [hj.1] at hnone
      cases hnone
    · rw [hj.1] at hs
      cases hs
      exact hz
    · rw [hj.1] at hnone
      cases hnone
  -- The phis of the header take from the last new block what they took from the first block.
  obtain ⟨bx, hbx, hbx'⟩ := hb.header
  have hrelabels : bx.Relabels (fun l l' => l' = relabelled y join l ∧ ∀ e ∈ l, e.2 ≠ join)
      { bx with instructions := bx.instructions.map (GuardDecision.renameIncoming y join) } :=
    (Block.relabels_rename bx y join).imp fun e he l hl => ⟨hl, fun e' he' => hlabels bx hbx e he e' he'⟩
  have hheader : r.Accepts c'' x join vs' := by
    refine haccepts.congr rfl rfl fun b hb' => ?_
    cases hbx.symm.trans hb'
    refine ⟨_, hbx', hrelabels.phis.imp fun e e' he => ⟨he.1, ?_⟩⟩
    rw [he.2.1]
    exact arriving?_relabelled_new he.2.2
  refine hc.replace hb.orderly hb.fields.1 (Nat.le_of_eq hb.fields.2.symm) (fun _ _ _ => ⟨rfl, rfl⟩)
    (fun j b hj => ?_) (fun j s hs => ?_) (fun a z e' he' => ?_) (fun a s hs => ?_)
  · by_cases hjx : j = x
    · subst hjx
      cases hbx.symm.trans hj
      exact ⟨_, hbx', (Block.relabels_rename _ y join).imp fun _ _ _ _ => trivial⟩
    · exact ⟨b, (hb.blocks j hjx).trans hj, .refl fun _ => trivial⟩
  · obtain ⟨-, b, hj, -⟩ := hc.added j s hs
    exact .inl ⟨b, hj⟩
  · by_cases hay : a = y
    · subst hay
      exact hleave z _ (hb.tests z e' he')
    by_cases hag : a = guards
    · subst hag
      obtain rfl := hb.passes z e' he'
      exact hnew a z _ hguards (hnewTarget z (.inr rfl)) (hnewPlain z (.inr rfl) a)
    by_cases haj : a = join
    · subst haj
      obtain rfl := hb.joins z e' he'
      exact hnew a z _ hjoin htarget hheader
    rw [hb.others a z (by tauto)] at he'
    refine (hc.ways a z e' he').congr ⟨rfl, rfl⟩ ⟨rfl, rfl⟩ fun b hz => ?_
    by_cases hzx : z = x
    · subst hzx
      cases hbx.symm.trans hz
      refine ⟨_, hbx', hrelabels.phis.imp fun e e' he => ⟨he.1, ?_⟩⟩
      rw [he.2.1]
      exact arriving?_relabelled_of_ne hay haj
    · exact ⟨b, (hb.blocks z hzx).trans hz, Routes.same_phis b a⟩
  · obtain ⟨z, hz, hztarget⟩ := hc.onward a s hs
    by_cases hay : a = y
    · subst hay
      rw [sole z hz, htarget] at hztarget
      exact ⟨guards, hb.through, (hnewTarget guards (.inl rfl)).trans hztarget⟩
    by_cases hag : a = guards
    · subst hag
      obtain ⟨b, hb'⟩ := Option.isSome_iff_exists.mp (wired.ends a s hs).1
      have := (hc.kept a b (block_eq_ok.mpr hb')).1
      rw [hguards.1] at this
      cases this
    by_cases haj : a = join
    · subst haj
      rw [hnone] at hz
      cases hz
    exact ⟨z, by rw [hb.others a z (by tauto)]; exact hz, hztarget⟩

end Carries

end FlowGraph

end RegionGuard

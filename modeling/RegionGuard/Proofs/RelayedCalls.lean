import RegionGuard.Proofs.Relays
set_option autoImplicit false

/-!
# Calls of relayed functions

A call of the second version of a function is at the place where a call of the first one is, or at a stop on
the way to the block that the first one enters next. Entering the stop reads some of the values that entering
the block reads, so both fail if one of these is not to be had, but maybe not over the same one.
-/

namespace RegionGuard

theorem mapM_congr_of_forall₂ {α β γ : Type} {f : α → Outcome γ} {g : β → Outcome γ} {l : List α} {r : List β}
    (h : List.Forall₂ (fun a b => f a = g b) l r) : l.mapM f = r.mapM g := by
  induction h with
  | nil => rfl
  | cons hhead _ ih => rw [List.mapM_cons, List.mapM_cons, hhead, ih]

theorem exists_of_mapM_error {α β : Type} {f : α → Outcome β} {l : List α} {e : Failure} (h : l.mapM f = .error e) :
    ∃ x ∈ l, f x = .error e := by
  induction l with
  | nil => cases h
  | cons x rest ih =>
    rw [List.mapM_cons] at h
    cases hx : f x with
    | error e' =>
      rw [hx] at h
      cases h
      exact ⟨x, List.mem_cons_self, hx⟩
    | ok y =>
      rw [hx] at h
      cases hrest : rest.mapM f with
      | error e' =>
        rw [hrest] at h
        cases h
        obtain ⟨x', hx', he⟩ := ih hrest
        exact ⟨x', List.mem_cons_of_mem x hx', he⟩
      | ok ys =>
        rw [hrest] at h
        cases h

theorem mapM_error_of_mem {α β : Type} {f : α → Outcome β} {l : List α} {x : α} (hx : x ∈ l) {e : Failure}
    (he : f x = .error e) : ∃ e', l.mapM f = .error e' := by
  cases h : l.mapM f with
  | error e' => exact ⟨e', rfl⟩
  | ok ys =>
    obtain ⟨y, -, hy⟩ := exists_of_mem_forall₂ (mapM_eq_ok.mp h).flip hx
    rw [he] at hy
    cases hy

open Activation (phis)

theorem FlowGraph.Plain.avoids_of_arriving {c : FlowGraph} (plain : c.Plain) {x y : Nat} {b : Block}
    (hb : c.block x = .ok b) {e : Variable × List (Value × Nat)} (he : e ∈ phis b.instructions) {v : Value}
    (hv : arriving? e.2 y = some v) : v.Avoids c.nextTemp := by
  obtain ⟨i, hi, ho⟩ := mem_phis he
  refine (plain.tidy.code x b (block_eq_ok.mp hb) i hi).avoids.reads v ?_
  rw [ho]
  exact List.mem_map_of_mem (Preheader.mem_of_arriving? hv)

namespace Activation

variable {a a' b b' : Activation} {M : Machine} {via : Nat → Nat → Option Nat} {x y p : Nat} {e : Failure}

section Values

variable {previous : Option Nat} {ps : List (Variable × List (Value × Nat))}

theorem phiValue_of_none {dst : Variable} {incoming : List (Value × Nat)} (h : arriving? incoming y = none) :
    a.phiValue M (some y) dst incoming = .error (.error (.execution (.noIncoming dst y))) := by
  change (do
    let arriving ← Failure.orRaise (incoming.find? (·.2 = y)) (.execution (.noIncoming dst y))
    a.value M arriving.1 : Outcome Constant) = _
  rw [show incoming.find? (·.2 = y) = none from Option.map_eq_none_iff.mp h]
  rfl

theorem exists_of_phiValues_error (h : a.phiValues M previous ps = .error e) :
    ∃ φ ∈ ps, a.phiValue M previous φ.1 φ.2 = .error e := by
  obtain ⟨⟨dst, incoming⟩, hφ, herror⟩ := exists_of_mapM_error h
  refine ⟨(dst, incoming), hφ, ?_⟩
  change (do return (dst, ← a.phiValue M previous dst incoming) : Outcome (Variable × Constant)) = _ at herror
  cases hc : a.phiValue M previous dst incoming with
  | error e' =>
    rw [hc] at herror
    cases herror
    rfl
  | ok c =>
    rw [hc] at herror
    cases herror

theorem phiValues_error_of_mem {φ : Variable × List (Value × Nat)} (hφ : φ ∈ ps)
    (h : a.phiValue M previous φ.1 φ.2 = .error e) : ∃ e', a.phiValues M previous ps = .error e' := by
  refine mapM_error_of_mem hφ (e := e) ?_
  change (do return (φ.1, ← a.phiValue M previous φ.1 φ.2) : Outcome (Variable × Constant)) = _
  rw [h]
  rfl

end Values

/-- A value that a phi of the next block takes is not to be had. -/
def Misses (M : Machine) (a : Activation) (e : Failure) : Prop :=
  a.remaining = [] ∧ ∃ x z, a.next M = .ok x ∧ a.body.block x = .ok z ∧
    ∃ φ ∈ phis z.instructions, ∃ v, arriving? φ.2 a.block = some v ∧ a.value M v = .error e

theorem error_of_value {v : Value} (h : a.value M v = .error e) : ∃ e', e = .error e' := by
  unfold value at h
  cases v with
  | «variable» x =>
    cases hx : a.scalars.get? x.name with
    | none =>
      simp only [hx] at h
      cases h
      exact ⟨_, rfl⟩
    | some c =>
      simp only [hx] at h
      cases h
  | argument x =>
    cases hx : a.arguments[x.index]? with
    | none =>
      simp only [hx] at h
      cases h
      exact ⟨_, rfl⟩
    | some c =>
      simp only [hx] at h
      cases h
  | constant c => cases h
  | null => cases h
  | global name =>
    cases hx : M.image.globalAddress? name with
    | none =>
      simp only [hx] at h
      cases h
      exact ⟨_, rfl⟩
    | some w =>
      simp only [hx] at h
      cases h
  | function name =>
    cases hx : M.image.functionAddress? name with
    | none =>
      simp only [hx] at h
      cases h
      exact ⟨_, rfl⟩
    | some w =>
      simp only [hx] at h
      cases h

theorem Misses.error (h : a.Misses M e) : ∃ e', e = .error e' := by
  obtain ⟨-, x, z, -, -, φ, -, v, -, hv⟩ := h
  exact error_of_value hv

theorem Misses.nextBlock (h : a.Misses M e) (plain : a.body.Plain) :
    ∃ e', a.nextBlock M = .error e' ∧ a.Misses M e' := by
  obtain ⟨hended, x, z, hnext, hz, φ, hφ, v, hv, hvalue⟩ := h
  obtain ⟨e', he'⟩ := phiValues_error_of_mem hφ ((phiValue_of_arriving hv).trans hvalue)
  refine ⟨e', ?_, hended, x, z, hnext, hz, ?_⟩
  · rw [nextBlock_eq, hnext]
    change enterBlock M a (some a.block) x = _
    rw [enterBlock_eq, hz]
    change (phiValues M a (some a.block) (phis z.instructions) >>= _) = _
    rw [he']
    rfl
  · obtain ⟨ψ, hψ, herror⟩ := exists_of_phiValues_error he'
    obtain ⟨edge, hedge, -⟩ := exists_edge_of_next plain.wired plain.tidy.filed hnext
    obtain ⟨w, hw⟩ := plain.complete a.block x (by rw [hedge]; rfl) z hz ψ hψ
    exact ⟨ψ, hψ, w, hw, (phiValue_of_arriving hw).symm.trans herror⟩

/-- Two calls of the versions of a function at the same place. -/
structure Alongside (a b : Activation) : Prop where
  linked : a.body.Linked b.body
  agrees : Agrees a.body.nextTemp a b
  block : b.block = a.block
  known : ∃ z, a.body.block a.block = .ok z
  code : b.remaining.map (·.operation) = a.remaining.map (·.operation)
  avoids : ∀ i ∈ a.remaining, i.operation.Avoids a.body.nextTemp

/-- Two such calls, the first one at the end of a block, and the second one at a stop on the way to the next
one. -/
structure Waits (M : Machine) (x : Nat) (a b : Activation) : Prop where
  linked : a.body.Linked b.body
  agrees : Agrees a.body.nextTemp a b
  ended : a.remaining = []
  ended' : b.remaining = []
  next : a.next M = .ok x
  onward : b.next M = .ok x
  brings : ∀ z z', a.body.block x = .ok z → b.body.block x = .ok z' →
    List.Forall₂ (fun φ φ' => φ'.1 = φ.1 ∧ ∃ v w, arriving? φ.2 a.block = some v ∧ arriving? φ'.2 b.block = some w ∧
      a.value M v = b.value M w) (phis z.instructions) (phis z'.instructions)

theorem Alongside.assign (hab : a.Alongside b) (dst : Variable) (c : Constant) : (a.assign dst c).Alongside (b.assign dst c) :=
  ⟨hab.linked, hab.agrees.assign dst c, hab.block, hab.known, hab.code, hab.avoids⟩

theorem enterBlock_alike (linked : a.body.Linked b.body) (agrees : Agrees a.body.nextTemp a b) {previous previous' : Option Nat}
    {z : Block} (hz : a.body.block x = .ok z)
    (same : ∀ z', b.body.block x = .ok z' → a.phiValues M previous (phis z.instructions) =
      b.phiValues M previous' (phis z'.instructions)) :
    (∃ e, a.enterBlock M previous x = .error e ∧ b.enterBlock M previous' x = .error e) ∨
      ∃ a' b', a.enterBlock M previous x = .ok a' ∧ b.enterBlock M previous' x = .ok b' ∧ a'.Alongside b' := by
  obtain ⟨via, relays⟩ := id linked
  obtain ⟨z', hz', hrelabels⟩ := relays.blocks x z hz
  have hcode : (behind z'.instructions).map (·.operation) = (behind z.instructions).map (·.operation) := by
    refine map_eq_of_forall₂ (List.Forall₂.imp ?_ ((List.forall₂_and_left _ _).mpr
      ⟨fun i hi => relays.ordered x z hz i hi, hrelabels.behind⟩))
    rintro i j ⟨hnot, heq | ⟨hphi, -⟩⟩
    · exact heq
    · rw [hphi] at hnot
      cases hnot
  rw [enterBlock_eq, enterBlock_eq, hz, hz']
  change (∃ e, (phiValues M a previous (phis z.instructions) >>= _) = _ ∧
    (phiValues M b previous' (phis z'.instructions) >>= _) = _) ∨
    ∃ a' b', (phiValues M a previous (phis z.instructions) >>= _) = _ ∧
      (phiValues M b previous' (phis z'.instructions) >>= _) = _ ∧ _
  rw [← same z' hz']
  cases phiValues M a previous (phis z.instructions) with
  | error e => exact .inl ⟨e, rfl, rfl⟩
  | ok values =>
    refine .inr ⟨_, _, rfl, rfl, ?_⟩
    have hagrees := agrees.foldl_assign values
    obtain ⟨scalars, hs⟩ := foldl_assign values a
    obtain ⟨scalars', hs'⟩ := foldl_assign values b
    rw [hs, hs'] at hagrees ⊢
    refine ⟨linked, ⟨hagrees.arguments, hagrees.stackPointer, hagrees.receiver, hagrees.scalars⟩, rfl, ⟨z, hz⟩, hcode,
      fun i hi => ?_⟩
    exact (relays.plain.tidy.code x z (FlowGraph.block_eq_ok.mp hz) i ((List.dropWhile_suffix _).subset hi)).avoids

theorem starts_alike (linked : a.body.Linked b.body) (agrees : Agrees a.body.nextTemp a b) {entry : Nat}
    (hentry : a.body.entry = some entry) :
    (∃ e, a.enterBlock M none entry = .error e ∧ b.enterBlock M none entry = .error e) ∨
      ∃ a' b', a.enterBlock M none entry = .ok a' ∧ b.enterBlock M none entry = .ok b' ∧ a'.Alongside b' := by
  obtain ⟨via, relays⟩ := id linked
  obtain ⟨z, hz⟩ := relays.plain.started entry hentry
  obtain ⟨z', hz', hrelabels⟩ := relays.blocks entry z hz
  refine enterBlock_alike linked agrees hz fun z'' hz'' => ?_
  cases hz'.symm.trans hz''
  refine mapM_congr_of_forall₂ (hrelabels.phis.imp ?_)
  rintro ⟨dst, l⟩ ⟨dst', l'⟩ ⟨rfl, -⟩
  rfl

inductive Proceed (M : Machine) (a b : Activation) : Prop
  | fails {e : Failure} (first : a.nextBlock M = .error e) (second : b.nextBlock M = .error e)
  | enters {a' b' : Activation} (first : a.nextBlock M = .ok a') (second : b.nextBlock M = .ok b') (along : a'.Alongside b')
  | waits {x : Nat} {b' : Activation} (second : b.nextBlock M = .ok b') (waits : Waits M x a b')
  | misses {e e' : Failure} (first : a.nextBlock M = .error e) (second : b.nextBlock M = .error e')
      (misses : a.Misses M e) (misses' : a.Misses M e')

/-- The second call leaves a block for where the first one goes, or for the stop on the way. -/
theorem Alongside.next (hab : a.Alongside b) (relays : FlowGraph.Relays via a.body b.body) :
    b.next M = (a.next M).map (FlowGraph.stop via a.block) := by
  obtain ⟨z, hz⟩ := hab.known
  obtain ⟨z', hz', -⟩ := relays.blocks a.block z hz
  refine next_of_diverts relays.plain.wired relays.plain.tidy.filed relays.plain'.wired relays.plain'.tidy.filed hz
    (relays.plain.decided.exits relays.plain.wired ?_) hz' hab.block (relays.diverts a.block z hz) fun w e he c hc => ?_
  · rw [FlowGraph.block_eq_ok.mp hz]
    rfl
  · exact (hab.agrees.word rfl ((relays.plain.tidy.edges _ _ _ he).2 c hc)).symm

theorem Alongside.phiValues (hab : a.Alongside b) (plain : a.body.Plain) {z z' : Block} (hz : a.body.block x = .ok z)
    (same : FlowGraph.SamePhis a.block z z') :
    a.phiValues M (some a.block) (phis z.instructions) = b.phiValues M (some b.block) (phis z'.instructions) := by
  refine mapM_congr_of_forall₂ (List.Forall₂.imp ?_ ((List.forall₂_and_left _ _).mpr ⟨fun φ hφ => hφ, same⟩))
  rintro ⟨dst, l⟩ ⟨dst', l'⟩ ⟨hφ, rfl, harriving⟩
  simp only [hab.block]
  suffices h : a.phiValue M (some a.block) dst' l = b.phiValue M (some a.block) dst' l' by rw [h]
  cases hl : arriving? l a.block with
  | some v =>
    rw [phiValue_of_arriving hl, phiValue_of_arriving (harriving.trans hl)]
    exact hab.agrees.value rfl (plain.avoids_of_arriving hz hφ hl)
  | none => rw [phiValue_of_none hl, phiValue_of_none (harriving.trans hl)]

/-- The second call comes to a stop on the way, or fails there as the first one fails behind it. -/
theorem Alongside.stops (hab : a.Alongside b) (relays : FlowGraph.Relays via a.body b.body) (ended : a.remaining = [])
    (hx : a.next M = .ok x) {z : Block} (hz : a.body.block x = .ok z) (hstop : a.body.Stop b.body a.block x p) :
    (∃ e e', a.nextBlock M = .error e ∧ b.enterBlock M (some b.block) p = .error e' ∧ a.Misses M e ∧ a.Misses M e') ∨
      ∃ b', b.enterBlock M (some b.block) p = .ok b' ∧ Waits M x a b' := by
  obtain ⟨z', hz', -⟩ := relays.blocks x z hz
  obtain ⟨front, hfront, hbehind, hnodup, hupcoming, hsources, hpasses⟩ := hstop.passes z z' hz hz'
  rw [enterBlock_eq, hfront]
  change (∃ e e', _ ∧ (b.phiValues M (some b.block) (phis front.instructions) >>= _) = _ ∧ _) ∨
    ∃ b', (b.phiValues M (some b.block) (phis front.instructions) >>= _) = _ ∧ _
  rw [hab.block]
  cases hvalues : b.phiValues M (some a.block) (phis front.instructions) with
  | error e' =>
    -- The stop reads a value that the first call reads, too.
    obtain ⟨φ', hφ', herror⟩ := exists_of_phiValues_error hvalues
    obtain ⟨φ, hφ, v, hv', hv⟩ := hsources φ' hφ'
    rw [phiValue_of_arriving hv'] at herror
    have hmisses : a.Misses M e' := ⟨ended, x, z, hx, hz, φ, hφ, v, hv,
      (hab.agrees.value rfl (relays.plain.avoids_of_arriving hz hφ hv)).trans herror⟩
    obtain ⟨e, he, hmisses₀⟩ := hmisses.nextBlock relays.plain
    exact .inl ⟨e, e', he, rfl, hmisses₀, hmisses⟩
  | ok values =>
    have hagrees : Agrees a.body.nextTemp a (values.foldl (fun b e => b.assign e.1 e.2) b) := by
      refine hab.agrees.foldl_assign_right fun w hw => ?_
      have hmem : w.1 ∈ (phis front.instructions).map (·.1) := phiValues_dst hvalues ▸ List.mem_map_of_mem hw
      obtain ⟨φ, hφ, heq⟩ := List.mem_map.mp hmem
      exact heq ▸ hupcoming φ hφ
    have hbrings : List.Forall₂ (fun φ φ' => φ'.1 = φ.1 ∧ ∃ v w, arriving? φ.2 a.block = some v ∧
        arriving? φ'.2 p = some w ∧ a.value M v = (values.foldl (fun b e => b.assign e.1 e.2) b).value M w)
        (phis z.instructions) (phis z'.instructions) := by
      refine List.Forall₂.imp ?_ ((List.forall₂_and_left _ _).mpr ⟨fun φ hφ => hφ, hpasses⟩)
      rintro φ φ' ⟨hφ, hdst, v, w, hv, hw, hsupplies⟩
      refine ⟨hdst, v, w, hv, hw, ?_⟩
      rw [hab.agrees.value rfl (relays.plain.avoids_of_arriving hz hφ hv)]
      exact (value_of_supplies hnodup hvalues hsupplies).symm
    refine .inr ⟨{ values.foldl (fun b e => b.assign e.1 e.2) b with
      block := p, remaining := behind front.instructions }, rfl, ?_⟩
    obtain ⟨scalars, hs⟩ := foldl_assign values b
    rw [hs] at hagrees hbrings ⊢
    refine ⟨hab.linked, ⟨hagrees.arguments, hagrees.stackPointer, hagrees.receiver, hagrees.scalars⟩,
      ended, hbehind, hx, ?_, fun w w' hw hw' => ?_⟩
    · obtain ⟨edge, hedge, halways⟩ := hstop.onward
      exact next_of_one (a := { b.withScalars scalars with block := p, remaining := behind front.instructions })
        relays.plain'.wired relays.plain'.tidy.filed hedge halways hstop.sole
    · cases hz.symm.trans hw
      cases hz'.symm.trans hw'
      exact hbrings

/-- At the end of a block the second call goes where the first one does, or to a stop on the way. -/
theorem Alongside.proceeds (hab : a.Alongside b) (ended : a.remaining = []) : Proceed M a b := by
  obtain ⟨via, relays⟩ := id hab.linked
  have hnext := hab.next (M := M) relays
  cases hx : a.next M with
  | error e =>
    rw [hx] at hnext
    refine .fails (e := e) ?_ ?_
    · rw [nextBlock_eq, hx]
      rfl
    · rw [nextBlock_eq, hnext]
      rfl
  | ok x =>
    obtain ⟨edge, hedge, -⟩ := exists_edge_of_next relays.plain.wired relays.plain.tidy.filed hx
    have hedge : (a.body.graph.edges.get? (a.block, x)).isSome := by rw [hedge]; rfl
    obtain ⟨z, hz⟩ := Option.isSome_iff_exists.mp (relays.plain.wired.ends a.block x hedge).2
    have hz := FlowGraph.block_eq_ok.mpr hz
    have hfirst : a.nextBlock M = a.enterBlock M (some a.block) x := by
      rw [nextBlock_eq, hx]
      rfl
    have hsecond : b.nextBlock M = b.enterBlock M (some b.block) ((via a.block x).getD x) := by
      rw [nextBlock_eq, hnext, hx]
      rfl
    cases hvia : via a.block x with
    | none =>
      rw [hvia] at hsecond
      rcases enterBlock_alike hab.linked hab.agrees hz (fun z' hz' => hab.phiValues relays.plain hz
        (relays.straight a.block x hedge hvia z z' hz hz')) with ⟨e, ha, hb⟩ | ⟨a', b', ha, hb, halong⟩
      · exact .fails (hfirst.trans ha) (hsecond.trans hb)
      · exact .enters (hfirst.trans ha) (hsecond.trans hb) halong
    | some p =>
      rw [hvia] at hsecond
      rcases hab.stops relays ended hx hz (relays.round a.block x p hedge hvia) with
        ⟨e, e', ha, hb, hmisses, hmisses'⟩ | ⟨b', hb, hwaits⟩
      · exact .misses ha (hsecond.trans hb) hmisses hmisses'
      · exact .waits (hsecond.trans hb) hwaits

/-- From a stop the second call enters the block that the first one enters. -/
theorem Waits.proceeds (hab : Waits M x a b) :
    (∃ e, a.nextBlock M = .error e ∧ b.nextBlock M = .error e) ∨
      ∃ a' b', a.nextBlock M = .ok a' ∧ b.nextBlock M = .ok b' ∧ a'.Alongside b' := by
  obtain ⟨via, relays⟩ := id hab.linked
  obtain ⟨edge, hedge, -⟩ := exists_edge_of_next relays.plain.wired relays.plain.tidy.filed hab.next
  obtain ⟨z, hz⟩ := Option.isSome_iff_exists.mp (relays.plain.wired.ends a.block x (by rw [hedge]; rfl)).2
  have hz := FlowGraph.block_eq_ok.mpr hz
  rw [nextBlock_eq, nextBlock_eq, hab.next, hab.onward]
  refine enterBlock_alike hab.linked hab.agrees hz fun z' hz' => ?_
  refine mapM_congr_of_forall₂ ((hab.brings z z' hz hz').imp ?_)
  rintro ⟨dst, l⟩ ⟨dst', l'⟩ ⟨rfl, v, w, hv, hw, heq⟩
  change (do return (dst', ← a.phiValue M (some a.block) dst' l) : Outcome (Variable × Constant)) =
    do return (dst', ← b.phiValue M (some b.block) dst' l')
  rw [phiValue_of_arriving hv, phiValue_of_arriving hw, heq]

theorem Alongside.misses (hab : a.Alongside b) (h : b.Misses M e) : a.Misses M e := by
  obtain ⟨via, relays⟩ := id hab.linked
  obtain ⟨hended, w, z', hnext, hz', φ', hφ', v', hv', hvalue⟩ := h
  have ended : a.remaining = [] := List.map_eq_nil_iff.mp (hab.code.symm.trans (by rw [hended]; rfl))
  rw [hab.next relays] at hnext
  cases hx : a.next M with
  | error e' =>
    rw [hx] at hnext
    cases hnext
  | ok x =>
    rw [hx] at hnext
    cases hnext
    obtain ⟨edge, hedge, -⟩ := exists_edge_of_next relays.plain.wired relays.plain.tidy.filed hx
    have hedge : (a.body.graph.edges.get? (a.block, x)).isSome := by rw [hedge]; rfl
    obtain ⟨z, hz⟩ := Option.isSome_iff_exists.mp (relays.plain.wired.ends a.block x hedge).2
    have hz := FlowGraph.block_eq_ok.mpr hz
    rw [hab.block] at hv'
    unfold FlowGraph.stop at hz'
    suffices hsource : ∃ φ ∈ phis z.instructions, arriving? φ.2 a.block = some v' by
      obtain ⟨φ, hφ, hv⟩ := hsource
      refine ⟨ended, x, z, hx, hz, φ, hφ, v', hv, ?_⟩
      rw [hab.agrees.value rfl (relays.plain.avoids_of_arriving hz hφ hv)]
      exact hvalue
    cases hvia : via a.block x with
    | none =>
      rw [hvia] at hz'
      obtain ⟨φ, hφ, -, hsame⟩ :=
        exists_of_mem_forall₂ (relays.straight a.block x hedge hvia z z' hz hz') hφ'
      exact ⟨φ, hφ, hsame.symm.trans hv'⟩
    | some p =>
      rw [hvia] at hz'
      obtain ⟨w', hw', -⟩ := relays.blocks x z hz
      obtain ⟨front, hfront, -, -, -, hsources, -⟩ := (relays.round a.block x p hedge hvia).passes z w' hz hw'
      cases hfront.symm.trans hz'
      obtain ⟨φ, hφ, v, hv, hv₀⟩ := hsources φ' hφ'
      cases hv.symm.trans hv'
      exact ⟨φ, hφ, hv₀⟩

theorem Waits.misses (hab : Waits M x a b) (h : b.Misses M e) : a.Misses M e := by
  obtain ⟨via, relays⟩ := id hab.linked
  obtain ⟨-, w, z', hnext, hz', φ', hφ', v', hv', hvalue⟩ := h
  cases hab.onward.symm.trans hnext
  obtain ⟨edge, hedge, -⟩ := exists_edge_of_next relays.plain.wired relays.plain.tidy.filed hab.next
  obtain ⟨z, hz⟩ := Option.isSome_iff_exists.mp (relays.plain.wired.ends a.block x (by rw [hedge]; rfl)).2
  have hz := FlowGraph.block_eq_ok.mpr hz
  obtain ⟨φ, hφ, -, v, w, hv, hw, heq⟩ := exists_of_mem_forall₂ (hab.brings z z' hz hz') hφ'
  cases hw.symm.trans hv'
  exact ⟨hab.ended, x, z, hab.next, hz, φ, hφ, v, hv, heq.trans hvalue⟩

end Activation

end RegionGuard

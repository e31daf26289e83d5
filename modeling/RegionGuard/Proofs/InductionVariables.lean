import RegionGuard.Proofs.Approaches
import RegionGuard.Proofs.ConstantBits
import RegionGuard.Proofs.TwosComplement
set_option autoImplicit false

namespace RegionGuard

open RegionGuard.Graph

/-- Where a call has last come into a loop from outside, and how often it has come back to the header since: as long
as it stays in the loop. -/
def Journey.round? (l : NaturalLoop) : Journey → Option (Activation × Nat)
  | a :: b :: j =>
    if b.remaining = [] ∧ a.block = l.header then
      if l.contains b.block then (round? l (b :: j)).map fun r => (r.1, r.2 + 1) else some (a, 0)
    else if l.contains a.block then round? l (b :: j)
    else none
  | _ => none

variable {c : FlowGraph} {d : DefUse} {root : Nat} {forest : LoopForest} {l : NaturalLoop} {f : Function}

theorem Function.Named.operand_available (h : f.Named c d root) {v x : Variable} {o : Operation} {place : Location}
    (hplace : d.definition? v = some place) (ho : d.definingOperation? (.variable v) = some o)
    (notPhi : o.isPhi = false) {k m : Nat} (havailable : c.Available root place k m) (hk : c.graph.IsReached root k)
    (hx : .variable x ∈ o.reads) : ∃ origin, d.definition? x = some origin ∧ c.Available root origin k m ∧
      c.graph.Dominates root origin.block place.block := by
  obtain ⟨b, n, i, hb, hn, hi, -, rfl⟩ := h.defining hplace ho
  obtain ⟨origin, horigin, hread⟩ := h.reads place.block b n i hb hi notPhi x hx
  have hread := hread (havailable.reached hk)
  exact ⟨origin, horigin, hread.trans h.built.wired hb hn havailable hk, hread.dominates⟩

theorem Function.Named.incoming_available (h : f.Named c d root) {v dst : Variable} {incoming : List (Value × Nat)}
    {place : Location} (hplace : d.definition? v = some place)
    (ho : d.definingOperation? (.variable v) = some (.phi dst incoming)) {x : Variable} {k : Nat}
    (hx : (.variable x, k) ∈ incoming) (hk : c.graph.IsReached root k) :
    ∃ origin b, d.definition? x = some origin ∧ c.block k = .ok b ∧
      c.Available root origin k b.instructions.length := by
  obtain ⟨b, _, i, hb, -, hi, -, hoperation⟩ := h.defining hplace ho
  obtain ⟨origin, b', horigin, hb', havailable⟩ :=
    h.incoming place.block b i dst incoming hb (List.mem_of_getElem? hi) hoperation x k hx
  exact ⟨origin, b', horigin, hb', havailable hk⟩

namespace NaturalLoop

def Steady (l : NaturalLoop) (d : DefUse) (a b : Activation) : Prop :=
  ∀ v, d.WrittenOutside (fun place => l.contains place.block = true) v → ∀ m, a.value m v = b.value m v

theorem Steady.symm {a b : Activation} (h : l.Steady d a b) : l.Steady d b a := fun v hv m => (h v hv m).symm

theorem Steady.trans {a b e : Activation} (h : l.Steady d a b) (h' : l.Steady d b e) : l.Steady d a e :=
  fun v hv m => (h v hv m).trans (h' v hv m)

def Borders (l : NaturalLoop) (c : FlowGraph) (k : Nat) : Prop :=
  l.contains k = true ∨ (c.graph.edges.get? (k, l.header)).isSome

theorem Outlines.between (h : l.Outlines c root) (wired : c.graph.Wired) {u k : Nat}
    (hu : c.graph.Dominates root l.header u) (huk : c.graph.Dominates root u k) (hk : l.Borders c k)
    (hreached : c.graph.IsReached root k) : l.contains u = true := by
  refine (h.holds u).mpr (.between wired (v := k) ?_ hu huk hreached)
  rcases hk with hin | hedge
  · exact (h.holds k).mp hin
  · exact .latch ⟨hreached, hedge, hu.trans huk⟩

/-- What is defined outside a loop, and is available on its border, depends on nothing that the loop writes. -/
theorem Outlines.outside_of_dominates (h : l.Outlines c root) (wired : c.graph.Wired) {u v k : Nat}
    (houtside : ¬ l.contains v = true) (huv : c.graph.Dominates root u v) (hvk : c.graph.Dominates root v k)
    (hk : l.Borders c k) (hreached : c.graph.IsReached root k) : ¬ l.contains u = true := fun hin =>
  houtside (h.between wired (((h.holds u).mp hin).dominates.trans huv) hvk hk hreached)

end NaturalLoop

structure Function.Charted (p : Program) (f : Function) (c : FlowGraph) (d : DefUse) (root : Nat) (forest : LoopForest) :
    Prop where
  body : f.body = some c
  built : c.Built
  verified : p.verifyFunction f = .ok ()
  names : (WrittenNames.written f).Nodup
  entry : c.entry = some root
  definitions : DefUse.ofFunction f = .ok d
  loops : LoopForest.ofGraph c = .ok forest

namespace Function.Charted

variable {p : Program}

theorem named (h : f.Charted p c d root forest) (addressable : c.Addressable) : f.Named c d root := by
  obtain ⟨d', entry, verified⟩ := Program.verified_of_verifyFunction h.body h.built addressable h.verified
  cases h.entry.symm.trans verified.starts
  cases h.definitions.symm.trans verified.definitions
  exact ⟨verified, h.names⟩

theorem outlines (h : f.Charted p c d root forest) (addressable : c.Addressable) (hl : l ∈ forest.toList) :
    l.Outlines c root :=
  LoopForest.outlines h.built.wired h.entry (h.named addressable).vertex h.loops hl

end Function.Charted

theorem Function.charted_of_looped? {p : Program} (built : p.Built) (names : (WrittenNames.written f).Nodup)
    (h : p.looped? = some (f, c, d, root, forest)) : f.Charted p c d root forest := by
  obtain ⟨f, hf, h⟩ := Option.bind_eq_some_iff.mp h
  obtain ⟨c, hc, h⟩ := Option.bind_eq_some_iff.mp h
  obtain ⟨_, hverified, h⟩ := Option.bind_eq_some_iff.mp h
  obtain ⟨root, hroot, h⟩ := Option.bind_eq_some_iff.mp h
  obtain ⟨d, hd, h⟩ := Option.bind_eq_some_iff.mp h
  obtain ⟨forest, hforest, h⟩ := Option.bind_eq_some_iff.mp h
  cases h
  exact ⟨hc, built.body hf c hc, of_guard hverified, names, hroot, toOption_eq_some.mp hd, toOption_eq_some.mp hforest⟩

namespace InductionVariable

variable {iv : InductionVariable} {phi : Variable}

structure Recognized (d : DefUse) (l : NaturalLoop) (iv : InductionVariable) : Prop where
  header : ∃ place, d.definition? iv.phi = some place ∧ place.block = l.header
  incoming : ∃ dst incoming, d.definingOperation? (.variable iv.phi) = some (.phi dst incoming) ∧
    ∀ v b, (v, b) ∈ incoming → v = if l.contains b then .variable iv.next else iv.start
  advances : ∃ o, d.definingOperation? (.variable iv.next) = some o ∧ stepOf? (.variable iv.phi) o = some iv.step
  invariant : l.isInvariant d iv.step = true

theorem sides?_eq_some {start next : Option Value} {incoming : List (Value × Nat)} {s n : Value}
    (h : sides? l start next incoming = some (s, n)) : (∀ u ∈ start, u = s) ∧ (∀ u ∈ next, u = n) ∧
      ∀ v b, (v, b) ∈ incoming → v = if l.contains b then n else s := by
  induction incoming generalizing start next with
  | nil =>
    obtain ⟨s', rfl, h⟩ := Option.bind_eq_some_iff.mp h
    obtain ⟨n', rfl, h⟩ := Option.bind_eq_some_iff.mp h
    cases h
    exact ⟨fun u hu => (Option.some.inj hu).symm, fun u hu => (Option.some.inj hu).symm,
      fun v b hmem => (List.not_mem_nil hmem).elim⟩
  | cons e rest ih =>
    obtain ⟨v, b⟩ := e
    unfold sides? at h
    have arrives : ∀ {start' next'}, sides? l start' next' rest = some (s, n) → (v = if l.contains b then n else s) →
        ∀ u k, (u, k) ∈ (v, b) :: rest → u = if l.contains k then n else s := fun h' hv u k hmem => by
      rcases List.mem_cons.mp hmem with heq | hmem
      · cases heq
        exact hv
      · exact (ih h').2.2 u k hmem
    split at h
    · rename_i hin
      split at h
      · rename_i w
        split at h
        · rename_i heq
          obtain ⟨hstart, hnext, -⟩ := ih h
          refine ⟨hstart, hnext, arrives h ?_⟩
          rw [if_pos hin, ← heq]
          exact hnext w rfl
        · cases h
      · obtain ⟨hstart, hnext, -⟩ := ih h
        refine ⟨hstart, fun u hu => (nomatch hu), arrives h ?_⟩
        rw [if_pos hin]
        exact hnext v rfl
    · rename_i hin
      split at h
      · cases h
      · obtain ⟨hstart, hnext, -⟩ := ih h
        refine ⟨fun u hu => (nomatch hu), hnext, arrives h ?_⟩
        rw [if_neg hin]
        exact hstart v rfl

theorem recognized_of_ofPhi? (h : ofPhi? d l phi = some iv) : iv.phi = phi ∧ iv.Recognized d l := by
  obtain ⟨place, hplace, h⟩ := Option.bind_eq_some_iff.mp h
  obtain ⟨_, hheader, h⟩ := Option.bind_eq_some_iff.mp h
  obtain ⟨i, hi, h⟩ := Option.bind_eq_some_iff.mp h
  simp only at h
  split at h
  · rename_i dst values hoperation
    obtain ⟨_, hincoming, h⟩ := Option.bind_eq_some_iff.mp h
    cases hincoming
    obtain ⟨⟨start, nextValue⟩, hsides, h⟩ := Option.bind_eq_some_iff.mp h
    obtain ⟨next, hnext, h⟩ := Option.bind_eq_some_iff.mp h
    obtain ⟨o, ho, h⟩ := Option.bind_eq_some_iff.mp h
    obtain ⟨step, hstep, h⟩ := Option.bind_eq_some_iff.mp h
    obtain ⟨_, hinvariant, h⟩ := Option.bind_eq_some_iff.mp h
    cases h
    obtain rfl : nextValue = .variable next := by
      cases nextValue <;> cases hnext
      rfl
    refine ⟨rfl, ⟨place, hplace, of_guard hheader⟩, ⟨dst, values, ?_, (sides?_eq_some hsides).2.2⟩, ⟨o, ho, hstep⟩,
      of_guard hinvariant⟩
    exact Option.bind_eq_some_iff.mpr ⟨i, hi, congrArg some hoperation⟩
  · cases h

theorem stepOf?_eq_some {v step : Value} {o : Operation} (h : stepOf? v o = some step) :
    (∃ dst lhs rhs, o = .binary dst .add lhs rhs ∧ (lhs = v ∧ rhs = step ∨ rhs = v ∧ lhs = step)) ∨
      ∃ dst n, o = .binary dst .sub v (.constant n) ∧ step = .constant (.ofInt (-n.signed) n.bits) := by
  unfold stepOf? at h
  split at h
  · rename_i dst lhs rhs
    refine .inl ⟨dst, lhs, rhs, rfl, ?_⟩
    split at h
    · rename_i hlhs
      exact .inl ⟨hlhs, Option.some.inj h⟩
    · split at h
      · rename_i hrhs
        exact .inr ⟨hrhs, Option.some.inj h⟩
      · cases h
  · rename_i dst lhs n
    split at h
    · rename_i hlhs
      exact .inr ⟨dst, n, by rw [hlhs], (Option.some.inj h).symm⟩
    · cases h
  · cases h

theorem computes?_of_stepOf? {v step : Value} {o : Operation} (h : stepOf? v o = some step) :
    o.computes? = o.written? := by
  rcases stepOf?_eq_some h with ⟨dst, lhs, rhs, rfl, -⟩ | ⟨dst, n, rfl, -⟩ <;> rfl

variable {a : Activation} {m : Machine}

theorem exists_of_stepOf? {v step : Value} {o : Operation} {dst : Variable} {r : Constant} (h : stepOf? v o = some step)
    (hr : a.computed? m o = some (dst, .ok r)) :
    ∃ y t, a.value m v = .ok y ∧ a.value m step = .ok t ∧ (r.bits = y.bits ∨ r.bits = t.bits) ∧
      r.number ≡ y.number + t.number [ZMOD Constant.modulus (min y.bits t.bits)] := by
  rcases stepOf?_eq_some h with ⟨dst', lhs, rhs, rfl, hsides⟩ | ⟨dst', n, rfl, rfl⟩
  · obtain ⟨y, hy, hr⟩ := bind_eq_ok.mp (Prod.mk.inj (Option.some.inj hr)).2
    obtain ⟨z, hz, hr⟩ := bind_eq_ok.mp hr
    rw [Constant.binary_add] at hr
    cases hr
    have hsum := Constant.number_ofInt_modEq (y.number + z.number) y.bits
    rcases hsides with ⟨rfl, rfl⟩ | ⟨rfl, rfl⟩
    · exact ⟨y, z, hy, hz, .inl rfl, Constant.modEq_of_le (Nat.min_le_left _ _) hsum⟩
    · refine ⟨z, y, hz, hy, .inr rfl, Constant.modEq_of_le (Nat.min_le_right _ _) (hsum.trans ?_)⟩
      rw [Int.add_comm]
  · obtain ⟨y, hy, hr⟩ := bind_eq_ok.mp (Prod.mk.inj (Option.some.inj hr)).2
    obtain ⟨_, ⟨⟩, hr⟩ := bind_eq_ok.mp hr
    rw [Constant.binary_sub] at hr
    cases hr
    refine ⟨y, _, hy, rfl, .inl rfl, ?_⟩
    have hopposite : (Constant.ofInt (-n.signed) n.bits).number ≡ -n.number [ZMOD Constant.modulus n.bits] :=
      (Constant.number_ofInt_modEq _ _).trans n.signed_modEq.neg
    calc (Constant.ofInt (y.number - n.number) y.bits).number
        ≡ y.number - n.number [ZMOD Constant.modulus (min y.bits n.bits)] :=
          Constant.modEq_of_le (Nat.min_le_left _ _) (Constant.number_ofInt_modEq _ _)
      _ ≡ y.number + (Constant.ofInt (-n.signed) n.bits).number [ZMOD Constant.modulus (min y.bits n.bits)] :=
          (Constant.modEq_of_le (Nat.min_le_right _ _) hopposite.symm).add_left _

def Advanced (iv : InductionVariable) (m : Machine) (a e : Activation) (k : Nat) : Prop :=
  ∃ r s, a.value m (.variable iv.phi) = .ok r ∧ e.value m iv.start = .ok s ∧ (k = 0 → r = s) ∧
    (k ≠ 0 → ∃ t, e.value m iv.step = .ok t ∧ (r.bits = s.bits ∨ r.bits = t.bits) ∧
      r.number ≡ s.number + k * t.number [ZMOD Constant.modulus (min s.bits t.bits)])

theorem Recognized.writtenOutside_start (recognized : iv.Recognized d l) (named : f.Named c d root)
    (outlines : l.Outlines c root) {dst : Variable} {incoming : List (Value × Nat)} {k : Nat}
    (ho : d.definingOperation? (.variable iv.phi) = some (.phi dst incoming)) (hk : (iv.start, k) ∈ incoming)
    (houtside : ¬ l.contains k = true) (hedge : (c.graph.edges.get? (k, l.header)).isSome)
    (hreached : c.graph.IsReached root k) : d.WrittenOutside (fun place => l.contains place.block = true) iv.start := by
  intro x hx
  obtain ⟨place, hplace, -⟩ := recognized.header
  rw [hx] at hk
  obtain ⟨origin, b, horigin, -, havailable⟩ := named.incoming_available hplace ho hk hreached
  refine ⟨origin, horigin, fun hin => houtside ?_⟩
  have hdominates := ((outlines.holds _).mp hin).dominates.trans havailable.dominates
  exact outlines.between named.built.wired hdominates (fun _ hway => hway.self_mem) (.inr hedge) hreached

theorem Recognized.writtenOutside_step (recognized : iv.Recognized d l) :
    d.WrittenOutside (fun place => l.contains place.block = true) iv.step :=
  NaturalLoop.writtenOutside_of_isInvariant recognized.invariant

theorem Advanced.congr {a a' e : Activation} {k : Nat} (h : iv.Advanced m a e k)
    (hsame : a'.value m (.variable iv.phi) = a.value m (.variable iv.phi)) : iv.Advanced m a' e k := by
  obtain ⟨r, s, hr, hadvanced⟩ := h
  exact ⟨r, s, hsame.trans hr, hadvanced⟩

/-- Where the next value comes back as the value, one more round has been made. -/
theorem Advanced.succ {a a' e : Activation} {k : Nat} {o : Operation} {r : Constant} (h : iv.Advanced m a e k)
    (hstep : stepOf? (.variable iv.phi) o = some iv.step) (hr : a.computed? m o = some (iv.next, .ok r))
    (steady : a.value m iv.step = e.value m iv.step) (hback : a'.value m (.variable iv.phi) = .ok r) :
    iv.Advanced m a' e (k + 1) := by
  obtain ⟨y, s, hy, hs, hzero, hsucc⟩ := h
  obtain ⟨y', t, hy', ht, hbits, hsum⟩ := exists_of_stepOf? hstep hr
  cases hy.symm.trans hy'
  refine ⟨r, s, hback, hs, fun h => absurd h (Nat.succ_ne_zero k), fun _ => ⟨t, steady ▸ ht, ?_⟩⟩
  by_cases hk : k = 0
  · cases hzero hk
    subst hk
    exact ⟨hbits, by simpa using hsum⟩
  · obtain ⟨t', ht', hwidth, hmany⟩ := hsucc hk
    cases (steady.symm.trans ht).symm.trans ht'
    refine ⟨?_, ?_⟩
    · rcases hbits with heq | heq
      · exact heq ▸ hwidth
      · exact .inr heq
    · have hle : min s.bits t.bits ≤ min y.bits t.bits := by omega
      calc r.number ≡ y.number + t.number [ZMOD Constant.modulus (min s.bits t.bits)] := Constant.modEq_of_le hle hsum
        _ ≡ s.number + k * t.number + t.number [ZMOD Constant.modulus (min s.bits t.bits)] := hmany.add_right _
        _ ≡ s.number + (k + 1 : Nat) * t.number [ZMOD Constant.modulus (min s.bits t.bits)] := by
          rw [Nat.cast_succ, Int.add_mul, Int.one_mul, Int.add_assoc]

end InductionVariable

namespace Activation

variable {x : Image} {a a' e z : Activation} {front : List Instruction} {m : Machine} {k : Nat} {j : Journey}

/-- A call stands where it goes on to the header of a loop, and knows what it knows at `e` of all that the loop does
not write. -/
structure LeadsTo (c : FlowGraph) (d : DefUse) (root : Nat) (x : Image) (l : NaturalLoop) (z e : Activation) : Prop where
  solved : ∃ front, z.Solved c d root x front
  ended : z.remaining = []
  next : ∃ m z', m.image = x ∧ z.nextBlock m = .ok z' ∧ z'.block = l.header
  steady : l.Steady d z e

/-- What a call knows in a round of a loop that it came into at `e`: what it knew of all that the loop does not write,
where it came from, and how far the induction variables have got. -/
structure Circles (c : FlowGraph) (d : DefUse) (root : Nat) (x : Image) (l : NaturalLoop) (a e : Activation) (k : Nat) :
    Prop where
  inside : l.contains a.block = true
  steady : l.Steady d a e
  came : ∃ z : Activation, z.LeadsTo c d root x l e ∧ l.contains z.block = false
  returned : k ≠ 0 → ∃ z : Activation, z.LeadsTo c d root x l e ∧ l.contains z.block = true
  advanced : ∀ phi iv, InductionVariable.ofPhi? d l phi = some iv → ∀ m, m.image = x → iv.Advanced m a e k

structure Rounds (c : FlowGraph) (d : DefUse) (root : Nat) (x : Image) (l : NaturalLoop) (a : Activation) (j : Journey) :
    Prop where
  solved : ∃ front, a.Solved c d root x front
  circles : ∀ e k, Journey.round? l (a :: j) = some (e, k) → a.Circles c d root x l e k

theorem Stands.ne_of_phi (h : a.Stands c root front) (named : f.Named c d root) {i : Instruction}
    {rest : List Instruction} (hnext : a.remaining = i :: rest) {v dst : Variable} {incoming : List (Value × Nat)}
    {place : Location} (hplace : d.definition? v = some place)
    (ho : d.definingOperation? (.variable v) = some (.phi dst incoming)) : place ≠ ⟨a.block, i.index⟩ := by
  rintro rfl
  obtain ⟨b, _, i', hb, -, hi', hindex, hoperation⟩ := named.defining hplace ho
  obtain ⟨b', hb', hinstructions⟩ := h.block
  cases hb.symm.trans hb'
  have hi : i ∈ b.instructions := by
    rw [hinstructions, hnext]
    exact List.mem_append_right _ List.mem_cons_self
  cases Block.eq_of_index_eq (FlowGraph.addressable_iff.mp named.addressable _ b hb).2 (List.mem_of_getElem? hi') hi
    hindex
  have hphi := h.past i (hnext ▸ List.mem_cons_self)
  rw [hoperation] at hphi
  cases hphi

theorem Rounds.performs (h : a.Rounds c d root x l j) (named : f.Named c d root) (image : m.image = x) {i : Instruction}
    {rest : List Instruction} (hnext : a.remaining = i :: rest)
    (hperforms : Performs m { a with remaining := rest } i.operation a') : a'.Rounds c d root x l (a :: j) := by
  obtain ⟨front, hsolved⟩ := h.solved
  obtain ⟨-, hblock, hsame⟩ := hsolved.toStands.performs named hnext hperforms
  refine ⟨⟨_, hsolved.performs named image hnext hperforms⟩, fun e k hround => ?_⟩
  unfold Journey.round? at hround
  rw [if_neg fun hended => List.cons_ne_nil i rest (hnext.symm.trans hended.1)] at hround
  split at hround
  · rename_i hin
    have circles := h.circles e k hround
    have steady : l.Steady d a' a := fun v hv n => by
      refine hsame v (hv.mono fun place hplace => ?_) n
      rw [hplace, ← hblock]
      exact hin
    refine ⟨hin, steady.trans circles.steady, circles.came, circles.returned, fun phi iv hiv n hn => ?_⟩
    refine (circles.advanced phi iv hiv n hn).congr (hsame _ ?_ n)
    rintro y ⟨⟩
    obtain ⟨rfl, recognized⟩ := InductionVariable.recognized_of_ofPhi? hiv
    obtain ⟨place, hplace, -⟩ := recognized.header
    obtain ⟨dst, incoming, ho, -⟩ := recognized.incoming
    exact ⟨place, hplace, hsolved.toStands.ne_of_phi named hnext hplace ho⟩
  · cases hround

theorem Stands.steady (h : a.Stands c root front) (named : f.Named c d root) (hnext : a.nextBlock m = .ok a')
    (hin : l.contains a'.block = true) : l.Steady d a' a := fun v hv n => by
  obtain ⟨_, _, -, -, -, -, hsame⟩ := h.goesOn named hnext
  refine hsame v (hv.mono fun place hplace => ?_) n
  have hplace : place.block = a'.block := hplace
  rw [hplace]
  exact hin

theorem LeadsTo.edge (h : z.LeadsTo c d root x l e) (named : f.Named c d root) :
    (c.graph.edges.get? (z.block, l.header)).isSome := by
  obtain ⟨front, hsolved⟩ := h.solved
  obtain ⟨m, z', -, hnext, hheader⟩ := h.next
  obtain ⟨_, _, -, -, hedge, -⟩ := hsolved.toStands.goesOn named hnext
  rw [← hheader, hedge]
  rfl

theorem Stands.takesOver {iv : InductionVariable} (h : a.Stands c root front) (named : f.Named c d root)
    (recognized : iv.Recognized d l) (hnext : a.nextBlock m = .ok a') (hheader : a'.block = l.header) :
    ∃ dst incoming v r, d.definingOperation? (.variable iv.phi) = some (.phi dst incoming) ∧
      v = (if l.contains a.block then .variable iv.next else iv.start) ∧ (v, a.block) ∈ incoming ∧
      a.value m v = .ok r ∧ a'.value m (.variable iv.phi) = .ok r := by
  obtain ⟨place, hplace, hblock⟩ := recognized.header
  obtain ⟨dst, incoming, ho, hsides⟩ := recognized.incoming
  cases Option.some.inj (named.writes hplace ho)
  obtain ⟨v, r, hmem, hr, hphi⟩ := h.takes named hnext hplace (hblock.trans hheader.symm) ho
  exact ⟨_, incoming, v, r, ho, hsides v a.block hmem, hmem, hr, hphi⟩

theorem Solved.incoming_available {iv : InductionVariable} (h : a.Solved c d root x front) (named : f.Named c d root)
    (recognized : iv.Recognized d l) (ended : a.remaining = []) {dst y : Variable} {incoming : List (Value × Nat)}
    (ho : d.definingOperation? (.variable iv.phi) = some (.phi dst incoming)) (hy : (.variable y, a.block) ∈ incoming) :
    ∃ origin, d.definition? y = some origin ∧ c.Available root origin a.block front.length := by
  obtain ⟨place, hplace, -⟩ := recognized.header
  obtain ⟨origin, b, horigin, hb, havailable⟩ := named.incoming_available hplace ho hy h.reached
  obtain ⟨b', hb', hinstructions⟩ := h.block
  cases hb.symm.trans hb'
  rw [hinstructions, ended, List.append_nil] at havailable
  exact ⟨origin, horigin, havailable⟩

theorem Solved.enters (h : a.Solved c d root x front) (named : f.Named c d root) (outlines : l.Outlines c root)
    (ended : a.remaining = []) (hnext : a.nextBlock m = .ok a') (image : m.image = x)
    (outside : ¬ l.contains a.block = true) (hheader : a'.block = l.header) : a'.Circles c d root x l a' 0 := by
  have hin : l.contains a'.block = true := hheader ▸ (outlines.holds _).mpr .header
  have steady := h.toStands.steady named hnext hin
  have leads : a.LeadsTo c d root x l a' := ⟨⟨front, h⟩, ended, ⟨m, a', image, hnext, hheader⟩, steady.symm⟩
  refine ⟨hin, fun _ _ _ => rfl, ⟨a, leads, by simpa using outside⟩, fun hne => absurd rfl hne, fun phi iv hiv n hn => ?_⟩
  obtain ⟨-, recognized⟩ := InductionVariable.recognized_of_ofPhi? hiv
  obtain ⟨dst, incoming, v, r, ho, hv, hmem, hr, hphi⟩ := h.toStands.takesOver named recognized hnext hheader
  rw [if_neg outside] at hv
  subst hv
  have hstart := recognized.writtenOutside_start named outlines ho hmem outside (leads.edge named) h.reached
  have hmn : n.image = m.image := hn.trans image.symm
  refine ⟨r, r, ?_, ?_, fun _ => rfl, fun hne => absurd rfl hne⟩
  · rw [value_image hmn, hphi]
  · rw [value_image hmn, steady _ hstart, hr]

/-- Where control comes back to the header, the induction variables have advanced by the step. -/
theorem Circles.returns (h : a.Circles c d root x l e k) (hsolved : a.Solved c d root x front) (named : f.Named c d root)
    (ended : a.remaining = []) (hnext : a.nextBlock m = .ok a') (image : m.image = x) (hin : l.contains a'.block = true)
    (hheader : a'.block = l.header) : a'.Circles c d root x l e (k + 1) := by
  have steady := hsolved.toStands.steady named hnext hin
  have leads : a.LeadsTo c d root x l e := ⟨⟨front, hsolved⟩, ended, ⟨m, a', image, hnext, hheader⟩, h.steady⟩
  refine ⟨hin, steady.trans h.steady, h.came, fun _ => ⟨a, leads, h.inside⟩, fun phi iv hiv n hn => ?_⟩
  have hmn : n.image = m.image := hn.trans image.symm
  obtain ⟨-, recognized⟩ := InductionVariable.recognized_of_ofPhi? hiv
  obtain ⟨dst, incoming, v, r, ho, hv, hmem, hr, hphi⟩ := hsolved.toStands.takesOver named recognized hnext hheader
  rw [if_pos h.inside] at hv
  subst hv
  -- The next value stands at the end of the block, and still is what the value of the round and the step give.
  obtain ⟨o, hnextValue, hstep⟩ := recognized.advances
  obtain ⟨origin, horigin, havailable⟩ := hsolved.incoming_available named recognized ended ho hmem
  have hcomputes : o.computes? = some iv.next :=
    (InductionVariable.computes?_of_stepOf? hstep).trans (named.writes horigin hnextValue)
  obtain ⟨r', hcomputed, hr'⟩ := hsolved.solves iv.next origin o horigin hnextValue hcomputes havailable n hn
  cases (value_image hmn a _).symm.trans hr' |>.symm.trans hr
  refine (h.advanced phi iv hiv n hn).succ hstep hcomputed (h.steady _ recognized.writtenOutside_step n) ?_
  rw [value_image hmn, hphi]

theorem Rounds.goesOn (h : a.Rounds c d root x l j) (named : f.Named c d root) (outlines : l.Outlines c root)
    (image : m.image = x) (ended : a.remaining = []) (hnext : a.nextBlock m = .ok a') :
    a'.Rounds c d root x l (a :: j) := by
  obtain ⟨front, hsolved⟩ := h.solved
  refine ⟨hsolved.goesOn named ended hnext, fun e k hround => ?_⟩
  unfold Journey.round? at hround
  split at hround
  · rename_i hheader
    split at hround
    · obtain ⟨⟨e', k'⟩, hbefore, heq⟩ := Option.map_eq_some_iff.mp hround
      cases heq
      have hin : l.contains a'.block = true := hheader.2 ▸ (outlines.holds _).mpr .header
      exact (h.circles _ k' hbefore).returns hsolved named ended hnext image hin hheader.2
    · rename_i houtside
      cases hround
      exact hsolved.enters named outlines ended hnext image houtside hheader.2
  · rename_i hheader
    split at hround
    · rename_i hin
      have circles := h.circles e k hround
      have steady := hsolved.toStands.steady named hnext hin
      refine ⟨hin, steady.trans circles.steady, circles.came, circles.returned, fun phi iv hiv n hn => ?_⟩
      -- Only the header writes induction variables.
      obtain ⟨rfl, recognized⟩ := InductionVariable.recognized_of_ofPhi? hiv
      obtain ⟨place, hplace, hblock⟩ := recognized.header
      obtain ⟨_, _, -, -, -, -, hsame⟩ := hsolved.toStands.goesOn named hnext
      refine (circles.advanced _ iv hiv n hn).congr (hsame _ ?_ n)
      rintro y ⟨⟩
      exact ⟨place, hplace, fun heq => hheader ⟨ended, heq.symm.trans hblock⟩⟩
    · cases hround

/-- Calls know how far the induction variables of a loop have got. -/
theorem course_rounds (named : f.Named c d root) (outlines : l.Outlines c root) (x : Image) :
    Course x fun a j => a.body = c → a.Rounds c d root x l j where
  starts {m body entry constants w r a} _ hentry ha hbody := by
    obtain ⟨y, scalars, -, heq⟩ := enterBlock_ok ha
    have hbody : body = c := by
      rw [heq] at hbody
      exact hbody
    subst hbody
    cases named.starts.symm.trans hentry
    exact ⟨⟨[], solved_of_start named ha⟩, fun _ _ hround => nomatch hround⟩
  goesOn {m a a' j} image ha ended hnext hbody := by
    refine (ha ?_).goesOn named outlines image ended hnext
    rw [nextBlock_eq] at hnext
    obtain ⟨target, -, hnext⟩ := bind_eq_ok.mp hnext
    obtain ⟨y, scalars, -, rfl⟩ := enterBlock_ok hnext
    exact hbody
  performs {m a i rest a' j} image ha hnext hperforms hbody := by
    refine (ha ?_).performs named image hnext hperforms
    obtain ⟨scalars, hfixed⟩ := hperforms.assigns.fixed
    rw [hfixed] at hbody
    exact hbody

end Activation

/-- In some run a call of a verified function stands in a loop, which it has come into at `e`, and `k` times back to the
header since. -/
structure Task.GoesRound (t : Task) (c : FlowGraph) (d : DefUse) (root : Nat) (l : NaturalLoop) (s : Processor)
    (a e : Activation) (k : Nat) : Prop where
  charted : ∃ f forest, Function.Charted t.program f c d root forest ∧ l ∈ forest.toList
  body : a.body = c
  round : ∃ function arguments s₀ steps callers j rest, Processor.Comes t function arguments s₀ steps s ∧
    s.calls = a :: callers ∧ Processor.journeys t steps s₀ [[]] = j :: rest ∧ Journey.round? l (a :: j) = some (e, k)

variable {t : Task} {s : Processor} {a e : Activation} {k : Nat}

theorem Task.GoesRound.circles (h : t.GoesRound c d root l s a e k) (addressable : c.Addressable) :
    (∃ front, a.Solved c d root s.machine.image front) ∧ a.Circles c d root s.machine.image l e k := by
  obtain ⟨f, forest, charted, hl⟩ := h.charted
  obtain ⟨function, arguments, s₀, steps, callers, j, rest, hcomes, hcalls, hjourneys, hround⟩ := h.round
  obtain ⟨j', rest', hjourneys', hrounds, -⟩ :=
    hcomes.upholds (Activation.course_rounds (charted.named addressable) (charted.outlines addressable hl) _) a callers
      hcalls
  cases hjourneys.symm.trans hjourneys'
  exact ⟨(hrounds h.body).solved, (hrounds h.body).circles e k hround⟩

/-- Where a call of `main`, which writes no name twice, stands in a round of a loop after some steps. -/
def Program.goesRound? (p : Program) (header steps : Nat) :
    Option (FlowGraph × DefUse × Nat × NaturalLoop × Processor × Activation × Activation × Nat) := do
  let (f, c, d, root, forest) ← p.looped?
  guard (WrittenNames.written f).Nodup
  let l ← forest.loop? header
  let (s₀, s, a) ← (⟨p, .fixed, Processor.defaultStepLimit⟩ : Task).comes? [] steps
  guard (a.body = c)
  let j ← (Processor.journeys ⟨p, .fixed, Processor.defaultStepLimit⟩ steps s₀ [[]]).head?
  let (e, k) ← Journey.round? l (a :: j)
  return (c, d, root, l, s, a, e, k)

theorem Program.goesRound_of_goesRound? {p : Program} (built : p.Built) {header steps : Nat}
    (h : p.goesRound? header steps = some (c, d, root, l, s, a, e, k)) :
    (⟨p, .fixed, Processor.defaultStepLimit⟩ : Task).GoesRound c d root l s a e k := by
  obtain ⟨⟨f, c, d, root, forest⟩, hlooped, h⟩ := Option.bind_eq_some_iff.mp h
  obtain ⟨_, names, h⟩ := Option.bind_eq_some_iff.mp h
  obtain ⟨l, hl, h⟩ := Option.bind_eq_some_iff.mp h
  obtain ⟨⟨s₀, s, a⟩, hcomes, h⟩ := Option.bind_eq_some_iff.mp h
  obtain ⟨_, hbody, h⟩ := Option.bind_eq_some_iff.mp h
  obtain ⟨j, hj, h⟩ := Option.bind_eq_some_iff.mp h
  obtain ⟨⟨e, k⟩, hround, h⟩ := Option.bind_eq_some_iff.mp h
  cases h
  obtain ⟨rest, hjourneys⟩ := List.head?_eq_some_iff.mp hj
  obtain ⟨hcomes, callers, hcalls⟩ := Task.comes_of_comes? hcomes
  exact ⟨⟨f, forest, Function.charted_of_looped? built (of_guard names) hlooped, LoopForest.mem_of_loop? hl⟩,
    of_guard hbody, "main", [], s₀, steps, callers, j, rest, hcomes, hcalls, hjourneys, hround⟩

namespace InductionVariable

variable {iv : InductionVariable} {phi : Variable}

/-- An induction variable is affine. Where control comes into the loop, it holds the start, and after coming back to
the header `k` times it holds what the start and the step, as they were then, make for `k` steps. That is modulo the
number of values of their width: words have 64 bits, and no width has more values than words. -/
theorem affine (h : t.GoesRound c d root l s a e k) (addressable : c.Addressable) (hiv : ofPhi? d l phi = some iv) :
    ∃ r start, a.value s.machine (.variable phi) = .ok r ∧ e.value s.machine iv.start = .ok start ∧
      (k = 0 → r = start) ∧
      (k ≠ 0 → ∃ step, e.value s.machine iv.step = .ok step ∧ ∀ w, start.bits = w → step.bits = w →
        r.bits = w ∧ r.number ≡ start.number + k * step.number [ZMOD 2 ^ min w 64]) := by
  obtain ⟨rfl, -⟩ := recognized_of_ofPhi? hiv
  obtain ⟨r, start, hr, hstart, hzero, hsucc⟩ := (h.circles addressable).2.advanced _ iv hiv _ rfl
  refine ⟨r, start, hr, hstart, hzero, fun hk => ?_⟩
  obtain ⟨step, hstep, hbits, hsum⟩ := hsucc hk
  refine ⟨step, hstep, fun w hw hw' => ?_⟩
  rw [hw, hw', Nat.min_self, Constant.modulus] at hsum
  exact ⟨hbits.elim (·.trans hw) (·.trans hw'), mod_cast hsum⟩

/-- The counter of the outer of two loops, in the second round of that, while the call stands in the inner one. -/
theorem affine_in_nest :
    ∃ t c d root l s a e phi iv, Task.GoesRound t c d root l s a e 1 ∧ c.Addressable ∧ ofPhi? d l phi = some iv ∧
      a.block ≠ l.header ∧ ∃ r start step, a.value s.machine (.variable phi) = .ok r ∧
        e.value s.machine iv.start = .ok start ∧ e.value s.machine iv.step = .ok step ∧ r.bits = 64 ∧
        r.number ≡ start.number + 1 * step.number [ZMOD 2 ^ 64] := by
  have made : storesInNest.Made := Program.made_of_ofFunctions fun f hf => by
    cases List.mem_singleton.mp hf
    exact Function.made_of_ofCode
  have hall : (storesInNest.goesRound? 1 18).any fun (c, d, _, l, s, a, e, k) =>
      (ofPhi? d l ⟨"i", .integer 64⟩).any fun iv => k = 1 ∧ c.Addressable ∧ a.block ≠ l.header ∧
        (e.value s.machine iv.start).toOption.any (·.bits = 64) ∧
        (e.value s.machine iv.step).toOption.any (·.bits = 64) := by
    decide +kernel
  obtain ⟨⟨c, d, root, l, s, a, e, k⟩, hround, hall⟩ := (Option.any_eq_true ..).mp hall
  obtain ⟨iv, hiv, hall⟩ := (Option.any_eq_true ..).mp hall
  obtain ⟨rfl, addressable, hinner, hstart, hstep⟩ := of_decide_eq_true hall
  have goes := Program.goesRound_of_goesRound? made.built hround
  obtain ⟨r, start, hr, hstart', -, hsucc⟩ := affine goes addressable hiv
  obtain ⟨step, hstep', hwidth⟩ := hsucc Nat.one_ne_zero
  rw [hstart'] at hstart
  rw [hstep'] at hstep
  obtain ⟨hbits, hsum⟩ := hwidth 64 (of_decide_eq_true hstart) (of_decide_eq_true hstep)
  exact ⟨_, c, d, root, l, s, a, e, _, iv, goes, addressable, hiv, hinner, r, start, step, hr, hstart', hstep', hbits, hsum⟩

/-- In the second round of a loop, an induction variable is not what its start and its step make, all of one width. -/
def Strays (t : Task) (c : FlowGraph) (w : Nat) : Prop :=
  ∃ d root l s a e phi iv, t.GoesRound c d root l s a e 1 ∧ ofPhi? d l phi = some iv ∧
    ∃ r start step, a.value s.machine (.variable phi) = .ok r ∧ e.value s.machine iv.start = .ok start ∧
      e.value s.machine iv.step = .ok step ∧ r.bits = w ∧ start.bits = w ∧ step.bits = w ∧
      ¬ r.number ≡ start.number + 1 * step.number [ZMOD 2 ^ w]

def countsPastWords : Program :=
  let wide (v : String) : Variable := ⟨v, .integer 128⟩
  .ofFunctions [
    .ofCode "main" []
      [[],
        [.phi (wide "i") [(.ofWord (-1) 128, 0), (.variable (wide "next"), 1)],
          .binary (wide "next") .add (.variable (wide "i")) (.ofWord 1 128)]]
      [(0, 1, none), (1, 1, none)]]

/-- A loop around two sums, of which the second one is the counter of the next round. -/
def sumsUnder (numbers : List Nat) : Program :=
  let word (v : String) : Variable := ⟨v, .integer 64⟩
  .ofFunctions [
    (Function.ofCode "main" []
      [[],
        [.phi (word "i") [(.ofWord 0 64, 0), (.variable (word "next"), 1)],
          .binary (word "ahead") .add (.variable (word "i")) (.ofWord 2 64),
          .binary (word "next") .add (.variable (word "i")) (.ofWord 1 64)]]
      [(0, 1, none), (1, 1, none)]).renumber 1 numbers]

theorem built_sumsUnder (numbers : List Nat) : (sumsUnder numbers).Built :=
  Program.built_of_ofFunctions fun f hf => by
    cases List.mem_singleton.mp hf
    exact Function.built_renumber Function.built_of_ofCode 1 numbers

/-- Numbers of more than 64 bits wrap around like words: the step past the greatest word leads to zero. And where two sums
share a number, the step is read off the first one. -/
theorem strays_past_words_or_by_shared_number :
    (∃ t c, c.Addressable ∧ Strays t c 128) ∧ ∃ t c, Strays t c 64 := by
  have made : countsPastWords.Made := Program.made_of_ofFunctions fun f hf => by
    cases List.mem_singleton.mp hf
    exact Function.made_of_ofCode
  have wide : (countsPastWords.goesRound? 1 3).any fun (c, d, _, l, s, a, e, k) =>
      (ofPhi? d l ⟨"i", .integer 128⟩).any fun iv => k = 1 ∧ c.Addressable ∧
        a.value s.machine (.variable ⟨"i", .integer 128⟩) = .ok ⟨0, 128⟩ ∧
        e.value s.machine iv.start = .ok ⟨-1, 128⟩ ∧ e.value s.machine iv.step = .ok ⟨1, 128⟩ := by
    decide +kernel
  have shared : ((sumsUnder [0, 1, 1]).goesRound? 1 4).any fun (_, d, _, l, s, a, e, k) =>
      (ofPhi? d l ⟨"i", .integer 64⟩).any fun iv => k = 1 ∧
        a.value s.machine (.variable ⟨"i", .integer 64⟩) = .ok ⟨1, 64⟩ ∧
        e.value s.machine iv.start = .ok ⟨0, 64⟩ ∧ e.value s.machine iv.step = .ok ⟨2, 64⟩ := by
    decide +kernel
  constructor
  · obtain ⟨⟨c, d, root, l, s, a, e, k⟩, hround, hall⟩ := (Option.any_eq_true ..).mp wide
    obtain ⟨iv, hiv, hall⟩ := (Option.any_eq_true ..).mp hall
    obtain ⟨rfl, addressable, hphi, hstart, hstep⟩ := of_decide_eq_true hall
    exact ⟨_, c, addressable, d, root, l, s, a, e, _, iv, Program.goesRound_of_goesRound? made.built hround, hiv, _, _, _,
      hphi, hstart, hstep, rfl, rfl, rfl, by decide⟩
  · obtain ⟨⟨c, d, root, l, s, a, e, k⟩, hround, hall⟩ := (Option.any_eq_true ..).mp shared
    obtain ⟨iv, hiv, hall⟩ := (Option.any_eq_true ..).mp hall
    obtain ⟨rfl, hphi, hstart, hstep⟩ := of_decide_eq_true hall
    exact ⟨_, c, d, root, l, s, a, e, _, iv, Program.goesRound_of_goesRound? (built_sumsUnder _) hround, hiv, _, _, _,
      hphi, hstart, hstep, rfl, rfl, rfl, by decide⟩

end InductionVariable

end RegionGuard

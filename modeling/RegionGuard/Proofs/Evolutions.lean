import RegionGuard.Proofs.InductionVariables
set_option autoImplicit false

/-!
# What evolutions say

An evolution that is made of sums, products and recurrences gives the value that it stands for in every round of the
loop, modulo the number of values of the width. That is as long as no value that it rests on is used with more bits
than it has, or is used there as the number that its own evolution gives.
-/

namespace RegionGuard

open Relation (ReflTransGen)

theorem signedWrap_modEq (z : Int) : signedWrap z ≡ z [ZMOD 2 ^ 64] := Int.bmod_emod

namespace Constant

/-- A shift is shorter than the width, and multiplies by a power of two. -/
theorem binary_shl {l r x : Constant} (hshort : r.value.toNat < 64) (h : Evaluation.binary .shl l r = .ok x) :
    x = ofInt (l.number * 2 ^ r.value.toNat) l.bits := by
  obtain ⟨w, hw, hx⟩ := bind_eq_ok.mp h
  obtain ⟨_, -, hw⟩ := bind_eq_ok.mp hw
  cases hw
  cases hx
  refine make_eq_ofInt ?_
  rw [UInt64.toNat_shiftLeft, Nat.mod_eq_of_lt hshort, Nat.shiftLeft_eq, Int.natCast_mod]
  push_cast
  exact Int.mod_modEq _ _

theorem number_cast {kind : CastKind} {src x : Constant} {ty : Ty} (h : Evaluation.cast kind src ty = .ok x) :
    x.number ≡ (if kind = .signExtend then src.signed else src.number) [ZMOD modulus x.bits] := by
  obtain ⟨bits, -, h⟩ := bind_eq_ok.mp h
  split at h
  · cases h
    exact number_ofInt_modEq _ _
  · rename_i hkind
    cases h
    rw [if_neg hkind, number_make]
    exact Int.mod_modEq _ _

end Constant

namespace Operation

def followed : Operation → List (Value × Reading)
  | .binary _ .add lhs rhs | .binary _ .sub lhs rhs | .binary _ .mul lhs rhs => [(lhs, .unsigned), (rhs, .unsigned)]
  | .binary _ .shl lhs (.constant _) => [(lhs, .unsigned)]
  | .cast _ .zeroExtend src | .cast _ .truncate src => [(src, .unsigned)]
  | .cast _ .signExtend src => [(src, .signed)]
  | _ => []

def evolution? (E : Value → Evolution) : Operation → Option Evolution
  | .binary _ .add lhs rhs => some ((E lhs).plus (E rhs))
  | .binary _ .sub lhs rhs => some ((E lhs).plus (.times (.constant (-1)) (E rhs)))
  | .binary _ .mul lhs rhs => some ((E lhs).times (E rhs))
  | .binary _ .shl lhs (.constant c) =>
    if c.value < 63 then some ((E lhs).times (.constant (.ofNat (Nat.pow 2 c.value.toNat)))) else none
  | .cast _ .zeroExtend src | .cast _ .signExtend src | .cast _ .truncate src => some (E src)
  | _ => none

end Operation

namespace Evolution

/-- What an evolution gives after `k` rounds, among the integers, for values that do not change. -/
def after (ν : Value → Int) (k : Nat) : Evolution → Int
  | .constant c => c
  | .invariant v => ν v
  | .add a b => a.after ν k + b.after ν k
  | .mul a b => a.after ν k * b.after ν k
  | .recurrence start step _ => start.after ν k + k * step.after ν k
  | .minMax _ _ | .unknown => 0

variable {ν : Value → Int} {k : Nat} {A B : Evolution}

/-- Constants are added up modulo `2 ^ 64`, of which every width has a divisor. -/
theorem modEq_plus {x y : Int} {bits : Nat} (hx : x ≡ A.after ν k [ZMOD Constant.modulus bits])
    (hy : y ≡ B.after ν k [ZMOD Constant.modulus bits]) :
    x + y ≡ (plus A B).after ν k [ZMOD Constant.modulus bits] := by
  refine (hx.add hy).trans ?_
  unfold plus
  split
  · exact Constant.modEq_of_word (signedWrap_modEq _).symm
  · exact .refl _

theorem modEq_times {x y : Int} {bits : Nat} (hx : x ≡ A.after ν k [ZMOD Constant.modulus bits])
    (hy : y ≡ B.after ν k [ZMOD Constant.modulus bits]) :
    x * y ≡ (times A B).after ν k [ZMOD Constant.modulus bits] := by
  refine (hx.mul hy).trans ?_
  unfold times
  split
  · exact Constant.modEq_of_word (signedWrap_modEq _).symm
  · exact .refl _

theorem isAnalyzable_plus (h : (plus A B).isAnalyzable) : A.isAnalyzable ∧ B.isAnalyzable := by
  unfold plus at h
  split at h
  · exact ⟨rfl, rfl⟩
  · exact Bool.and_eq_true_iff.mp h

theorem isAnalyzable_times (h : (times A B).isAnalyzable) : A.isAnalyzable ∧ B.isAnalyzable := by
  unfold times at h
  split at h
  · exact ⟨rfl, rfl⟩
  · exact Bool.and_eq_true_iff.mp h

end Evolution

namespace Operation

variable {o : Operation} {E E' : Value → Evolution} {X : Evolution}

theorem isAnalyzable_of_evolution? (h : o.evolution? E = some X) (hX : X.isAnalyzable) :
    ∀ e ∈ o.followed, (E e.1).isAnalyzable := by
  unfold evolution? at h
  split at h
  · cases h
    obtain ⟨hlhs, hrhs⟩ := Evolution.isAnalyzable_plus hX
    simp [followed, hlhs, hrhs]
  · cases h
    obtain ⟨hlhs, hrhs⟩ := Evolution.isAnalyzable_plus hX
    obtain ⟨-, hrhs⟩ := Evolution.isAnalyzable_times hrhs
    simp [followed, hlhs, hrhs]
  · cases h
    obtain ⟨hlhs, hrhs⟩ := Evolution.isAnalyzable_times hX
    simp [followed, hlhs, hrhs]
  · split at h
    · cases h
      obtain ⟨hlhs, -⟩ := Evolution.isAnalyzable_times hX
      simp [followed, hlhs]
    · cases h
  · cases h
    simpa [followed] using hX
  · cases h
    simpa [followed] using hX
  · cases h
    simpa [followed] using hX
  · cases h

theorem isSome_evolution? (o : Operation) (E E' : Value → Evolution) :
    (o.evolution? E).isSome ↔ (o.evolution? E').isSome := by
  unfold evolution?
  split
  · exact Iff.rfl
  · exact Iff.rfl
  · exact Iff.rfl
  · rename_i n
    by_cases hshort : n.value < 63
    · simp only [if_pos hshort, Option.isSome_some]
    · simp only [if_neg hshort]
  all_goals exact Iff.rfl

theorem computes?_of_evolution? (h : o.evolution? E = some X) : o.computes? = o.written? := by
  cases o with
  | binary | cast => rfl
  | _ => cases h

theorem followed_subset_reads (o : Operation) : o.followed.map (·.1) ⊆ o.reads := by
  unfold followed
  split <;> simp [reads]

theorem evolution?_congr (h : ∀ e ∈ o.followed, E e.1 = E' e.1) : o.evolution? E = o.evolution? E' := by
  unfold evolution?
  split <;> simp_all [followed]

/-- What an operation computes has the evolution that comes from those of its operands, if it uses them as the numbers
that these give. -/
theorem modEq_of_evolution? {ν : Value → Int} {k : Nat} {m : Machine} {a : Activation} {dst : Variable} {r : Constant}
    (h : o.evolution? E = some X) (hr : a.computed? m o = some (dst, .ok r))
    (operands : ∀ e ∈ o.followed, ∀ y, a.value m e.1 = .ok y →
      e.2.of y ≡ (E e.1).after ν k [ZMOD Constant.modulus r.bits]) :
    r.number ≡ X.after ν k [ZMOD Constant.modulus r.bits] := by
  have binary : ∀ {op dst' lhs rhs}, a.computed? m (.binary dst' op lhs rhs) = some (dst, .ok r) →
      ∃ y z, a.value m lhs = .ok y ∧ a.value m rhs = .ok z ∧ Evaluation.binary op y z = .ok r := fun hr => by
    obtain ⟨y, hy, hr⟩ := bind_eq_ok.mp (Prod.mk.inj (Option.some.inj hr)).2
    obtain ⟨z, hz, hr⟩ := bind_eq_ok.mp hr
    exact ⟨y, z, hy, hz, hr⟩
  have cast : ∀ {kind dst' src}, a.computed? m (.cast dst' kind src) = some (dst, .ok r) →
      ∃ y, a.value m src = .ok y ∧
        r.number ≡ (if kind = .signExtend then y.signed else y.number) [ZMOD Constant.modulus r.bits] := fun hr => by
    obtain ⟨y, hy, hr⟩ := bind_eq_ok.mp (Prod.mk.inj (Option.some.inj hr)).2
    exact ⟨y, hy, Constant.number_cast hr⟩
  have lhs_rhs : ∀ {lhs rhs y z}, o.followed = [(lhs, .unsigned), (rhs, .unsigned)] → a.value m lhs = .ok y →
      a.value m rhs = .ok z → y.number ≡ (E lhs).after ν k [ZMOD Constant.modulus r.bits] ∧
        z.number ≡ (E rhs).after ν k [ZMOD Constant.modulus r.bits] := fun hfollowed hy hz => by
    rw [hfollowed] at operands
    exact ⟨operands _ List.mem_cons_self _ hy, operands _ (List.mem_cons_of_mem _ List.mem_cons_self) _ hz⟩
  unfold evolution? at h
  split at h
  · cases h
    obtain ⟨y, z, hy, hz, hr⟩ := binary hr
    obtain ⟨hlhs, hrhs⟩ := lhs_rhs rfl hy hz
    rw [Constant.binary_add] at hr
    cases hr
    exact (Constant.number_ofInt_modEq _ _).trans (Evolution.modEq_plus hlhs hrhs)
  · cases h
    obtain ⟨y, z, hy, hz, hr⟩ := binary hr
    obtain ⟨hlhs, hrhs⟩ := lhs_rhs rfl hy hz
    rw [Constant.binary_sub, Int.sub_eq_add_neg, Int.neg_eq_neg_one_mul] at hr
    cases hr
    exact (Constant.number_ofInt_modEq _ _).trans (Evolution.modEq_plus hlhs (Evolution.modEq_times (.refl _) hrhs))
  · cases h
    obtain ⟨y, z, hy, hz, hr⟩ := binary hr
    obtain ⟨hlhs, hrhs⟩ := lhs_rhs rfl hy hz
    rw [Constant.binary_mul] at hr
    cases hr
    exact (Constant.number_ofInt_modEq _ _).trans (Evolution.modEq_times hlhs hrhs)
  · split at h
    · rename_i n hshort
      cases h
      obtain ⟨y, z, hy, hz, hr⟩ := binary hr
      cases hz
      have hlhs := operands _ List.mem_cons_self y hy
      have hlt : n.value.toNat < 64 := Nat.lt_trans (UInt64.lt_iff_toNat_lt.mp hshort) (by decide)
      rw [Constant.binary_shl hlt hr] at hlhs ⊢
      refine (Constant.number_ofInt_modEq _ _).trans (Evolution.modEq_times hlhs ?_)
      change _ ≡ ((2 ^ n.value.toNat : Nat) : Int) [ZMOD _]
      push_cast
      exact .refl _
    · cases h
  · cases h
    obtain ⟨y, hy, hr⟩ := cast hr
    exact hr.trans (operands _ List.mem_cons_self y hy)
  · cases h
    obtain ⟨y, hy, hr⟩ := cast hr
    exact hr.trans (operands _ List.mem_cons_self y hy)
  · cases h
    obtain ⟨y, hy, hr⟩ := cast hr
    exact hr.trans (operands _ List.mem_cons_self y hy)
  · cases h

end Operation

variable {d : DefUse} {l : NaturalLoop} {v : Variable} {place : Location}

namespace Evolution

def ofDefinition (d : DefUse) (l : NaturalLoop) (v : Variable) (place : Location) (o : Operation) (E : Value → Evolution) :
    Evolution :=
  match o.evolution? E with
  | some X => X
  | none =>
    let leaf := if l.contains place.block then .unknown else .invariant (.variable v)
    match o with
    | .binary _ .shl _ _ => .unknown
    | .select _ _ onTrue onFalse => .minMax (E onTrue) (E onFalse)
    | .phi _ _ =>
      if place.block = l.header then
        match InductionVariable.ofPhi? d l v with
        | some iv => .recurrence (E iv.start) (E iv.step) l.header
        | none => .unknown
      else leaf
    | _ => leaf

variable {o : Operation} {n n' : Nat} {P P' : List Variable} {E : Value → Evolution}

theorem within_succ (hplace : d.definition? v = some place) (ho : d.definingOperation? (.variable v) = some o) :
    within d l (n + 1) P (.variable v) =
      if v ∈ P then .unknown else ofDefinition d l v place o (within d l n (v :: P)) := by
  unfold within
  simp only [hplace, ho]
  refine ite_congr rfl (fun _ => rfl) fun _ => ?_
  cases o with
  | binary dst op lhs rhs =>
    cases op with
    | shl =>
      cases rhs with
      | constant c =>
        unfold ofDefinition Operation.evolution?
        by_cases hshort : c.value < 63
        · simp only [if_pos hshort]
        · simp only [if_neg hshort]
      | _ => rfl
    | _ => rfl
  | cast dst kind src => cases kind <;> rfl
  | _ => rfl

theorem ofDefinition_cases (h : (ofDefinition d l v place o E).isAnalyzable) :
    (∀ E', o.evolution? E' = some (ofDefinition d l v place o E')) ∨
      (¬ l.contains place.block = true ∧ ∀ E', ofDefinition d l v place o E' = .invariant (.variable v)) ∨
      ∃ iv, InductionVariable.ofPhi? d l v = some iv ∧
        ∀ E', ofDefinition d l v place o E' = .recurrence (E' iv.start) (E' iv.step) l.header := by
  by_cases hcomputes : (o.evolution? E).isSome
  · refine .inl fun E' => ?_
    obtain ⟨X, hX⟩ := Option.isSome_iff_exists.mp ((Operation.isSome_evolution? o E E').mp hcomputes)
    unfold ofDefinition
    rw [hX]
  · refine .inr ?_
    have other : ∀ E', o.evolution? E' = none := fun E' => by
      rw [Operation.isSome_evolution? o E E'] at hcomputes
      exact Option.not_isSome_iff_eq_none.mp hcomputes
    unfold ofDefinition at h ⊢
    simp only [other] at h ⊢
    have leaf : (if l.contains place.block then unknown else invariant (.variable v)).isAnalyzable →
        ¬ l.contains place.block = true ∧ (if l.contains place.block then unknown else invariant (.variable v)) =
          invariant (.variable v) := fun h => by
      split at h
      · cases h
      · rename_i houtside
        exact ⟨houtside, if_neg houtside⟩
    split at h
    · cases h
    · cases h
    · split at h
      · rename_i hheader
        split at h
        · rename_i iv hiv
          exact .inr ⟨iv, hiv, fun E' => by simp only [if_pos hheader]⟩
        · cases h
      · rename_i hheader
        obtain ⟨houtside, heq⟩ := leaf h
        exact .inl ⟨houtside, fun E' => by simp only [if_neg hheader, heq]⟩
    · obtain ⟨houtside, heq⟩ := leaf h
      exact .inl ⟨houtside, fun E' => by simp only [heq]⟩

theorem exists_of_isAnalyzable (h : (within d l (n + 1) P (.variable v)).isAnalyzable) :
    ∃ place o, d.definition? v = some place ∧ d.definingOperation? (.variable v) = some o ∧ v ∉ P := by
  cases hplace : d.definition? v with
  | none =>
    unfold within at h
    simp only [hplace] at h
    cases h
  | some place =>
    cases ho : d.definingOperation? (.variable v) with
    | none =>
      unfold within at h
      simp only [hplace, ho] at h
      cases h
    | some o =>
      refine ⟨place, o, rfl, rfl, fun hmem => ?_⟩
      rw [within_succ hplace ho, if_pos hmem] at h
      cases h

/-- More room, and fewer variables in progress, change nothing about an analyzable evolution. -/
theorem within_mono (hn : n ≤ n') (hP : P' ⊆ P) {u : Value} (h : (within d l n P u).isAnalyzable) :
    within d l n' P' u = within d l n P u := by
  induction n generalizing n' P P' u with
  | zero =>
    cases u with
    | «variable» v => cases h
    | _ => simp only [within]
  | succ n ih =>
    obtain ⟨n', rfl⟩ : ∃ k, n' = k + 1 := ⟨n' - 1, by omega⟩
    cases u with
    | «variable» v =>
      obtain ⟨place, o, hplace, ho, hfresh⟩ := exists_of_isAnalyzable h
      rw [within_succ hplace ho] at h ⊢
      rw [within_succ hplace ho]
      rw [if_neg hfresh] at h ⊢
      rw [if_neg fun hmem => hfresh (hP hmem)]
      have inner : ∀ {w}, (within d l n (v :: P) w).isAnalyzable → within d l n' (v :: P') w = within d l n (v :: P) w :=
        fun hw => ih (by omega) (List.cons_subset_cons v hP) hw
      rcases ofDefinition_cases h with hcomputes | ⟨-, heq⟩ | ⟨iv, -, heq⟩
      · refine Option.some.inj ?_
        rw [← hcomputes, ← hcomputes]
        refine Operation.evolution?_congr fun e he => inner ?_
        exact Operation.isAnalyzable_of_evolution? (hcomputes _) h e he
      · rw [heq, heq]
      · rw [heq] at h
        obtain ⟨hstart, hstep⟩ := Bool.and_eq_true_iff.mp h
        rw [heq, heq, inner hstart, inner hstep]
    | _ => simp only [within]

inductive Analyzed (d : DefUse) (l : NaturalLoop) : Value → Prop
  | constant (n : Constant) : Analyzed d l (.constant n)
  | steady {u : Value} (outside : d.WrittenOutside (fun place => l.contains place.block = true) u)
    (evolves : ofValue d l u = .invariant u) : Analyzed d l u
  | computed {v : Variable} {place : Location} {o : Operation} (defined : d.definition? v = some place)
    (defines : d.definingOperation? (.variable v) = some o)
    (evolves : o.evolution? (ofValue d l) = some (ofValue d l (.variable v)))
    (operands : ∀ e ∈ o.followed, Analyzed d l e.1) : Analyzed d l (.variable v)
  | recurrence {v : Variable} {iv : InductionVariable} (recognized : InductionVariable.ofPhi? d l v = some iv)
    (evolves : ofValue d l (.variable v) = .recurrence (ofValue d l iv.start) (ofValue d l iv.step) l.header)
    (start : Analyzed d l iv.start) (step : Analyzed d l iv.step) : Analyzed d l (.variable v)

theorem ofValue_eq_within (hn : n ≤ d.definitions.length + 1) {u : Value} (h : (within d l n P u).isAnalyzable) :
    ofValue d l u = within d l n P u := within_mono hn (List.nil_subset P) h

theorem analyzed_of_within (hn : n ≤ d.definitions.length + 1) {u : Value} (h : (within d l n P u).isAnalyzable) :
    Analyzed d l u := by
  have notVariable : ∀ {u : Value}, u.asVariable? = none →
      d.WrittenOutside (fun place => l.contains place.block = true) u := fun hu y hy => by
    rw [hy] at hu
    cases hu
  induction n generalizing P u with
  | zero =>
    cases u with
    | «variable» v => cases h
    | constant n => exact .constant n
    | _ => exact .steady (notVariable rfl) (by simp only [ofValue, within])
  | succ n ih =>
    cases u with
    | constant n => exact .constant n
    | «variable» v =>
      have hwithin := ofValue_eq_within hn h
      obtain ⟨place, o, hplace, ho, hfresh⟩ := exists_of_isAnalyzable h
      rw [within_succ hplace ho, if_neg hfresh] at h hwithin
      have inner : ∀ {w}, (within d l n (v :: P) w).isAnalyzable → ofValue d l w = within d l n (v :: P) w :=
        ofValue_eq_within (by omega)
      rcases ofDefinition_cases h with hcomputes | ⟨houtside, heq⟩ | ⟨iv, hiv, heq⟩
      · have operands := Operation.isAnalyzable_of_evolution? (hcomputes _) h
        refine .computed hplace ho ?_ fun e he => ih (by omega) (operands e he)
        rw [hwithin, ← hcomputes]
        exact Operation.evolution?_congr fun e he => inner (operands e he)
      · refine .steady (fun y hy => ?_) (hwithin.trans (heq _))
        cases hy
        exact ⟨place, hplace, houtside⟩
      · rw [heq] at h hwithin
        obtain ⟨hstart, hstep⟩ := Bool.and_eq_true_iff.mp h
        refine .recurrence hiv ?_ (ih (by omega) hstart) (ih (by omega) hstep)
        rw [hwithin, inner hstart, inner hstep]
    | _ => exact .steady (notVariable rfl) (by simp only [ofValue, within])

def parts (d : DefUse) (l : NaturalLoop) (u : Value) : List Value :=
  (d.definingOperation? u).toList.flatMap (fun o => o.followed.map (·.1)) ++
    (u.asVariable?.bind (InductionVariable.ofPhi? d l)).toList.flatMap fun iv => [iv.start, iv.step]

theorem mem_parts_of_followed {o : Operation} {e : Value × Reading} (ho : d.definingOperation? (.variable v) = some o)
    (he : e ∈ o.followed) : e.1 ∈ parts d l (.variable v) :=
  List.mem_append_left _ (List.mem_flatMap.mpr ⟨o, Option.mem_toList.mpr ho, List.mem_map_of_mem he⟩)

theorem mem_parts_of_ofPhi? {iv : InductionVariable} (hiv : InductionVariable.ofPhi? d l v = some iv) :
    ∀ w ∈ [iv.start, iv.step], w ∈ parts d l (.variable v) := fun _ hw =>
  List.mem_append_right _ (List.mem_flatMap.mpr ⟨iv, Option.mem_toList.mpr hiv, hw⟩)

/-- A value is one of those that the evolution of another one is made of in the end. -/
def RestsOn (d : DefUse) (l : NaturalLoop) : Value → Value → Prop := ReflTransGen fun u w => w ∈ parts d l u

/-- The numbers that values hold in a call. -/
def reading (m : Machine) (a : Activation) (v : Value) : Int := ((a.value m v).toOption.map Constant.signed).getD 0

/-- An operation uses no operand that is followed with more bits than it has, or it uses the number that the evolution
of the operand gives. An induction variable that has advanced has no more bits than its start and its step. -/
def Faithful (d : DefUse) (l : NaturalLoop) (m : Machine) (a : Activation) (k : Nat) (u : Value) : Prop :=
  ∀ r ∈ (a.value m u).toOption,
    (∀ o ∈ d.definingOperation? u, ∀ e ∈ o.followed, ∀ y ∈ (a.value m e.1).toOption,
      r.bits ≤ y.bits ∨ e.2.of y ≡ (ofValue d l e.1).after (reading m a) k [ZMOD Constant.modulus r.bits]) ∧
    (k ≠ 0 → ∀ iv ∈ u.asVariable?.bind (InductionVariable.ofPhi? d l), ∀ w ∈ [iv.start, iv.step],
      ∀ y ∈ (a.value m w).toOption, r.bits ≤ y.bits)

instance (d : DefUse) (l : NaturalLoop) (m : Machine) (a : Activation) (k : Nat) (u : Value) :
    Decidable (Faithful d l m a k u) := by
  unfold Faithful
  infer_instance

theorem forall_of_closed {S : List Value} {Q : Value → Prop} {v u : Value} (hv : v ∈ S)
    (closed : ∀ u ∈ S, Q u ∧ ∀ w ∈ parts d l u, w ∈ S)
    (hu : RestsOn d l v u) : Q u := by
  have hmem : u ∈ S := by
    induction hu with
    | refl => exact hv
    | tail _ hw ih => exact (closed _ ih).2 _ hw
  exact (closed u hmem).1

end Evolution

namespace Activation

variable {c : FlowGraph} {root : Nat} {f : Function} {x : Image} {a z e : Activation} {m : Machine} {k : Nat} {u : Value}
  {o : Operation}

/-- A call has a value in front of it on the border of a loop: it is the call that stands in the round, or the loop does
not write the value. -/
structure Sees (c : FlowGraph) (d : DefUse) (root : Nat) (x : Image) (l : NaturalLoop) (a z : Activation) (u : Value) :
    Prop where
  solved : ∃ front, z.Solved c d root x front ∧ ∀ y, u = .variable y → ∃ place, d.definition? y = some place ∧
    c.Available root place z.block front.length
  borders : l.Borders c z.block
  view : z = a ∨ d.WrittenOutside (fun place => l.contains place.block = true) u ∧ l.Steady d z a

theorem Sees.value_eq (h : a.Sees c d root x l z u) (m : Machine) : z.value m u = a.value m u := by
  rcases h.view with rfl | ⟨houtside, hsteady⟩
  · rfl
  · exact hsteady u houtside m

theorem Sees.operand (h : a.Sees c d root x l z (.variable v)) (named : f.Named c d root) (outlines : l.Outlines c root)
    (ho : d.definingOperation? (.variable v) = some o) (notPhi : o.isPhi = false) (hu : u ∈ o.reads) :
    a.Sees c d root x l z u := by
  obtain ⟨front, hsolved, havailable⟩ := h.solved
  obtain ⟨place, hplace, havailable⟩ := havailable v rfl
  refine ⟨⟨front, hsolved, fun y hy => ?_⟩, h.borders, h.view.imp_right fun ⟨houtside, hsteady⟩ => ⟨fun y hy => ?_, hsteady⟩⟩
  · subst hy
    obtain ⟨origin, horigin, hbefore, -⟩ := named.operand_available hplace ho notPhi havailable hsolved.reached hu
    exact ⟨origin, horigin, hbefore⟩
  · subst hy
    obtain ⟨origin, horigin, -, hdominates⟩ := named.operand_available hplace ho notPhi havailable hsolved.reached hu
    obtain ⟨place', hplace', houtside⟩ := houtside v rfl
    cases hplace.symm.trans hplace'
    exact ⟨origin, horigin, outlines.outside_of_dominates named.built.wired houtside hdominates havailable.dominates
      h.borders hsolved.reached⟩

theorem LeadsTo.arriving {iv : InductionVariable} (h : z.LeadsTo c d root x l e) (named : f.Named c d root)
    (recognized : iv.Recognized d l) : ∃ front dst incoming, z.Solved c d root x front ∧
      d.definingOperation? (.variable iv.phi) = some (.phi dst incoming) ∧
      (if l.contains z.block then .variable iv.next else iv.start, z.block) ∈ incoming ∧
      ∀ y, (if l.contains z.block then .variable iv.next else iv.start) = Value.variable y →
        ∃ origin, d.definition? y = some origin ∧ c.Available root origin z.block front.length := by
  obtain ⟨front, hsolved⟩ := h.solved
  obtain ⟨m, z', -, hnext, hheader⟩ := h.next
  obtain ⟨dst, incoming, v, r, ho, hv, hmem, -⟩ := hsolved.toStands.takesOver named recognized hnext hheader
  refine ⟨front, dst, incoming, hsolved, ho, hv ▸ hmem, fun y hy => ?_⟩
  rw [← hv] at hy
  subst hy
  exact hsolved.incoming_available named recognized h.ended ho hmem

theorem Circles.sees_start {iv : InductionVariable} (h : a.Circles c d root x l e k) (named : f.Named c d root)
    (outlines : l.Outlines c root) (recognized : iv.Recognized d l) :
    (∃ z, a.Sees c d root x l z iv.start) ∧ d.WrittenOutside (fun place => l.contains place.block = true) iv.start := by
  obtain ⟨z, leads, houtside⟩ := h.came
  obtain ⟨front, dst, incoming, hsolved, ho, hmem, havailable⟩ := leads.arriving named recognized
  rw [if_neg (by simp [houtside])] at hmem havailable
  have edge := leads.edge named
  have hstart := recognized.writtenOutside_start named outlines ho hmem (by simp [houtside]) edge hsolved.reached
  exact ⟨⟨z, ⟨front, hsolved, havailable⟩, .inr edge, .inr ⟨hstart, leads.steady.trans h.steady.symm⟩⟩, hstart⟩

/-- It has seen the step where it last came back to the header. -/
theorem Circles.sees_step {iv : InductionVariable} (h : a.Circles c d root x l e k) (named : f.Named c d root)
    (recognized : iv.Recognized d l) (hk : k ≠ 0) : ∃ z, a.Sees c d root x l z iv.step := by
  obtain ⟨z, leads, hinside⟩ := h.returned hk
  obtain ⟨front, dst, incoming, hsolved, -, -, havailable⟩ := leads.arriving named recognized
  rw [if_pos hinside] at havailable
  refine ⟨z, ⟨front, hsolved, fun y hy => ?_⟩, .inl hinside,
    .inr ⟨recognized.writtenOutside_step, leads.steady.trans h.steady.symm⟩⟩
  -- The step is an operand of the next value, which stands at the end of the block.
  obtain ⟨origin, horigin, havailable⟩ := havailable iv.next rfl
  obtain ⟨o, hnext, hstep⟩ := recognized.advances
  have hreads : .variable y ∈ o.reads := by
    rcases InductionVariable.stepOf?_eq_some hstep with ⟨_, lhs, rhs, rfl, ⟨-, rfl⟩ | ⟨-, rfl⟩⟩ | ⟨_, n, -, hconstant⟩
    · rw [hy]
      exact List.mem_cons_of_mem _ List.mem_cons_self
    · rw [hy]
      exact List.mem_cons_self
    · rw [hconstant] at hy
      cases hy
  have notPhi : o.isPhi = false :=
    Operation.isPhi_of_computes? ((InductionVariable.computes?_of_stepOf? hstep).trans (named.writes horigin hnext))
  obtain ⟨place, hplace, hbefore, -⟩ :=
    named.operand_available horigin hnext notPhi havailable hsolved.reached hreads
  exact ⟨place, hplace, hbefore⟩

/-- What a call sees from a round of a loop is what an analyzable evolution gives. -/
theorem Circles.modEq_of_analyzed (h : a.Circles c d root m.image l e k) (named : f.Named c d root)
    (outlines : l.Outlines c root) (hu : Evolution.Analyzed d l u) :
    ∀ {z r}, a.Sees c d root m.image l z u → (∀ w, Evolution.RestsOn d l u w → Evolution.Faithful d l m a k w) →
      a.value m u = .ok r →
      r.number ≡ (Evolution.ofValue d l u).after (Evolution.reading m a) k [ZMOD Constant.modulus r.bits] := by
  induction hu with
  | constant n =>
    intro z r _ _ hr
    cases hr
    exact n.signed_modEq.symm
  | @steady u _ heq =>
    intro z r _ _ hr
    have hreading : Evolution.reading m a u = r.signed := by
      unfold Evolution.reading
      rw [hr]
      rfl
    rw [heq, Evolution.after, hreading]
    exact r.signed_modEq.symm
  | @computed v place o hplace ho heq _ ih =>
    intro z r hsees faithful hr
    obtain ⟨front, hsolved, havailable⟩ := hsees.solved
    obtain ⟨place', hplace', havailable⟩ := havailable v rfl
    cases hplace.symm.trans hplace'
    have hcomputes : o.computes? = some v := (Operation.computes?_of_evolution? heq).trans (named.writes hplace ho)
    obtain ⟨r', hcomputed, hr'⟩ := hsolved.solves v place o hplace ho hcomputes havailable m rfl
    cases hr'.symm.trans ((hsees.value_eq m).trans hr)
    refine Operation.modEq_of_evolution? heq hcomputed fun w hw y hy => ?_
    have hoperand := hsees.operand named outlines ho (Operation.isPhi_of_computes? hcomputes)
      (o.followed_subset_reads (List.mem_map_of_mem hw))
    have hy := (hoperand.value_eq m).symm.trans hy
    have below := fun w' hw' => faithful w' (.head (Evolution.mem_parts_of_followed ho hw) hw')
    obtain ⟨uses, -⟩ := faithful _ .refl _ (toOption_eq_some.mpr hr)
    rcases uses o ho w hw y (toOption_eq_some.mpr hy) with hle | hread
    · exact (Constant.modEq_of_le hle (Reading.of_modEq w.2 y)).trans
        (Constant.modEq_of_le hle (ih w hw hoperand below hy))
    · exact hread
  | @recurrence v iv hiv heq _ _ ihstart ihstep =>
    intro z r _ faithful hr
    obtain ⟨rfl, recognized⟩ := InductionVariable.recognized_of_ofPhi? hiv
    obtain ⟨r', s, hr', hs, hzero, hsucc⟩ := h.advanced _ iv hiv m rfl
    cases hr.symm.trans hr'
    obtain ⟨⟨z₀, hstart⟩, houtside⟩ := h.sees_start named outlines recognized
    have hs := (h.steady _ houtside m).trans hs
    have hparts := Evolution.mem_parts_of_ofPhi? hiv
    have hfirst := ihstart hstart (fun w hw => faithful w (.head (hparts _ List.mem_cons_self) hw)) hs
    rw [heq, Evolution.after]
    by_cases hk : k = 0
    · cases hzero hk
      rw [show (k : Int) = 0 from mod_cast hk, Int.zero_mul, Int.add_zero]
      exact hfirst
    · obtain ⟨t, ht, -, hsum⟩ := hsucc hk
      obtain ⟨z₁, hstep⟩ := h.sees_step named recognized hk
      have ht := (h.steady _ recognized.writtenOutside_step m).trans ht
      have hmem : iv.step ∈ [iv.start, iv.step] := List.mem_cons_of_mem _ List.mem_cons_self
      have hadded := ihstep hstep (fun w hw => faithful w (.head (hparts _ hmem) hw)) ht
      obtain ⟨-, uses⟩ := faithful _ .refl _ (toOption_eq_some.mpr hr)
      have hles := uses hk iv hiv _ List.mem_cons_self s (toOption_eq_some.mpr hs)
      have hlet := uses hk iv hiv _ hmem t (toOption_eq_some.mpr ht)
      refine (Constant.modEq_of_le (Nat.le_min.mpr ⟨hles, hlet⟩) hsum).trans ?_
      exact (Constant.modEq_of_le hles hfirst).add ((Constant.modEq_of_le hlet hadded).mul_left _)

end Activation

/-- What is computed in a round of a loop has a value, and its evolution gives that, if it is analyzable and used as
faithfully as evolutions are made: modulo the number of values of the width. -/
theorem Evolution.denotes {t : Task} {c : FlowGraph} {root : Nat} {s : Processor} {a e : Activation} {k : Nat}
    (h : t.GoesRound c d root l s a e k) (addressable : c.Addressable) (hplace : d.definition? v = some place)
    (hin : l.contains place.block = true) (havailable : c.Available root place a.block a.done.length) (analyzable : (ofValue d l (.variable v)).isAnalyzable) :
    ∃ r, a.value s.machine (.variable v) = .ok r ∧
      ((∀ u, RestsOn d l (.variable v) u → Faithful d l s.machine a k u) →
        r.number ≡ (ofValue d l (.variable v)).after (reading s.machine a) k [ZMOD 2 ^ min r.bits 64]) := by
  obtain ⟨⟨front, hsolved⟩, circles⟩ := h.circles addressable
  obtain ⟨f, forest, charted, hl⟩ := h.charted
  obtain ⟨b, hb, hinstructions⟩ := hsolved.block
  have hdone : a.done = front := Activation.done_of_placed ⟨b, hsolved.body ▸ hb, hinstructions⟩
  rw [hdone] at havailable
  have hanalyzed : Analyzed d l (.variable v) := analyzed_of_within (Nat.le_refl _) analyzable
  have hvalue : ∃ r, a.value s.machine (.variable v) = .ok r := by
    cases hanalyzed with
    | steady houtside _ =>
      obtain ⟨place', hplace', hout⟩ := houtside v rfl
      cases hplace.symm.trans hplace'
      exact absurd hin hout
    | computed hplace' ho heq _ =>
      cases hplace.symm.trans hplace'
      have hcomputes := (Operation.computes?_of_evolution? heq).trans ((charted.named addressable).writes hplace ho)
      obtain ⟨r, -, hr⟩ := hsolved.solves v place _ hplace ho hcomputes havailable s.machine rfl
      exact ⟨r, hr⟩
    | recurrence hiv _ _ _ =>
      obtain ⟨rfl, -⟩ := InductionVariable.recognized_of_ofPhi? hiv
      obtain ⟨r, _, hr, -⟩ := circles.advanced _ _ hiv s.machine rfl
      exact ⟨r, hr⟩
  obtain ⟨r, hr⟩ := hvalue
  refine ⟨r, hr, fun faithful => ?_⟩
  have hsees : a.Sees c d root s.machine.image l a (.variable v) := by
    refine ⟨⟨front, hsolved, fun y hy => ?_⟩, .inl circles.inside, .inl rfl⟩
    cases hy
    exact ⟨place, hplace, havailable⟩
  have hmodEq := circles.modEq_of_analyzed (charted.named addressable) (charted.outlines addressable hl) hanalyzed
    hsees faithful hr
  rw [Constant.modulus] at hmodEq
  exact mod_cast hmodEq

def DefUse.computedAt? (d : DefUse) (c : FlowGraph) (a : Activation) (v : Variable) : Option Location := do
  let place ← d.definition? v
  guard (place.block = a.block)
  let b ← (c.block a.block).toOption
  let n ← b.position? place.instruction
  guard (n < a.done.length)
  return place

theorem DefUse.available_of_computedAt? {c : FlowGraph} {root : Nat} {a : Activation}
    (h : d.computedAt? c a v = some place) :
    d.definition? v = some place ∧ place.block = a.block ∧ c.Available root place a.block a.done.length := by
  obtain ⟨place, hplace, h⟩ := Option.bind_eq_some_iff.mp h
  obtain ⟨_, hblock, h⟩ := Option.bind_eq_some_iff.mp h
  obtain ⟨b, hb, h⟩ := Option.bind_eq_some_iff.mp h
  obtain ⟨n, hn, h⟩ := Option.bind_eq_some_iff.mp h
  obtain ⟨_, hlt, h⟩ := Option.bind_eq_some_iff.mp h
  cases h
  refine ⟨hplace, of_guard hblock, ?_⟩
  unfold FlowGraph.Available
  rw [if_pos (of_guard hblock)]
  exact ⟨b, n, toOption_eq_some.mp hb, hn, of_guard hlt⟩

namespace Evolution

def countsBytes (first step : Word) (code : List Operation) : Program :=
  let byte (v : String) : Variable := ⟨v, .integer 8⟩
  .ofFunctions [
    .ofCode "main" []
      [[],
        [.phi (byte "i") [(.ofWord first 8, 0), (.variable (byte "next"), 1)],
          .binary (byte "next") .add (.variable (byte "i")) (.ofWord step 8),
          .cast ⟨"n", .integer 64⟩ .signExtend (.variable (byte "i"))] ++ code]
      [(0, 1, none), (1, 1, none)]]

theorem made_countsBytes (first step : Word) (code : List Operation) : (countsBytes first step code).Made :=
  Program.made_of_ofFunctions fun f hf => by
    cases List.mem_singleton.mp hf
    exact Function.made_of_ofCode

/-- A multiple of a byte that is counted up from below zero. -/
def scaled : List Operation :=
  [.binary ⟨"scaled", .integer 64⟩ .mul (.variable ⟨"n", .integer 64⟩) (.ofWord 12 64),
    .binary ⟨"v", .integer 64⟩ .sub (.variable ⟨"scaled", .integer 64⟩) (.ofWord 5 64)]

def scaledParts : List Value :=
  [.variable ⟨"v", .integer 64⟩, .variable ⟨"scaled", .integer 64⟩, .variable ⟨"n", .integer 64⟩,
    .variable ⟨"i", .integer 8⟩, .ofWord (-2) 8, .ofWord 3 8, .ofWord 12 64, .ofWord 5 64]

theorem denotes_scaled :
    ∃ t c d root l s a e v place, Task.GoesRound t c d root l s a e 2 ∧ c.Addressable ∧ d.definition? v = some place ∧
      l.contains place.block = true ∧ c.Available root place a.block a.done.length ∧
      (ofValue d l (.variable v)).isAnalyzable ∧
      (∀ u, RestsOn d l (.variable v) u → Faithful d l s.machine a 2 u) ∧
      ∃ r, a.value s.machine (.variable v) = .ok r ∧
        r.number ≡ (ofValue d l (.variable v)).after (reading s.machine a) 2 [ZMOD 2 ^ min r.bits 64] := by
  have hall : ((countsBytes (-2) 3 scaled).goesRound? 1 15).any fun (c, d, _, l, s, a, _, k) => k = 2 ∧ c.Addressable ∧
      (d.computedAt? c a ⟨"v", .integer 64⟩).any fun place => l.contains place.block ∧
        (ofValue d l (.variable ⟨"v", .integer 64⟩)).isAnalyzable ∧
        ∀ u ∈ scaledParts, Faithful d l s.machine a k u ∧ ∀ w ∈ parts d l u, w ∈ scaledParts := by
    decide +kernel
  obtain ⟨⟨c, d, root, l, s, a, e, k⟩, hround, hall⟩ := (Option.any_eq_true ..).mp hall
  obtain ⟨rfl, addressable, hall⟩ := of_decide_eq_true hall
  obtain ⟨place, hcomputed, hall⟩ := (Option.any_eq_true ..).mp hall
  obtain ⟨hin, analyzable, closed⟩ := of_decide_eq_true hall
  have goes := Program.goesRound_of_goesRound? (made_countsBytes (-2) 3 scaled).built hround
  obtain ⟨hplace, -, havailable⟩ := DefUse.available_of_computedAt? hcomputed
  obtain ⟨r, hr, hdenotes⟩ := denotes goes addressable hplace hin havailable analyzable
  have faithful := fun u (hu : RestsOn d l _ u) => forall_of_closed List.mem_cons_self closed hu
  exact ⟨_, c, d, root, l, s, a, e, _, place, goes, addressable, hplace, hin, havailable, analyzable, faithful, r, hr,
    hdenotes faithful⟩

/-- In a round of a loop, a variable of 64 bits has been computed that is not what its analyzable evolution gives. -/
def Misses (t : Task) (v : Variable) (c : FlowGraph) (d : DefUse) (l : NaturalLoop) (s : Processor) (a : Activation)
    (k : Nat) : Prop :=
  ∃ root e place, t.GoesRound c d root l s a e k ∧ d.definition? v = some place ∧ l.contains place.block = true ∧
    c.Available root place a.block a.done.length ∧ v.ty = .integer 64 ∧ (ofValue d l (.variable v)).isAnalyzable ∧
    ∃ r, a.value s.machine (.variable v) = .ok r ∧ r.bits = 64 ∧
      ¬ r.number ≡ (ofValue d l (.variable v)).after (reading s.machine a) k [ZMOD 2 ^ 64]

def missesAfter (p : Program) (steps : Nat) (v : Variable)
    (test : FlowGraph → DefUse → NaturalLoop → Machine → Activation → Nat → Bool) : Bool :=
  (p.goesRound? 1 steps).any fun (c, d, _, l, s, a, _, k) => (d.computedAt? c a v).any fun place =>
    l.contains place.block ∧ v.ty = .integer 64 ∧ (ofValue d l (.variable v)).isAnalyzable ∧ test c d l s.machine a k ∧
      (a.value s.machine (.variable v)).toOption.any fun r => r.bits = 64 ∧
        ¬ r.number ≡ (ofValue d l (.variable v)).after (reading s.machine a) k [ZMOD 2 ^ 64]

theorem misses_of_missesAfter {p : Program} (built : p.Built) (steps : Nat) {v : Variable}
    {q : FlowGraph → DefUse → NaturalLoop → Machine → Activation → Nat → Bool} (h : missesAfter p steps v q) :
    ∃ t c d l s a k, Misses t v c d l s a k ∧ q c d l s.machine a k := by
  obtain ⟨⟨c, d, root, l, s, a, e, k⟩, hround, h⟩ := (Option.any_eq_true ..).mp h
  obtain ⟨place, hcomputed, h⟩ := (Option.any_eq_true ..).mp h
  obtain ⟨hin, hty, analyzable, htest, h⟩ := of_decide_eq_true h
  obtain ⟨r, hr, h⟩ := (Option.any_eq_true ..).mp h
  obtain ⟨hbits, hmisses⟩ := of_decide_eq_true h
  obtain ⟨hplace, -, havailable⟩ := DefUse.available_of_computedAt? hcomputed
  exact ⟨_, c, d, l, s, a, k, ⟨root, e, place, Program.goesRound_of_goesRound? built hround, hplace, hin, havailable, hty,
    analyzable, r, toOption_eq_some.mp hr, hbits, hmisses⟩, htest⟩

/-- The sum of a word and a byte, which addition does not read with its sign. -/
def mixed : List Operation :=
  [.binary ⟨"sum", .integer 64⟩ .add (.variable ⟨"n", .integer 64⟩) (.ofWord 255 8)]

def sumParts : List Value :=
  [.variable ⟨"next", .integer 64⟩, .variable ⟨"i", .integer 64⟩, .ofWord 0 64, .ofWord 2 64]

open InductionVariable in
/-- Evolutions do not know that narrow numbers wrap around before they are extended, nor that arithmetic reads the bits
of narrow operands without a sign. Where two sums share a number, the evolution of one is that of the other. -/
theorem evolutions_miss :
    (∃ t c d l s a k, Misses t ⟨"n", .integer 64⟩ c d l s a k ∧ c.Addressable) ∧
      (∃ t c d l s a k, Misses t ⟨"sum", .integer 64⟩ c d l s a k ∧ c.Addressable) ∧
      ∃ t c d l s a k, Misses t ⟨"next", .integer 64⟩ c d l s a k ∧
        ∀ u, RestsOn d l (.variable ⟨"next", .integer 64⟩) u → Faithful d l s.machine a k u := by
  have built := (made_countsBytes 127 1 mixed).built
  refine ⟨?_, ?_, ?_⟩
  · obtain ⟨t, c, d, l, s, a, k, hmisses, haddressable⟩ := misses_of_missesAfter built 7 (v := ⟨"n", .integer 64⟩)
      (q := fun c _ _ _ _ _ => c.Addressable) (by decide +kernel)
    exact ⟨t, c, d, l, s, a, k, hmisses, of_decide_eq_true haddressable⟩
  · obtain ⟨t, c, d, l, s, a, k, hmisses, haddressable⟩ := misses_of_missesAfter built 4 (v := ⟨"sum", .integer 64⟩)
      (q := fun c _ _ _ _ _ => c.Addressable) (by decide +kernel)
    exact ⟨t, c, d, l, s, a, k, hmisses, of_decide_eq_true haddressable⟩
  · obtain ⟨t, c, d, l, s, a, k, hmisses, hclosed⟩ := misses_of_missesAfter (built_sumsUnder [0, 1, 1]) 3
      (v := ⟨"next", .integer 64⟩) (q := fun _ d l m a k =>
        decide (∀ u ∈ sumParts, Faithful d l m a k u ∧ ∀ w ∈ parts d l u, w ∈ sumParts)) (by decide +kernel)
    exact ⟨t, c, d, l, s, a, k, hmisses, fun u hu =>
      forall_of_closed List.mem_cons_self (of_decide_eq_true hclosed) hu⟩

end Evolution

end RegionGuard

import Mathlib.Data.Nat.Find
import RegionGuard.Proofs.Agreement
import RegionGuard.Proofs.ConstantBits
import RegionGuard.Proofs.Tidiness
import RegionGuard.Proofs.TwosComplement
set_option autoImplicit false

/-!
# The last iteration

Code in front of a counting loop computes the value that the induction variable has the last time an access runs. It
divides the way from the start to the bound by the step: as unsigned numbers, or as signed ones where the test is
signed. A way of half the range or more is then read as negative, and the quotient is wrong, unless nothing remains
of the division either way.
-/

namespace RegionGuard

namespace Activation

variable {m : Machine} {n k : Nat} {known more : List (Value × Constant)} {a a' b : Activation} {front behind : List Operation}

/-- Operations that compute from their operands alone take a call from where it is to where it gets. -/
inductive Computes (m : Machine) : Activation → List Operation → Activation → Prop
  | done (a : Activation) : Computes m a [] a
  | next {a b : Activation} {o : Operation} {rest : List Operation} {dst : Variable} {r : Constant}
      (here : a.computed? m o = some (dst, .ok r)) (behind : Computes m (a.assign dst r) rest b) :
      Computes m a (o :: rest) b

theorem Computes.append (h : Computes m a front a') (h' : Computes m a' behind b) : Computes m a (front ++ behind) b := by
  induction h with
  | done => exact h'
  | next here _ ih => exact .next here (ih h')

/-- What some values stand for, none of them a temporary from a number on. -/
def Knows (m : Machine) (n : Nat) (known : List (Value × Constant)) (a : Activation) : Prop :=
  ∀ e ∈ known, e.1.Avoids n ∧ a.value m e.1 = .ok e.2

theorem Knows.mono (h : a.Knows m n known) (hn : n ≤ k) (agrees : a.Agrees n a') : a'.Knows m k known := by
  intro e he
  obtain ⟨havoids, hvalue⟩ := h e he
  exact ⟨Value.Avoids.mono hn havoids, (agrees.value rfl havoids).symm.trans hvalue⟩

theorem Knows.append (h : a.Knows m n known) (h' : a.Knows m n more) : a.Knows m n (more ++ known) := fun e he =>
  (List.mem_append.mp he).elim (h' e) (h e)

theorem Agrees.refl (n : Nat) (a : Activation) : a.Agrees n a := ⟨rfl, rfl, rfl, fun _ _ => rfl⟩

theorem Agrees.trans (h : a.Agrees n a') (h' : a'.Agrees n b) : a.Agrees n b :=
  ⟨h.arguments.trans h'.arguments, h.stackPointer.trans h'.stackPointer, h.receiver.trans h'.receiver,
    fun x hx => (h.scalars x hx).trans (h'.scalars x hx)⟩

theorem Agrees.mono (h : a.Agrees k a') (hn : n ≤ k) : a.Agrees n a' :=
  ⟨h.arguments, h.stackPointer, h.receiver, fun x hx => h.scalars x fun hupcoming => hx (hupcoming.mono hn)⟩

end Activation

namespace Drafting

open Activation

variable {m : Machine} {known : List (Value × Constant)} {temps temps' : Nat} {x : Drafting Value} {r r' : Constant}
  {v w : Value}

/-- The code of a draft gets every call that knows some values to where the answer of the draft stands for a constant,
and changes nothing but temporaries that it takes from the graph. -/
def Evaluates (m : Machine) (known : List (Value × Constant)) (temps : Nat) (x : Drafting Value) (r : Constant) : Prop :=
  ∀ (c : FlowGraph) (before : List Operation) (a : Activation), c.nextTemp + temps < Word.modulus →
    a.Knows m c.nextTemp known → ∃ v code next a', (x.run before).run c = .ok ((v, before ++ code), c.withTemps next) ∧
      c.nextTemp ≤ next ∧ next ≤ c.nextTemp + temps ∧ Computes m a code a' ∧ a.Agrees c.nextTemp a' ∧
        a'.Knows m next [(v, r)]

inductive Denotes (known : List (Value × Constant)) : Value → Constant → Prop
  | known {v : Value} {r : Constant} (h : (v, r) ∈ known) : Denotes known v r
  | constant (r : Constant) : Denotes known (.constant r) r

theorem Denotes.value {n : Nat} {a : Activation} (h : Denotes known v r) (ha : a.Knows m n known) : a.value m v = .ok r := by
  cases h with
  | known h => exact (ha _ h).2
  | constant => rfl

theorem Denotes.cons (h : Denotes known v r) (e : Value × Constant) : Denotes (e :: known) v r := by
  cases h with
  | known h => exact .known (List.mem_cons_of_mem _ h)
  | constant => exact .constant r

namespace Evaluates

theorem answer (h : Denotes known v r) : Evaluates m known 0 (pure v) r := by
  intro c before a _ ha
  refine ⟨v, [], c.nextTemp, a, ?_, Nat.le_refl _, Nat.le_refl _, .done a, .refl _ a, fun e he => ?_⟩
  · rw [List.append_nil]
    rfl
  · cases List.mem_singleton.mp he
    cases h with
    | known h => exact ha _ h
    | constant =>
      refine ⟨fun x hx => ?_, rfl⟩
      cases hx

theorem compute {ty : Ty} {operation : Variable → Operation}
    (h : ∀ (a : Activation) n dst, a.Knows m n known → a.computed? m (operation dst) = some (dst, .ok r)) :
    Evaluates m known 1 (compute ty operation) r := by
  intro c before a htemps ha
  have hsuccessor : Failure.successor (m := Outcome) c.nextTemp = .ok (c.nextTemp + 1) := if_pos htemps
  have hupcoming : (Variable.temporary c.nextTemp ty).IsUpcoming c.nextTemp :=
    Variable.isUpcoming_temporary.mpr (Nat.le_refl _)
  refine ⟨.variable (.temporary c.nextTemp ty), [operation (.temporary c.nextTemp ty)], c.nextTemp + 1,
    a.assign (.temporary c.nextTemp ty) r, ?_, Nat.le_succ _, Nat.le_refl _, .next (h a _ _ ha) (.done _),
    (Agrees.refl _ a).assign_right hupcoming r, fun e he => ?_⟩
  · have htemp : c.temp ty = .ok (.temporary c.nextTemp ty, c.withTemps (c.nextTemp + 1)) := by
      unfold FlowGraph.temp
      rw [hsuccessor]
      rfl
    refine bind_ok.mpr ⟨_, before, _, ?_, rfl⟩
    rw [StateT.run_lift, Edit.bind_ok]
    exact ⟨_, _, Edit.eval_ok.mpr htemp, rfl⟩
  · cases List.mem_singleton.mp he
    exact ⟨Value.avoids_temporary ty (Nat.lt_succ_self _), value_assign_self rfl m a r⟩

theorem bind {f : Value → Drafting Value} (hx : Evaluates m known temps x r)
    (hf : ∀ v, Evaluates m ((v, r) :: known) temps' (f v) r') : Evaluates m known (temps + temps') (x >>= f) r' := by
  intro c before a htemps ha
  obtain ⟨v, code, next, a₁, hrun, hlow, hhigh, hcode, hagrees, hv⟩ := hx c before a (by omega) ha
  obtain ⟨v', code', next', a₂, hrun', hlow', hhigh', hcode', hagrees', hv'⟩ :=
    hf v (c.withTemps next) (before ++ code) a₁ (Nat.lt_of_le_of_lt (Nat.add_le_add_right hhigh _) (by omega))
      ((ha.mono hlow hagrees).append hv)
  refine ⟨v', code ++ code', next', a₂, ?_, Nat.le_trans hlow hlow', ?_, hcode.append hcode',
    hagrees.trans (hagrees'.mono hlow), hv'⟩
  · rw [← List.append_assoc]
    exact bind_ok.mpr ⟨v, _, _, hrun, hrun'⟩
  · exact Nat.le_trans hhigh' (Nat.le_trans (Nat.add_le_add_right hhigh _) (Nat.le_of_eq (Nat.add_assoc ..)))

theorem mono (h : Evaluates m known temps x r) (htemps : temps ≤ temps') : Evaluates m known temps' x r := by
  intro c before a hbound ha
  obtain ⟨v, code, next, a', hrun, hlow, hhigh, rest⟩ := h c before a (by omega) ha
  exact ⟨v, code, next, a', hrun, hlow, Nat.le_trans hhigh (Nat.add_le_add_left htemps _), rest⟩

theorem binary {ty : Ty} {op : BinaryOperator} {lhs rhs : Constant} (hv : Denotes known v lhs) (hw : Denotes known w rhs)
    (h : Evaluation.binary op lhs rhs = .ok r) : Evaluates m known 1 (Drafting.compute ty (.binary · op v w)) r :=
  Evaluates.compute fun a n dst ha => by
    have hlhs := hv.value ha
    have hrhs := hw.value ha
    simp only [computed?, hlhs, hrhs]
    exact congrArg (fun x => some (dst, x)) h

end Evaluates

end Drafting

namespace RangePlan

/-- A strict predicate leaves the last step to the bound out. -/
def margin (plan : RangePlan) : Int := if plan.predicate = .slt ∨ plan.predicate = .ult then 1 else 0

/-- How many steps the code takes to go a distance. -/
def steps (plan : RangePlan) (bits : Nat) (distance : Int) : Int :=
  if plan.step = 1 then distance
  else if plan.predicate = .slt ∨ plan.predicate = .sle then (distance.bmod (2 ^ bits)).tdiv plan.step
  else distance % 2 ^ bits / plan.step

/-- The value that the code takes for that of the last iteration, among the integers. -/
def reckoned (plan : RangePlan) (bits : Nat) (start bound : Int) : Int :=
  (if plan.predicate = .ne then bound - plan.step
    else start + plan.steps bits (bound - start - plan.margin) * plan.step) + plan.step * plan.overshoot

structure Grows (plan : RangePlan) (bits : Nat) : Prop where
  ty : plan.start.ty = .integer bits
  width : 1 ≤ bits ∧ bits ≤ 64
  positive : 0 < plan.step
  fits : plan.step < 2 ^ (bits - 1)

/-- A distance that signed division takes for a negative number. -/
def Misreads (plan : RangePlan) (bits : Nat) (distance : Int) : Prop :=
  (plan.predicate = .slt ∨ plan.predicate = .sle) ∧ plan.step ≠ 1 ∧ 2 ^ (bits - 1) ≤ distance

variable {plan : RangePlan} {bits : Nat} {distance : Int}

/-- Whole steps that are counted from below zero end where those from zero end, if nothing remains on either side. -/
theorem tdiv_modEq_iff {modulus step : Int} (positive : 0 < step) (fits : 2 * step ≤ modulus) (hhigh : distance < modulus) :
    (distance - modulus).tdiv step * step ≡ distance / step * step [ZMOD modulus] ↔ step ∣ distance ∧ step ∣ modulus := by
  have htdiv : (distance - modulus).tdiv step = -((modulus - distance) / step) := by
    rw [← Int.neg_sub, Int.neg_tdiv, Int.tdiv_eq_ediv_of_nonneg (by omega)]
  have hbelow := Int.mul_ediv_add_emod (modulus - distance) step
  have habove := Int.mul_ediv_add_emod distance step
  have hremains := Int.emod_nonneg (modulus - distance) (show step ≠ 0 by omega)
  have hremains' := Int.emod_nonneg distance (show step ≠ 0 by omega)
  have hless := Int.emod_lt_of_pos (modulus - distance) positive
  have hless' := Int.emod_lt_of_pos distance positive
  have hgap : modulus ∣ distance / step * step - (distance - modulus).tdiv step * step ↔
      modulus ∣ -((modulus - distance) % step + distance % step) := by
    refine Int.dvd_iff_dvd_of_dvd_sub ⟨1, ?_⟩
    rw [htdiv, Int.neg_mul, Int.mul_comm _ step, Int.mul_comm _ step]
    omega
  rw [Int.modEq_iff_dvd, hgap, Int.dvd_neg]
  constructor
  · intro hdvd
    have hzero : (modulus - distance) % step + distance % step = 0 :=
      Int.eq_zero_of_dvd_of_nonneg_of_lt (by omega) (by omega) hdvd
    have hdistance : step ∣ distance := Int.dvd_of_emod_eq_zero (by omega)
    exact ⟨hdistance, (Int.dvd_iff_dvd_of_dvd_sub (Int.dvd_of_emod_eq_zero (by omega))).mpr hdistance⟩
  · rintro ⟨hdistance, hmodulus⟩
    rw [Int.emod_eq_zero_of_dvd hdistance, Int.emod_eq_zero_of_dvd (Int.dvd_sub hmodulus hdistance)]
    exact Int.dvd_zero _

/-- Whole steps are counted right, unless the distance is misread and something remains of it. -/
theorem Grows.steps_modEq_iff (h : plan.Grows bits) (hlow : 0 ≤ distance) (hhigh : distance < 2 ^ bits) :
    plan.steps bits distance * plan.step ≡ distance / plan.step * plan.step [ZMOD 2 ^ bits] ↔
      (plan.Misreads bits distance → plan.step ∣ distance ∧ plan.step ∣ 2 ^ bits) := by
  have hhalf : (2 : Int) * 2 ^ (bits - 1) = 2 ^ bits := mod_cast Reading.double_half h.width.1
  have hpositive := h.positive
  have hfits := h.fits
  have right : plan.steps bits distance = distance / plan.step → ¬ plan.Misreads bits distance →
      (plan.steps bits distance * plan.step ≡ distance / plan.step * plan.step [ZMOD 2 ^ bits] ↔
        (plan.Misreads bits distance → plan.step ∣ distance ∧ plan.step ∣ 2 ^ bits)) := fun heq hreads =>
    ⟨fun _ hmisreads => absurd hmisreads hreads, fun _ => by rw [heq]⟩
  unfold steps at right ⊢
  split at right
  · rename_i hone
    rw [if_pos hone]
    exact right (by rw [hone, Int.ediv_one]) fun hmisreads => hmisreads.2.1 hone
  · rename_i hone
    rw [if_neg hone]
    split at right
    · rename_i hsigned
      rw [if_pos hsigned]
      by_cases hfar : 2 ^ (bits - 1) ≤ distance
      · have hbmod : distance.bmod (2 ^ bits) = distance - 2 ^ bits :=
          (Int.bmod_eq_iff (Nat.two_pow_pos _)).mpr
            ⟨by push_cast; omega, by push_cast; omega, -1, by push_cast; omega⟩
        rw [hbmod, tdiv_modEq_iff hpositive (by omega) hhigh]
        exact ⟨fun hdvd _ => hdvd, fun hdvd => hdvd ⟨hsigned, hone, hfar⟩⟩
      · have hbmod : distance.bmod (2 ^ bits) = distance :=
          Int.bmod_eq_of_le_mul_two (by push_cast; omega) (by push_cast; omega)
        exact right (by rw [hbmod, Int.tdiv_eq_ediv_of_nonneg hlow]) fun hmisreads => hfar hmisreads.2.2
    · rename_i hunsigned
      rw [if_neg hunsigned]
      exact right (by rw [Int.emod_eq_of_lt hlow hhigh]) fun hmisreads => hunsigned hmisreads.1

end RangePlan

namespace GuardCode

open Drafting

variable {m : Machine} {known : List (Value × Constant)} {plan : RangePlan} {bits : Nat} {start bound distance : Int}
  {v w : Value} {ty : Ty}

theorem evaluates_sum {x y : Int} (hv : Denotes known v (.ofInt x bits)) (hw : Denotes known w (.ofInt y bits)) :
    Evaluates m known 1 (Drafting.compute ty (.binary · .add v w)) (.ofInt (x + y) bits) :=
  .binary hv hw ((Constant.binary_add _ _).trans (congrArg Except.ok (Constant.ofInt_eq_ofInt_iff.mpr
    ((Constant.number_ofInt_modEq x bits).add (Constant.number_ofInt_modEq y bits)))))

theorem evaluates_difference {x y : Int} (hv : Denotes known v (.ofInt x bits)) (hw : Denotes known w (.ofInt y bits)) :
    Evaluates m known 1 (Drafting.compute ty (.binary · .sub v w)) (.ofInt (x - y) bits) :=
  .binary hv hw ((Constant.binary_sub _ _).trans (congrArg Except.ok (Constant.ofInt_eq_ofInt_iff.mpr
    ((Constant.number_ofInt_modEq x bits).sub (Constant.number_ofInt_modEq y bits)))))

theorem evaluates_product {x y : Int} (hv : Denotes known v (.ofInt x bits)) (hw : Denotes known w (.ofInt y bits)) :
    Evaluates m known 1 (Drafting.compute ty (.binary · .mul v w)) (.ofInt (x * y) bits) :=
  .binary hv hw ((Constant.binary_mul _ _).trans (congrArg Except.ok (Constant.ofInt_eq_ofInt_iff.mpr
    ((Constant.number_ofInt_modEq x bits).mul (Constant.number_ofInt_modEq y bits)))))

theorem evaluates_span (hstart : Denotes known plan.start (.ofInt start bits))
    (hbound : Denotes known plan.bound (.ofInt bound bits)) :
    Evaluates m known 2 (span plan ty bits) (.ofInt (bound - start - plan.margin) bits) := by
  change Evaluates m known (1 + 1) _ _
  refine (evaluates_difference hbound hstart).bind fun distance => ?_
  unfold RangePlan.margin
  split
  · exact evaluates_difference (.known List.mem_cons_self) (.constant _)
  · rw [Int.sub_zero]
    exact (Evaluates.answer (.known List.mem_cons_self)).mono (Nat.zero_le _)

theorem evaluates_wholeSteps (grows : plan.Grows bits) (hv : Denotes known v (.ofInt distance bits)) :
    Evaluates m known 2 (wholeSteps plan ty (.ofWord (.ofInt plan.step) bits) v)
      (.ofInt (plan.steps bits distance * plan.step) bits) := by
  obtain ⟨-, width, positive, fits⟩ := grows
  have hstep : Denotes known (.ofWord (.ofInt plan.step) bits) (.ofInt plan.step bits) := .constant _
  have hhalf : (2 : Int) * 2 ^ (bits - 1) = 2 ^ bits := mod_cast Reading.double_half width.1
  have hmodulus := Constant.modulus_of_le width.2
  have hsigned : (Constant.ofInt plan.step bits).signed = plan.step :=
    Reading.of_ofInt (ρ := .signed) width ⟨by omega, fits⟩
  have hnumber : (Constant.ofInt plan.step bits).number = plan.step :=
    Reading.of_ofInt (ρ := .unsigned) width ⟨by omega, by omega⟩
  unfold wholeSteps RangePlan.steps
  by_cases hone : plan.step = 1
  · rw [if_pos hone, if_pos hone, hone, Int.mul_one]
    exact (Evaluates.answer hv).mono (Nat.zero_le _)
  · rw [if_neg hone, if_neg hone]
    change Evaluates m known (1 + 1) _ _
    by_cases hcase : plan.predicate = .slt ∨ plan.predicate = .sle
    · simp only [if_pos hcase]
      refine (Evaluates.binary hv hstep (Constant.binary_sdiv ?_ ?_)).bind fun steps => ?_
      · rw [hnumber]
        omega
      · rw [hsigned]
        omega
      · rw [hsigned, Constant.signed_ofInt, hmodulus]
        exact evaluates_product (.known List.mem_cons_self) (.constant _)
    · simp only [if_neg hcase]
      refine (Evaluates.binary hv hstep (Constant.binary_udiv ?_)).bind fun steps => ?_
      · rw [hnumber]
        omega
      · rw [hnumber, Constant.number_ofInt, hmodulus]
        push_cast
        exact evaluates_product (.known List.mem_cons_self) (.constant _)

theorem evaluates_lastIteration (grows : plan.Grows bits) (hstart : Denotes known plan.start (.ofInt start bits))
    (hbound : Denotes known plan.bound (.ofInt bound bits)) :
    Evaluates m known 6 (lastIteration plan) (.ofInt (plan.reckoned bits start bound) bits) := by
  have hbits : plan.start.ty.bits.getD 64 = bits := by
    rw [grows.ty]
    rfl
  have past : ∀ {known last z}, Denotes known last (.ofInt z bits) →
      Evaluates m known 1 (if plan.overshoot = 0 then pure last else
        Drafting.compute plan.start.ty (.binary · .add last (.ofWord (.ofInt (plan.step * plan.overshoot)) bits)))
        (.ofInt (z + plan.step * plan.overshoot) bits) := by
    intro known last z hlast
    split
    · rename_i hzero
      rw [hzero, Nat.cast_zero, Int.mul_zero, Int.add_zero]
      exact (Evaluates.answer hlast).mono (Nat.zero_le _)
    · exact evaluates_sum hlast (.constant _)
  unfold lastIteration RangePlan.reckoned
  simp only [hbits]
  by_cases hne : plan.predicate = .ne
  · simp only [if_pos hne]
    suffices h : Evaluates m known (1 + 1) _ _ from h.mono (by decide)
    exact (evaluates_difference hbound (.constant _)).bind fun last => past (.known List.mem_cons_self)
  · simp only [if_neg hne]
    change Evaluates m known (2 + (2 + (1 + 1))) _ _
    refine (evaluates_span hstart hbound).bind fun distance => ?_
    refine (evaluates_wholeSteps grows (.known List.mem_cons_self)).bind fun travel => ?_
    refine (evaluates_sum ((hstart.cons _).cons _) (.known List.mem_cons_self)).bind fun last => ?_
    exact past (.known List.mem_cons_self)

def chosenLast (plan : RangePlan) (enters : Option Value) : Drafting Value := do
  let counted ← lastIteration plan
  match enters with
  | some test => Drafting.compute plan.start.ty (.select · test counted plan.start)
  | none => pure counted

theorem guardRange_eq (h : Hooks) (plan : RangePlan) (access : Access) (enters : Option Value) :
    guardRange h plan access enters = (do
      let first ← rebuildPointer plan plan.start
      let value ← chosenLast plan enters
      let last ← rebuildPointer plan value
      guardPointer h first access
      guardPointer h last access) := by
  unfold guardRange chosenLast
  refine congrArg _ (funext fun first => ?_)
  rw [bind_assoc]
  refine congrArg _ (funext fun counted => ?_)
  cases enters <;> rfl

/-- The value that the last guard of a range is for, with the test of the first value in front where the loop is not
known to pass it. -/
def lastValue (plan : RangePlan) : Drafting Value :=
  if plan.topTested then chosenLast plan none
  else do
    let enters ← entersLoop plan
    chosenLast plan (some enters)

theorem evaluates_lastValue (grows : plan.Grows bits) (hstart : Denotes known plan.start (.ofInt start bits))
    (hbound : Denotes known plan.bound (.ofInt bound bits)) :
    Evaluates m known 8 (lastValue plan)
      (.ofInt (if plan.topTested ∨ Evaluation.holds plan.predicate (.ofInt start bits) (.ofInt bound bits) then
        plan.reckoned bits start bound else start) bits) := by
  unfold lastValue
  cases htop : plan.topTested with
  | true =>
    rw [if_pos rfl, if_pos (.inl rfl)]
    unfold chosenLast
    suffices h : Evaluates m known (6 + 0) _ _ from h.mono (by decide)
    exact (evaluates_lastIteration grows hstart hbound).bind fun last => .answer (.known List.mem_cons_self)
  | false =>
    rw [if_neg Bool.false_ne_true]
    generalize htest : Evaluation.holds plan.predicate (.ofInt start bits) (.ofInt bound bits) = passes
    change Evaluates m known (1 + (6 + 1)) _ _
    have enters : Evaluates m known 1 (entersLoop plan) (Evaluation.compare plan.predicate (.ofInt start bits) (.ofInt bound bits)) :=
      Evaluates.compute fun a n dst ha => by
        have hlhs := hstart.value ha
        have hrhs := hbound.value ha
        simp only [Activation.computed?, hlhs, hrhs]
        rfl
    refine enters.bind fun test => ?_
    refine (evaluates_lastIteration grows (hstart.cons _) (hbound.cons _)).bind fun last => ?_
    refine Evaluates.compute fun a n dst ha => ?_
    have hlast : a.value m last = _ := (ha _ List.mem_cons_self).2
    have htested : a.value m test = _ := (ha _ (List.mem_cons_of_mem _ List.mem_cons_self)).2
    have hfirst := ((hstart.cons (test, _)).cons (last, _)).value ha
    simp only [Activation.computed?, htested]
    unfold Evaluation.compare
    rw [htest]
    cases passes with
    | true => exact congrArg (fun x => some (dst, x)) hlast
    | false => exact congrArg (fun x => some (dst, x)) hfirst

end GuardCode

/-- A loop that counts up by a constant as long as a test against a bound passes, with an access that nothing but that
test keeps from running. -/
structure CountedLoop where
  bits : Nat
  predicate : Predicate
  start : Constant
  bound : Constant
  step : Int
  /-- Whether the test comes in the header, before the body first runs. -/
  topTested : Bool
  testsPhi : Bool
  inHeader : Bool
  width : 1 ≤ bits ∧ bits ≤ 64
  starts : start.bits = bits ∧ start.IsReduced
  bounded : bound.bits = bits ∧ bound.IsReduced
  grows : 0 < step ∧ step < 2 ^ (bits - 1)
  tests : topTested = true → testsPhi = true

namespace CountedLoop

variable {k : CountedLoop} {ρ : Reading} {plan : RangePlan} {n last : Nat}

def value (k : CountedLoop) (round : Nat) : Constant := .ofInt (k.start.number + round * k.step) k.bits

def passes (k : CountedLoop) (round : Nat) : Bool := Evaluation.holds k.predicate (k.value round) k.bound

/-- Control gets to a round when the test lets it go on from all rounds before. -/
def Begins (k : CountedLoop) (round : Nat) : Prop :=
  ∀ r < round, k.passes (if k.testsPhi then r else r + 1) = true

/-- The access runs in a round that begins, unless it stands behind a test that fails. -/
def Runs (k : CountedLoop) (round : Nat) : Prop :=
  k.Begins round ∧ (k.topTested = true → k.inHeader = false → k.passes round = true)

def IsLast (k : CountedLoop) (round : Nat) : Prop := k.Runs round ∧ ∀ r, k.Runs r → r ≤ round

def integer (k : CountedLoop) (ρ : Reading) (round : Nat) : Int := ρ.of k.start + round * k.step

/-- The integers stay in the range of the width up to one that fails the test where the loop tests it. -/
def Ends (k : CountedLoop) (ρ : Reading) : Prop :=
  ∃ n, (k.testsPhi = true ∨ 0 < n) ∧ k.predicate.test (k.integer ρ n) (ρ.of k.bound) = false ∧
    ∀ j ≤ n, ρ.Spans k.bits (k.integer ρ j)

/-- The first round whose value fails the test, among those whose value is tested. -/
def First (k : CountedLoop) (n : Nat) : Prop :=
  (k.testsPhi = true ∨ 0 < n) ∧ k.passes n = false ∧ ∀ j < n, k.testsPhi = true ∨ 0 < j → k.passes j = true

/-- The access runs once more after the last value that passes the test. -/
def late (k : CountedLoop) : Bool := k.testsPhi && !(k.topTested && !k.inHeader)

theorem value_eq (k : CountedLoop) (ρ : Reading) (n : Nat) : k.value n = .ofInt (k.integer ρ n) k.bits := by
  refine Constant.ofInt_eq_ofInt_iff.mpr (Int.ModEq.add_right _ ?_)
  have hread := (Reading.of_modEq ρ k.start).symm
  rwa [k.starts.1] at hread

theorem value_zero (k : CountedLoop) : k.value 0 = k.start := by
  have hvalue := k.starts.2.ofInt_number
  rw [k.starts.1] at hvalue
  unfold value
  rw [Nat.cast_zero, Int.zero_mul, Int.add_zero, hvalue]

theorem passes_eq (reads : k.predicate.ReadsAs ρ) (h : ρ.Spans k.bits (k.integer ρ n)) :
    k.passes n = k.predicate.test (k.integer ρ n) (ρ.of k.bound) := by
  unfold passes
  rw [k.value_eq ρ, Predicate.holds_eq_test reads k.bounded.1.symm (Constant.isReduced_ofInt ..) k.bounded.2,
    Reading.of_ofInt k.width h]

theorem Ends.exists_first (ends : k.Ends ρ) (reads : k.predicate.ReadsAs ρ) :
    ∃ n, k.First n ∧ ∀ j ≤ n, ρ.Spans k.bits (k.integer ρ j) := by
  obtain ⟨n, htested, hfails, hspans⟩ := ends
  have hexists : ∃ n, (k.testsPhi = true ∨ 0 < n) ∧ k.passes n = false :=
    ⟨n, htested, (passes_eq reads (hspans n (Nat.le_refl n))).trans hfails⟩
  have hle : Nat.find hexists ≤ n :=
    Nat.find_min' hexists ⟨htested, (passes_eq reads (hspans n (Nat.le_refl n))).trans hfails⟩
  refine ⟨Nat.find hexists, ⟨(Nat.find_spec hexists).1, (Nat.find_spec hexists).2, fun j hj hj' => ?_⟩,
    fun j hj => hspans j (Nat.le_trans hj hle)⟩
  exact Bool.eq_true_of_not_eq_false fun hfails => Nat.find_min hexists hj ⟨hj', hfails⟩

/-- The access runs the last time in front of the first test that fails. -/
theorem First.isLast (first : k.First n) (enters : k.topTested = true → k.inHeader = false → k.passes 0 = true) :
    k.IsLast (if k.late then n else n - 1) := by
  obtain ⟨htested, hfails, hpasses⟩ := first
  unfold late
  cases hphi : k.testsPhi with
  | true =>
    have begins : ∀ r, k.Begins r ↔ r ≤ n := by
      intro r
      unfold Begins
      rw [hphi]
      constructor
      · intro h
        by_contra hlt
        exact Bool.false_ne_true (hfails.symm.trans (h n (by omega)))
      · exact fun hr j hj => hpasses j (by omega) (.inl hphi)
    cases hbehind : k.topTested && !k.inHeader with
    | true =>
      have htop : k.topTested = true ∧ k.inHeader = false := by simpa using hbehind
      have hpositive : n ≠ 0 := fun hzero => Bool.false_ne_true ((hzero ▸ hfails).symm.trans (enters htop.1 htop.2))
      have runs : ∀ r, k.Runs r ↔ r < n := by
        intro r
        unfold Runs
        rw [begins]
        constructor
        · rintro ⟨hr, hpass⟩
          refine lt_of_le_of_ne hr fun heq => ?_
          exact Bool.false_ne_true ((heq ▸ hfails).symm.trans (hpass htop.1 htop.2))
        · exact fun hr => ⟨Nat.le_of_lt hr, fun _ _ => hpasses r hr (.inl hphi)⟩
      exact ⟨(runs _).mpr (by simp; omega), fun r hr => by have := (runs r).mp hr; simp; omega⟩
    | false =>
      have runs : ∀ r, k.Runs r ↔ r ≤ n := by
        intro r
        unfold Runs
        rw [begins, and_iff_left]
        intro htop hheader
        rw [htop, hheader] at hbehind
        cases hbehind
      exact ⟨(runs _).mpr (Nat.le_refl _), fun r hr => (runs r).mp hr⟩
  | false =>
    have hpositive : 0 < n := htested.resolve_left (by rw [hphi]; exact Bool.false_ne_true)
    have runs : ∀ r, k.Runs r ↔ r < n := by
      intro r
      unfold Runs Begins
      rw [hphi]
      constructor
      · rintro ⟨h, -⟩
        by_contra hle
        have hpass := h (n - 1) (by omega)
        simp only [Bool.false_eq_true, if_false, Nat.sub_add_cancel hpositive] at hpass
        exact Bool.false_ne_true (hfails.symm.trans hpass)
      · intro hr
        refine ⟨fun j hj => hpasses (j + 1) (by omega) (.inr (Nat.succ_pos j)), fun htop => ?_⟩
        exact absurd ((k.tests htop).symm.trans hphi) Bool.true_eq_false_eq_False
    exact ⟨(runs _).mpr (by simp; omega), fun r hr => by have := (runs r).mp hr; simp; omega⟩

structure Plans (k : CountedLoop) (plan : RangePlan) : Prop where
  ty : plan.start.ty = .integer k.bits
  predicate : plan.predicate = k.predicate
  bounds : k.predicate.boundsFromAbove = true
  step : plan.step = k.step
  overshoot : plan.overshoot = if k.late then 1 else 0
  topTested : plan.topTested = (k.topTested && !k.inHeader)

/-- A counted loop as the analysis of its bound knows it, and what is planned for an access to an indexed pointer. -/
structure Hoists (k : CountedLoop) (iv : InductionVariable) (b : LoopBound) (x : IndexedPointer) (plan : RangePlan) :
    Prop where
  ty : iv.start.ty = .integer k.bits
  predicate : b.predicate = k.predicate
  topTested : b.topTested = k.topTested
  overshoot : LoopBound.overshoot? k.topTested k.testsPhi = some b.overshoot
  plans : x.plan? iv k.step b k.inHeader = some plan

theorem Hoists.toPlans {iv : InductionVariable} {b : LoopBound} {x : IndexedPointer} (h : k.Hoists iv b x plan) :
    k.Plans plan ∧ plan.start = iv.start ∧ plan.bound = b.bound := by
  obtain ⟨ty, predicate, top, overshoot, plans⟩ := h
  unfold IndexedPointer.plan? at plans
  split at plans
  · rename_i hbounds
    cases plans
    refine ⟨⟨ty, predicate, predicate ▸ hbounds, rfl, ?_, congrArg (· && !k.inHeader) top⟩, rfl, rfl⟩
    change (if (b.topTested && k.inHeader) = true then b.overshoot + 1 else b.overshoot) = if k.late then 1 else 0
    rw [top]
    unfold late
    generalize k.topTested = top, k.testsPhi = phi, k.inHeader = header, b.overshoot = o at overshoot
    cases top <;> cases phi <;> cases header <;> cases overshoot <;> rfl
  · cases plans

/-- The way from the start to the last value that may pass the test. -/
def distance (k : CountedLoop) (ρ : Reading) (plan : RangePlan) : Int := ρ.of k.bound - ρ.of k.start - plan.margin

theorem Plans.grows (h : k.Plans plan) : plan.Grows k.bits :=
  ⟨h.ty, k.width, h.step ▸ k.grows.1, h.step ▸ k.grows.2⟩

/-- A test that is no inequality alone compares with the bound, or with what stands one before it. -/
theorem Plans.test_eq (h : k.Plans plan) (hne : plan.predicate ≠ .ne) (x y : Int) :
    k.predicate.test x y = decide (x ≤ y - plan.margin) := by
  have hbounds := h.bounds
  rw [h.predicate] at hne
  unfold RangePlan.margin
  rw [h.predicate]
  generalize k.predicate = p at hne hbounds
  cases p with
  | slt | ult => exact decide_eq_decide.2 Int.le_sub_one_iff.symm
  | sle | ule => simp [Predicate.test]
  | ne => exact absurd rfl hne
  | _ => cases hbounds

theorem Plans.distance_lt (spans : ρ.Spans k.bits (ρ.of k.start)) : k.distance ρ plan < 2 ^ k.bits := by
  have hbound := Reading.spans_of (ρ := ρ) (k.bounded.1.symm ▸ k.width) k.bounded.2
  rw [k.bounded.1] at hbound
  have hhalf : (2 : Int) * 2 ^ (k.bits - 1) = 2 ^ k.bits := mod_cast Reading.double_half k.width.1
  have hmargin : 0 ≤ plan.margin := by
    unfold RangePlan.margin
    split <;> decide
  unfold distance
  cases ρ with
  | unsigned =>
    obtain ⟨hlow, -⟩ := spans
    obtain ⟨-, hhigh⟩ := hbound
    omega
  | signed =>
    obtain ⟨hlow, -⟩ := spans
    obtain ⟨-, hhigh⟩ := hbound
    omega

/-- What the code reckons is the value of the round in front of the first that fails, or of that one where the access
still runs then, unless the distance is misread. -/
theorem Plans.reckoned_modEq_iff (h : k.Plans plan) (reads : k.predicate.ReadsAs ρ) (first : k.First n)
    (spans : ∀ j ≤ n, ρ.Spans k.bits (k.integer ρ j)) (enters : k.passes 0 = true) :
    plan.reckoned k.bits (ρ.of k.start) (ρ.of k.bound) ≡ k.integer ρ (if k.late then n else n - 1)
      [ZMOD Constant.modulus k.bits] ↔
      (plan.Misreads k.bits (k.distance ρ plan) → k.step ∣ k.distance ρ plan ∧ k.step ∣ 2 ^ k.bits) := by
  obtain ⟨-, hfails, hpasses⟩ := first
  have hpositive : n ≠ 0 := fun hzero => Bool.false_ne_true ((hzero ▸ hfails).symm.trans enters)
  have hlast : k.passes (n - 1) = true := by
    by_cases hone : n - 1 = 0
    · rw [hone]
      exact enters
    · exact hpasses _ (by omega) (.inr (by omega))
  rw [passes_eq reads (spans n (Nat.le_refl n))] at hfails
  rw [passes_eq reads (spans (n - 1) (Nat.sub_le n 1))] at hlast
  have hbefore : k.integer ρ (n - 1) = ρ.of k.start + ((n : Int) - 1) * k.step := by
    unfold integer
    rw [Int.natCast_sub (Nat.one_le_iff_ne_zero.mpr hpositive), Nat.cast_one]
  have hafter : k.integer ρ n = ρ.of k.start + ((n : Int) - 1) * k.step + k.step := by
    unfold integer
    rw [Int.sub_mul, Int.one_mul]
    omega
  have hround : k.integer ρ (if k.late then n else n - 1) =
      ρ.of k.start + ((n : Int) - 1) * k.step + k.step * plan.overshoot := by
    rw [h.overshoot]
    cases k.late
    · rw [if_neg Bool.false_ne_true, if_neg Bool.false_ne_true, hbefore, Nat.cast_zero, Int.mul_zero, Int.add_zero]
    · rw [if_pos rfl, if_pos rfl, hafter, Nat.cast_one, Int.mul_one]
  rw [hround, Constant.modulus_of_le k.width.2]
  unfold RangePlan.reckoned
  rw [h.step]
  by_cases hne : plan.predicate = .ne
  · -- The values that are not the bound end where it comes.
    have hends : k.integer ρ n = ρ.of k.bound := by
      rw [← h.predicate, hne] at hfails
      simpa [Predicate.test] using hfails
    have hreads : ¬ plan.Misreads k.bits (k.distance ρ plan) := fun hmisreads => by
      rw [RangePlan.Misreads, hne] at hmisreads
      simp at hmisreads
    rw [if_pos hne, show ρ.of k.bound - k.step = ρ.of k.start + ((n : Int) - 1) * k.step by omega]
    exact ⟨fun _ hmisreads => absurd hmisreads hreads, fun _ => .refl _⟩
  · rw [h.test_eq hne, decide_eq_false_iff_not, hafter] at hfails
    rw [h.test_eq hne, decide_eq_true_iff, hbefore] at hlast
    have hzero := spans 0 (Nat.zero_le n)
    rw [integer, Nat.cast_zero, Int.zero_mul, Int.add_zero] at hzero
    have hdistance : k.distance ρ plan = ρ.of k.bound - ρ.of k.start - plan.margin := rfl
    have hsteps : k.distance ρ plan / k.step = (n : Int) - 1 := by
      refine Int.le_antisymm ?_ ((Int.le_ediv_iff_mul_le k.grows.1).mpr (by omega))
      refine Int.le_of_lt_add_one ((Int.ediv_lt_iff_lt_mul k.grows.1).mpr ?_)
      rw [Int.add_mul, Int.one_mul]
      omega
    have hpositive : 0 ≤ ((n : Int) - 1) * k.step := Int.mul_nonneg (by omega) (Int.le_of_lt k.grows.1)
    have hlow : 0 ≤ k.distance ρ plan := by omega
    have hcounted := h.grows.steps_modEq_iff hlow (Plans.distance_lt hzero)
    rw [h.step, hsteps] at hcounted
    rw [if_neg hne, ← hdistance, ← hcounted, Int.modEq_iff_dvd, Int.modEq_iff_dvd]
    refine iff_of_eq (congrArg _ ?_)
    omega

/-- Where the start fails the test and the loop runs all the same, the access runs once. -/
theorem Plans.first_of_fails (h : k.Plans plan) (reads : k.predicate.ReadsAs ρ) (first : k.First n)
    (spans : ∀ j ≤ n, ρ.Spans k.bits (k.integer ρ j)) (behind : plan.topTested = false) (fails : k.passes 0 = false) :
    (if k.late then n else n - 1) = 0 := by
  obtain ⟨htested, hfails, hpasses⟩ := first
  cases hphi : k.testsPhi with
  | true =>
    have hlate : k.late = true := by
      unfold late
      rw [hphi, ← h.topTested, behind]
      rfl
    rw [hlate, if_pos rfl]
    by_contra hn
    exact Bool.false_ne_true (fails.symm.trans (hpasses 0 (Nat.pos_of_ne_zero hn) (.inl hphi)))
  | false =>
    have hlate : k.late = false := by
      unfold late
      rw [hphi, Bool.false_and]
    have hpositive : 0 < n := htested.resolve_left (by rw [hphi]; exact Bool.false_ne_true)
    rw [hlate, if_neg Bool.false_ne_true]
    by_contra hn
    -- The next value would pass the test, although it is greater than the start.
    have hone := hpasses 1 (by omega) (.inr (by decide))
    rw [passes_eq reads (spans 0 (Nat.zero_le n))] at fails
    rw [passes_eq reads (spans 1 (by omega))] at hone
    rw [passes_eq reads (spans n (Nat.le_refl n))] at hfails
    have hgrows := k.grows.1
    unfold integer at fails hone hfails
    rw [Nat.cast_zero, Int.zero_mul, Int.add_zero] at fails
    rw [Nat.cast_one, Int.one_mul] at hone
    by_cases hne : plan.predicate = .ne
    · rw [← h.predicate, hne] at fails hfails
      have hstart : ρ.of k.start = ρ.of k.bound := by simpa [Predicate.test] using fails
      have hend : ρ.of k.start + (n : Int) * k.step = ρ.of k.bound := by simpa [Predicate.test] using hfails
      have htravel : 0 < (n : Int) * k.step := Int.mul_pos (by omega) hgrows
      omega
    · rw [h.test_eq hne, decide_eq_false_iff_not] at fails
      rw [h.test_eq hne, decide_eq_true_iff] at hone
      omega

/-- The code in front of a counted loop computes the value that the induction variable has the last time the access
runs, for as long as the integers that it counts through stay in range: unless the test is signed, the step is not
one, and the way to the bound is half the range or more and divided with a remainder from one side or the other. -/
theorem last_value_exact {iv : InductionVariable} {b : LoopBound} {x : IndexedPointer} {m : Machine} {a : Activation}
    {c : FlowGraph} (hoists : k.Hoists iv b x plan) (reads : k.predicate.ReadsAs ρ) (ends : k.Ends ρ)
    (enters : plan.topTested = true → k.passes 0 = true)
    (known : a.Knows m c.nextTemp [(iv.start, k.start), (b.bound, k.bound)])
    (temps : c.nextTemp + 8 < Word.modulus) :
    ∃ last, k.IsLast last ∧ ∃ v code c' a' r, (GuardCode.lastValue plan).collect.run c = .ok ((v, code), c') ∧
      a.Computes m code a' ∧ a'.value m v = .ok r ∧ (r = k.value last ↔
        (k.passes 0 = true → plan.Misreads k.bits (k.distance ρ plan) →
          k.step ∣ k.distance ρ plan ∧ k.step ∣ 2 ^ k.bits)) := by
  obtain ⟨plans, hstart, hbound⟩ := hoists.toPlans
  obtain ⟨n, first, spans⟩ := ends.exists_first reads
  have entersHere : k.topTested = true → k.inHeader = false → k.passes 0 = true := fun htop hheader =>
    enters (by rw [plans.topTested, htop, hheader]; rfl)
  refine ⟨_, first.isLast entersHere, ?_⟩
  have hstarts : Constant.ofInt (ρ.of k.start) k.bits = k.start := k.starts.1 ▸ Reading.ofInt_of k.starts.2
  have hbounded : Constant.ofInt (ρ.of k.bound) k.bits = k.bound := k.bounded.1 ▸ Reading.ofInt_of k.bounded.2
  rw [← hstarts, ← hbounded, ← hstart, ← hbound] at known
  obtain ⟨v, code, next, a', hrun, -, -, hcode, -, hvalue⟩ := GuardCode.evaluates_lastValue (m := m) plans.grows
    (.known List.mem_cons_self) (.known (List.mem_cons_of_mem _ List.mem_cons_self)) c [] a temps known
  have hpasses : Evaluation.holds plan.predicate (.ofInt (ρ.of k.start) k.bits) (.ofInt (ρ.of k.bound) k.bits) =
      k.passes 0 := by
    unfold passes
    rw [hstarts, hbounded, plans.predicate, k.value_zero]
  refine ⟨v, code, _, a', _, hrun, hcode, (hvalue _ List.mem_cons_self).2, ?_⟩
  rw [hpasses, k.value_eq ρ, Constant.ofInt_eq_ofInt_iff]
  cases hfirst : k.passes 0 with
  | true =>
    rw [if_pos (.inr rfl), plans.reckoned_modEq_iff reads first spans hfirst]
    exact ⟨fun h _ => h, fun h => h rfl⟩
  | false =>
    have hbehind : plan.topTested = false := by
      cases htop : plan.topTested with
      | false => rfl
      | true => exact absurd ((enters htop).symm.trans hfirst) Bool.true_eq_false_eq_False
    rw [hbehind, if_neg (by simp), plans.first_of_fails reads first spans hbehind hfirst]
    refine iff_of_true ?_ fun h => absurd h Bool.false_ne_true
    unfold integer
    rw [Nat.cast_zero, Int.zero_mul, Int.add_zero]

def ofBytes (start bound step : Int) (grows : 0 < step ∧ step < 2 ^ 7) : CountedLoop where
  bits := 8
  predicate := .slt
  start := .ofInt start 8
  bound := .ofInt bound 8
  step := step
  topTested := false
  testsPhi := false
  inHeader := false
  width := by decide
  starts := ⟨rfl, Constant.isReduced_ofInt ..⟩
  bounded := ⟨rfl, Constant.isReduced_ofInt ..⟩
  grows := grows
  tests := fun h => h

def byteVariable (start step : Int) : InductionVariable :=
  ⟨⟨"i", .integer 8⟩, 1, .constant (.ofInt start 8), .constant (.ofInt step 8), ⟨"next", .integer 8⟩⟩

def byteBound (bound : Int) : LoopBound := ⟨.slt, .constant (.ofInt bound 8), 0, false⟩

def byteIndex : IndexedPointer := ⟨.integer 8, .null, [.variable ⟨"i", .integer 8⟩], 0, none, ⟨"i", .integer 8⟩⟩

def bytePlan (start bound step : Int) : RangePlan :=
  ⟨.integer 8, .null, [.variable ⟨"i", .integer 8⟩], 0, none, .constant (.ofInt start 8), step, .slt,
    .constant (.ofInt bound 8), 0, false⟩

theorem hoists_ofBytes (start bound step : Int) (grows : 0 < step ∧ step < 2 ^ 7) :
    (ofBytes start bound step grows).Hoists (byteVariable start step) (byteBound bound) byteIndex
      (bytePlan start bound step) :=
  ⟨rfl, rfl, rfl, rfl, rfl⟩

def bareMachine : Machine := ⟨.empty, .make (.empty "carat" .keyed) (.make Machine.heapBase Machine.heapSize)⟩

def bareCall : Activation := ⟨.empty, 0, [], ∅, [], 0, .runner⟩

theorem knows_bytes (start bound step : Int) : bareCall.Knows bareMachine 0
    [((byteVariable start step).start, .ofInt start 8), ((byteBound bound).bound, .ofInt bound 8)] := by
  intro e he
  rcases List.mem_pair.mp he with rfl | rfl <;> refine ⟨fun x hx => ?_, rfl⟩ <;> cases hx

theorem last_value_exact_sevens :
    ∃ k plan, k = ofBytes 0 100 7 (by decide) ∧ k.Hoists (byteVariable 0 7) (byteBound 100) byteIndex plan ∧
      k.Ends .signed ∧ ∃ last, k.IsLast last ∧ ∃ v code c' a' r,
        (GuardCode.lastValue plan).collect.run .empty = .ok ((v, code), c') ∧ bareCall.Computes bareMachine code a' ∧
          a'.value bareMachine v = .ok r ∧ r = k.value last := by
  have ends : (ofBytes 0 100 7 (by decide)).Ends .signed := by
    refine ⟨15, .inr (by decide), by decide, fun j hj => ?_⟩
    change -2 ^ 7 ≤ (0 : Int) + j * 7 ∧ (0 : Int) + j * 7 < 2 ^ 7
    omega
  obtain ⟨last, hlast, v, code, c', a', r, hrun, hcode, hvalue, hexact⟩ :=
    last_value_exact (m := bareMachine) (a := bareCall) (c := .empty) (hoists_ofBytes 0 100 7 (by decide)) rfl ends
      (fun h => absurd h (by decide)) (knows_bytes 0 100 7) (by decide)
  refine ⟨_, _, rfl, hoists_ofBytes 0 100 7 (by decide), ends, last, hlast, v, code, c', a', r, hrun, hcode, hvalue,
    hexact.mpr fun _ hmisreads => ?_⟩
  exact absurd hmisreads.2.2 (by decide)

/-- From -100 on in twos, below 100, the last value is 98. The way of 199 is read as -57, and the code computes the
bound instead. -/
theorem last_value_misread :
    ∃ k plan, k = ofBytes (-100) 100 2 (by decide) ∧ k.Hoists (byteVariable (-100) 2) (byteBound 100) byteIndex plan ∧
      k.Ends .signed ∧ k.passes 0 = true ∧ k.IsLast 99 ∧ k.value 99 = .ofInt 98 8 ∧ ∃ v code c' a',
        (GuardCode.lastValue plan).collect.run .empty = .ok ((v, code), c') ∧ bareCall.Computes bareMachine code a' ∧
          a'.value bareMachine v = .ok (.ofInt 100 8) ∧ Constant.ofInt 100 8 ≠ k.value 99 := by
  have hoists := hoists_ofBytes (-100) 100 2 (by decide)
  have ends : (ofBytes (-100) 100 2 (by decide)).Ends .signed := by
    refine ⟨100, .inr (by decide), by decide, fun j hj => ?_⟩
    change -2 ^ 7 ≤ (-100 : Int) + j * 2 ∧ (-100 : Int) + j * 2 < 2 ^ 7
    omega
  have first : (ofBytes (-100) 100 2 (by decide)).First 100 := by
    refine ⟨.inr (by decide), by decide, ?_⟩
    decide
  obtain ⟨v, code, next, a', hrun, -, -, hcode, -, hvalue⟩ := GuardCode.evaluates_lastValue (m := bareMachine)
    hoists.toPlans.1.grows (.known List.mem_cons_self) (.known (List.mem_cons_of_mem _ List.mem_cons_self)) .empty []
    bareCall (by decide) (knows_bytes (-100) 100 2)
  refine ⟨_, _, rfl, hoists, ends, by decide, first.isLast fun htop => absurd htop (by decide), by decide, v, code, _, a',
    hrun, hcode, ?_, by decide⟩
  exact (hvalue _ List.mem_cons_self).2

end CountedLoop

end RegionGuard

import RegionGuard.Proofs.TwosComplement
set_option autoImplicit false

/-!
# Constants as bit vectors

A constant of at most 64 bits whose value fits its width is a bit vector. Operators, predicates and conversions of constants
are those of bit vectors, although they are computed on words; only divisions by zero and shifts past the width have no
result.
-/

namespace RegionGuard

open Evaluation

namespace Constant

variable {w v : Nat} {x y : BitVec w} {l r : Constant}

def ofBits (x : BitVec w) : Constant := ⟨.ofNat x.toNat, w⟩

def lowBits (c : Constant) (w : Nat) : BitVec w := .ofNat w c.value.toNat

theorem toNat_ofBits (hw : w ≤ 64) (x : BitVec w) : (ofBits x).value.toNat = x.toNat :=
  UInt64.toNat_ofNat_of_lt (Nat.lt_of_lt_of_le x.isLt (Nat.pow_le_pow_right (by decide) hw))

theorem number_ofBits (hw : w ≤ 64) (x : BitVec w) : (ofBits x).number = x.toNat := by
  rw [number, toNat_ofBits hw]

theorem ofInt_eq_ofBits (hw : w ≤ 64) (z : Int) : ofInt z w = ofBits (.ofInt w z) := by
  refine eq_of_number rfl ?_
  have hpos : (0 : Int) ≤ z % (2 ^ w : Nat) := Int.emod_nonneg _ (by simp)
  rw [number_ofInt, number_ofBits hw, modulus_of_le hw, BitVec.toNat_ofInt, Int.toNat_of_nonneg hpos]

theorem make_eq_ofBits (hw : w ≤ 64) (value : Word) : make value w = ofBits (.ofNat w value.toNat) := by
  refine eq_of_number rfl ?_
  rw [number_make, number_ofBits hw, modulus_of_le hw, BitVec.toNat_ofNat, Int.natCast_mod]

theorem signed_ofBits (hw : w ≤ 64) (x : BitVec w) : (ofBits x).signed = x.toInt := by
  have hsigned := signed_ofInt x.toNat w
  rw [ofInt_eq_ofBits hw, BitVec.ofInt_natCast, BitVec.ofNat_toNat, BitVec.setWidth_eq, modulus_of_le hw] at hsigned
  rw [hsigned, BitVec.toInt_eq_toNat_bmod]

/-- A constant of a width whose value fits it. -/
structure HasWidth (w : Nat) (c : Constant) : Prop where
  bits : c.bits = w
  value : c.value.toNat < 2 ^ w

theorem hasWidth_ofBits (hw : w ≤ 64) (x : BitVec w) : (ofBits x).HasWidth w := by
  constructor
  · rfl
  · rw [toNat_ofBits hw]
    exact x.isLt

theorem HasWidth.toNat_lowBits (h : l.HasWidth w) : (l.lowBits w).toNat = l.value.toNat :=
  (BitVec.toNat_ofNat _ _).trans (Nat.mod_eq_of_lt h.value)

theorem HasWidth.ofBits_lowBits (h : l.HasWidth w) : ofBits (l.lowBits w) = l := by
  have hvalue := h.toNat_lowBits
  obtain ⟨value, bits⟩ := l
  cases h.bits
  unfold ofBits
  rw [hvalue, UInt64.ofNat_toNat]

end Constant

namespace BinaryOperator

variable {w : Nat}

/-- The two's complement result of an operator. -/
def onBits (op : BinaryOperator) (x y : BitVec w) : BitVec w :=
  match op with
  | .add => x + y
  | .sub => x - y
  | .mul => x * y
  | .udiv => x / y
  | .sdiv => x.sdiv y
  | .urem => x % y
  | .shl => x <<< y
  | .lshr => x >>> y
  | .ashr => x.sshiftRight' y
  | .and => x &&& y
  | .or => x ||| y
  | .xor => x ^^^ y

/-- Why an operator has no result for a right operand, if it has none. -/
def refusal? (op : BinaryOperator) (y : BitVec w) : Option ExecutionError :=
  match op with
  | .udiv | .sdiv | .urem => if y = 0 then some .divisionByZero else none
  | .shl | .lshr | .ashr => if w ≤ y.toNat then some (.shiftTooFar w (.ofNat y.toNat)) else none
  | .add | .sub | .mul | .and | .or | .xor => none

end BinaryOperator

namespace CastKind

/-- What a conversion makes of bits: it extends them by their sign or by zeros, or drops the high ones. -/
def onBits {w : Nat} (kind : CastKind) (v : Nat) (x : BitVec w) : BitVec v :=
  match kind with
  | .signExtend => x.signExtend v
  | .bitcast | .ptrToInt | .intToPtr | .zeroExtend | .truncate => x.setWidth v

end CastKind

namespace Predicate

/-- Whether a predicate holds of bits, by their unsigned or by their signed numbers. -/
def onBits {w : Nat} (p : Predicate) (x y : BitVec w) : Bool :=
  match p with
  | .eq => x = y
  | .ne => x ≠ y
  | .ult => x.toNat < y.toNat
  | .ule => x.toNat ≤ y.toNat
  | .ugt => y.toNat < x.toNat
  | .uge => y.toNat ≤ x.toNat
  | .slt => x.toInt < y.toInt
  | .sle => x.toInt ≤ y.toInt
  | .sgt => y.toInt < x.toInt
  | .sge => y.toInt ≤ x.toInt

end Predicate

namespace Constant

variable {w : Nat}

section

variable (hw : w ≤ 64) (x y : BitVec w)

include hw

/-- Sums, differences and products wrap around. -/
theorem binary_wrapping : binary .add (ofBits x) (ofBits y) = .ok (ofBits (x + y)) ∧
    binary .sub (ofBits x) (ofBits y) = .ok (ofBits (x - y)) ∧
    binary .mul (ofBits x) (ofBits y) = .ok (ofBits (x * y)) := by
  have hcast : ∀ z : BitVec w, BitVec.ofInt w z.toNat = z := by
    intro z
    rw [BitVec.ofInt_natCast, BitVec.ofNat_toNat, BitVec.setWidth_eq]
  have hbits : (ofBits x).bits = w := rfl
  rw [binary_add, binary_sub, binary_mul, number_ofBits hw, number_ofBits hw, hbits, ofInt_eq_ofBits hw, ofInt_eq_ofBits hw,
    ofInt_eq_ofBits hw, Int.sub_eq_add_neg, BitVec.ofInt_add, BitVec.ofInt_add, BitVec.ofInt_mul, BitVec.ofInt_neg, hcast,
    hcast, BitVec.sub_eq_add_neg]
  exact ⟨rfl, rfl, rfl⟩

theorem binary_of_word {op : BinaryOperator} {value : Word} {z : BitVec w}
    (hvalue : binaryWord op (ofBits x) (ofBits y) = .ok value) (hz : BitVec.ofNat w value.toNat = z) :
    binary op (ofBits x) (ofBits y) = .ok (ofBits z) := by
  have hmake := make_eq_ofBits hw value
  rw [hz] at hmake
  unfold binary
  rw [hvalue]
  exact congrArg Except.ok hmake

/-- A divisor that is not zero divides. The quotient of the least number and minus one wraps around. -/
theorem binary_division (hy : y ≠ 0) : binary .udiv (ofBits x) (ofBits y) = .ok (ofBits (x / y)) ∧
    binary .sdiv (ofBits x) (ofBits y) = .ok (ofBits (x.sdiv y)) ∧
    binary .urem (ofBits x) (ofBits y) = .ok (ofBits (x % y)) := by
  have hnat : y.toNat ≠ 0 := fun h => hy (BitVec.eq_of_toNat_eq h)
  have hnumber : (ofBits y).number ≠ 0 := by
    rw [number_ofBits hw]
    omega
  have hsigned : (ofBits y).signed ≠ 0 := by
    rw [signed_ofBits hw]
    intro h
    exact hy (BitVec.eq_of_toInt_eq (h.trans BitVec.toInt_zero.symm))
  have hvalue : (ofBits y).value ≠ 0 := by
    intro h
    exact hnumber (by rw [number, h]; rfl)
  refine ⟨?_, ?_, ?_⟩
  · rw [binary_udiv hnumber, number_ofBits hw, number_ofBits hw, ← Int.natCast_ediv]
    exact congrArg Except.ok ((ofInt_eq_ofBits hw _).trans (by rw [BitVec.ofInt_natCast, BitVec.udiv_def]))
  · rw [binary_sdiv hnumber hsigned, signed_ofBits hw, signed_ofBits hw]
    refine congrArg Except.ok ((ofInt_eq_ofBits hw _).trans (congrArg ofBits ?_))
    apply BitVec.eq_of_toInt_eq
    rw [BitVec.toInt_ofInt, BitVec.toInt_sdiv]
  · apply binary_of_word hw x y
    · simp only [binaryWord, checkDivisor, hvalue]
      rfl
    · rw [UInt64.toNat_mod, toNat_ofBits hw, toNat_ofBits hw, BitVec.umod_def]

theorem binary_shift (hy : y.toNat < w) : binary .shl (ofBits x) (ofBits y) = .ok (ofBits (x <<< y)) ∧
    binary .lshr (ofBits x) (ofBits y) = .ok (ofBits (x >>> y)) ∧
    binary .ashr (ofBits x) (ofBits y) = .ok (ofBits (x.sshiftRight' y)) := by
  have hamount : (ofBits y).value.toNat = y.toNat := toNat_ofBits hw y
  have hword : y.toNat % 64 = y.toNat := Nat.mod_eq_of_lt (by omega)
  have hcheck : checkShift (ofBits x).bits (ofBits y).value = .ok () := if_neg (by rw [hamount]; exact Nat.not_le.mpr hy)
  refine ⟨?_, ?_, ?_⟩
  · apply binary_of_word hw x y
    · simp only [binaryWord, hcheck]
      rfl
    · apply BitVec.eq_of_toNat_eq
      rw [UInt64.toNat_shiftLeft, hamount, hword, toNat_ofBits hw, BitVec.toNat_ofNat, BitVec.shiftLeft_eq',
        BitVec.toNat_shiftLeft]
      exact Nat.mod_mod_of_dvd _ (Nat.pow_dvd_pow 2 hw)
  · apply binary_of_word hw x y
    · simp only [binaryWord, hcheck]
      rfl
    · rw [UInt64.toNat_shiftRight, hamount, hword, toNat_ofBits hw, BitVec.ushiftRight_eq', ← BitVec.toNat_ushiftRight,
        BitVec.ofNat_toNat, BitVec.setWidth_eq]
  · have hbinary : binary .ashr (ofBits x) (ofBits y) = .ok (ofInt ((ofBits x).signed >>> y.toNat) w) := by
      simp only [binary, binaryWord, hcheck, hamount, hword]
      rfl
    rw [hbinary, signed_ofBits hw, ofInt_eq_ofBits hw, BitVec.sshiftRight_eq', BitVec.sshiftRight_eq]

theorem binary_bitwise : binary .and (ofBits x) (ofBits y) = .ok (ofBits (x &&& y)) ∧
    binary .or (ofBits x) (ofBits y) = .ok (ofBits (x ||| y)) ∧
    binary .xor (ofBits x) (ofBits y) = .ok (ofBits (x ^^^ y)) := by
  have hsame : ∀ z : BitVec w, BitVec.ofNat w z.toNat = z := by
    intro z
    rw [BitVec.ofNat_toNat, BitVec.setWidth_eq]
  refine ⟨?_, ?_, ?_⟩
  · apply binary_of_word hw x y rfl
    rw [UInt64.toNat_and, toNat_ofBits hw, toNat_ofBits hw, ← BitVec.toNat_and, hsame]
  · apply binary_of_word hw x y rfl
    rw [UInt64.toNat_or, toNat_ofBits hw, toNat_ofBits hw, ← BitVec.toNat_or, hsame]
  · apply binary_of_word hw x y rfl
    rw [UInt64.toNat_xor, toNat_ofBits hw, toNat_ofBits hw, ← BitVec.toNat_xor, hsame]

theorem binary_refused {op : BinaryOperator} {e : ExecutionError} (h : op.refusal? y = some e) :
    binary op (ofBits x) (ofBits y) = .error (.error (.execution e)) := by
  have hdivisor : y = 0 → checkDivisor (ofBits y).value = .error (.error (.execution .divisionByZero)) := by
    rintro rfl
    exact if_pos (by unfold ofBits; simp)
  have hshift : w ≤ y.toNat →
      checkShift (ofBits x).bits (ofBits y).value = .error (.error (.execution (.shiftTooFar w (.ofNat y.toNat)))) :=
    fun hle => if_pos (by rwa [toNat_ofBits hw])
  unfold binary binaryWord
  cases op with
  | add | sub | mul | and | or | xor => cases h
  | udiv | sdiv | urem =>
    obtain ⟨hzero, he⟩ := Option.ite_none_right_eq_some.mp h
    cases he
    simp only [hdivisor hzero]
    rfl
  | shl | lshr | ashr =>
    obtain ⟨hle, he⟩ := Option.ite_none_right_eq_some.mp h
    cases he
    simp only [hshift hle]
    rfl

theorem binary_ofBits (op : BinaryOperator) : binary op (ofBits x) (ofBits y) =
    match op.refusal? y with
    | some e => .error (.error (.execution e))
    | none => .ok (ofBits (op.onBits x y)) := by
  cases hrefusal : op.refusal? y with
  | some e => exact binary_refused hw x y hrefusal
  | none =>
    have hdivisor : ite (y = 0) (some ExecutionError.divisionByZero) none = none → y ≠ 0 := by simp
    have hshift : ite (w ≤ y.toNat) (some (ExecutionError.shiftTooFar w (.ofNat y.toNat))) none = none → y.toNat < w := by
      simp
    cases op with
    | add => exact (binary_wrapping hw x y).1
    | sub => exact (binary_wrapping hw x y).2.1
    | mul => exact (binary_wrapping hw x y).2.2
    | udiv => exact (binary_division hw x y (hdivisor hrefusal)).1
    | sdiv => exact (binary_division hw x y (hdivisor hrefusal)).2.1
    | urem => exact (binary_division hw x y (hdivisor hrefusal)).2.2
    | shl => exact (binary_shift hw x y (hshift hrefusal)).1
    | lshr => exact (binary_shift hw x y (hshift hrefusal)).2.1
    | ashr => exact (binary_shift hw x y (hshift hrefusal)).2.2
    | and => exact (binary_bitwise hw x y).1
    | or => exact (binary_bitwise hw x y).2.1
    | xor => exact (binary_bitwise hw x y).2.2

theorem holds_ofBits (p : Predicate) : holds p (ofBits x) (ofBits y) = p.onBits x y := by
  have hvalue : (ofBits x).value = (ofBits y).value ↔ x = y := by
    rw [← UInt64.toNat_inj, toNat_ofBits hw, toNat_ofBits hw, BitVec.toNat_inj]
  cases p with
  | eq => exact decide_eq_decide.mpr hvalue
  | ne => exact decide_eq_decide.mpr (not_congr hvalue)
  | ult | ule | ugt | uge =>
    unfold holds Predicate.onBits
    simp only [UInt64.lt_iff_toNat_lt, UInt64.le_iff_toNat_le, toNat_ofBits hw]
  | slt | sle | sgt | sge =>
    unfold holds Predicate.onBits
    simp only [signed_ofBits hw]

end

theorem compare_eq_ofBits (p : Predicate) (l r : Constant) : Evaluation.compare p l r = ofBits (.ofBool (holds p l r)) := by
  unfold Evaluation.compare
  rw [make_eq_ofBits (by decide)]
  cases holds p l r with
  | true => rfl
  | false => rfl

theorem cast_ofBits {v : Nat} {ty : Ty} (hw : w ≤ 64) (hv : v ≤ 64) (hty : ty.bits = some v) (kind : CastKind)
    (x : BitVec w) : Evaluation.cast kind (ofBits x) ty = .ok (ofBits (kind.onBits v x)) := by
  have hbits : scalarBits ty = .ok v := by
    unfold scalarBits
    rw [hty]
    rfl
  have hword : make (ofBits x).value v = ofBits (x.setWidth v) := by
    rw [make_eq_ofBits hv, toNat_ofBits hw, BitVec.ofNat_toNat]
  have hsigned : make (Word.ofInt (ofBits x).signed) v = ofBits (x.signExtend v) := by
    change ofInt (ofBits x).signed v = _
    rw [ofInt_eq_ofBits hv, signed_ofBits hw]
    rfl
  unfold Evaluation.cast
  rw [hbits]
  cases kind with
  | signExtend => exact congrArg Except.ok hsigned
  | bitcast | ptrToInt | intToPtr | zeroExtend | truncate => exact congrArg Except.ok hword

/-- Constants of a width compute like its bit vectors. An operator fails if it would divide by zero or shift by the width or
more, and otherwise gives the result that wraps around. A predicate says how the unsigned or the signed numbers compare, and
a conversion keeps the number or the low bits. -/
theorem computes_on_bits {l r : Constant} (hw : w ≤ 64) (hl : l.HasWidth w) (hr : r.HasWidth w) :
    (∀ op, binary op l r =
      match op.refusal? (r.lowBits w) with
      | some e => .error (.error (.execution e))
      | none => .ok (ofBits (op.onBits (l.lowBits w) (r.lowBits w)))) ∧
    (∀ p, Evaluation.compare p l r = ofBits (.ofBool (p.onBits (l.lowBits w) (r.lowBits w))) ∧
      Evaluation.compare p.inverse l r = ofBits (.ofBool !p.onBits (l.lowBits w) (r.lowBits w)) ∧
      Evaluation.compare p.swapped r l = Evaluation.compare p l r) ∧
    (∀ kind ty v, ty.bits = some v → v ≤ 64 →
      Evaluation.cast kind l ty = .ok (ofBits (kind.onBits v (l.lowBits w)))) ∧
    (l.lowBits w).toNat = l.value.toNat ∧ (r.lowBits w).toNat = r.value.toNat ∧
    ∀ v ≤ 64, ∀ x : BitVec v, (ofBits x).HasWidth v ∧ (ofBits x).value.toNat = x.toNat := by
  have hleft := hl.ofBits_lowBits
  have hright := hr.ofBits_lowBits
  have hholds : ∀ p, holds p l r = p.onBits (l.lowBits w) (r.lowBits w) := by
    intro p
    have h := holds_ofBits hw (l.lowBits w) (r.lowBits w) p
    rwa [hleft, hright] at h
  refine ⟨?_, ?_, ?_, hl.toNat_lowBits, hr.toNat_lowBits, fun v hv x => ⟨hasWidth_ofBits hv x, toNat_ofBits hv x⟩⟩
  · intro op
    have h := binary_ofBits hw (l.lowBits w) (r.lowBits w) op
    rwa [hleft, hright] at h
  · intro p
    rw [compare_eq_ofBits, compare_eq_ofBits, compare_eq_ofBits, holds_inverse, holds_swapped, hholds]
    exact ⟨rfl, rfl, rfl⟩
  · intro kind ty v hty hv
    have h := cast_ofBits hw hv hty kind (l.lowBits w)
    rwa [hleft] at h

/-- The least number of eight bits divided by minus one is itself, and is negative when it is extended. -/
theorem computes_on_bits_least :
    HasWidth 8 ⟨0x80, 8⟩ ∧ HasWidth 8 ⟨0xff, 8⟩ ∧ (8 : Nat) ≤ 64 ∧ Ty.bits (.integer 64) = some 64 ∧
      binary .sdiv ⟨0x80, 8⟩ ⟨0xff, 8⟩ = .ok ⟨0x80, 8⟩ ∧
      Evaluation.cast .signExtend ⟨0x80, 8⟩ (.integer 64) = .ok ⟨0xffffffffffffff80, 64⟩ := by
  have hl : HasWidth 8 ⟨0x80, 8⟩ := ⟨rfl, by decide⟩
  have hr : HasWidth 8 ⟨0xff, 8⟩ := ⟨rfl, by decide⟩
  obtain ⟨hbinary, -, hcast, -⟩ := computes_on_bits (by decide) hl hr
  exact ⟨hl, hr, by decide, rfl, hbinary .sdiv, hcast .signExtend (.integer 64) 64 rfl (by decide)⟩

end Constant

end RegionGuard

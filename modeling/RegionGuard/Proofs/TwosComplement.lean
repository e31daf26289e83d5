import Mathlib.Data.Int.ModEq
import RegionGuard.IL.Evaluation
set_option autoImplicit false

/-!
# Two's complement

Sums, differences and products of constants are those of the integers modulo the number of values that the width
has. What a width reads as signed or as unsigned numbers is compared and divided like integers, as long as these stay
in its range.
-/

namespace RegionGuard

/-- Words add up like integers modulo `2 ^ 64`. -/
theorem Word.modulus_eq : (Word.modulus : Int) = 2 ^ 64 := rfl

namespace Constant

/-- How many values constants of a width take. Words have 64 bits, and so has every constant that is wider. -/
def modulus (bits : Nat) : Nat := 2 ^ min bits 64

def number (c : Constant) : Int := c.value.toNat

def ofInt (z : Int) (bits : Nat) : Constant := .make (Word.ofInt z) bits

variable {x y z : Int} {bits : Nat} {c l r : Constant} {w : Word}

theorem modulus_pos (bits : Nat) : 0 < modulus bits := Nat.two_pow_pos _

theorem modulus_dvd_word (bits : Nat) : modulus bits ∣ 2 ^ 64 := Nat.pow_dvd_pow 2 (Nat.min_le_right bits 64)

theorem modulus_dvd {m n : Nat} (h : m ≤ n) : modulus m ∣ modulus n := Nat.pow_dvd_pow 2 (by omega)

theorem modEq_of_word {bits : Nat} (h : x ≡ y [ZMOD 2 ^ 64]) : x ≡ y [ZMOD modulus bits] :=
  h.of_dvd (mod_cast modulus_dvd_word bits)

theorem modEq_of_le {m n : Nat} (hle : m ≤ n) (h : x ≡ y [ZMOD modulus n]) : x ≡ y [ZMOD modulus m] :=
  h.of_dvd (mod_cast modulus_dvd hle)

theorem modulus_of_le (h : bits ≤ 64) : modulus bits = 2 ^ bits := by rw [modulus, Nat.min_eq_left h]

@[simp] theorem bits_make (w : Word) (bits : Nat) : (make w bits).bits = bits := rfl

@[simp] theorem bits_ofInt (z : Int) (bits : Nat) : (ofInt z bits).bits = bits := rfl

theorem toNat_trim (w : Word) (bits : Nat) : (trim w bits).toNat = w.toNat % modulus bits := by
  unfold trim modulus
  split
  · rename_i h
    rw [Nat.min_eq_right h, Nat.mod_eq_of_lt w.toNat_lt]
  · rename_i h
    have hle : bits ≤ 64 := by omega
    rw [UInt64.toNat_ofNat', Nat.min_eq_left hle]
    exact Nat.mod_eq_of_lt (Nat.lt_of_le_of_lt (Nat.mod_le _ _) w.toNat_lt)

theorem number_make (w : Word) (bits : Nat) : (make w bits).number = (w.toNat : Int) % modulus bits := by
  unfold number make
  rw [toNat_trim, Int.natCast_mod]

theorem toNat_ofInt_word (z : Int) : ((Word.ofInt z).toNat : Int) = z % 2 ^ 64 := by
  have hpos : (0 : Int) ≤ z % 2 ^ 64 := Int.emod_nonneg _ (by decide)
  have hlt : (z % 2 ^ 64).toNat < 2 ^ 64 := (Int.toNat_lt hpos).mpr (Int.emod_lt_of_pos _ (by decide))
  unfold Word.ofInt
  rw [Word.modulus_eq, UInt64.toNat_ofNat', Nat.mod_eq_of_lt hlt, Int.toNat_of_nonneg hpos]

theorem number_ofInt (z : Int) (bits : Nat) : (ofInt z bits).number = z % modulus bits := by
  unfold ofInt
  rw [number_make, toNat_ofInt_word]
  exact Int.emod_emod_of_dvd z (mod_cast modulus_dvd_word bits)

theorem number_ofInt_modEq (z : Int) (bits : Nat) : (ofInt z bits).number ≡ z [ZMOD modulus bits] := by
  rw [number_ofInt]
  exact Int.mod_modEq z _

theorem eq_of_number (hbits : l.bits = r.bits) (h : l.number = r.number) : l = r := by
  obtain ⟨v, n⟩ := l
  obtain ⟨w, n'⟩ := r
  cases hbits
  cases UInt64.toNat_inj.mp (Int.ofNat.inj h)
  rfl

theorem ofInt_eq_ofInt_iff : ofInt x bits = ofInt y bits ↔ x ≡ y [ZMOD modulus bits] := by
  constructor
  · intro h
    have hnumber := congrArg number h
    rwa [number_ofInt, number_ofInt] at hnumber
  · intro h
    refine eq_of_number rfl ?_
    rw [number_ofInt, number_ofInt]
    exact h

/-- A word of arithmetic reduced to a width is the constant congruent to the result among the integers. -/
theorem make_eq_ofInt (h : (w.toNat : Int) ≡ z [ZMOD 2 ^ 64]) : make w bits = ofInt z bits := by
  refine eq_of_number rfl ?_
  rw [number_make, number_ofInt]
  exact modEq_of_word h

def IsReduced (c : Constant) : Prop := c.number < modulus c.bits

theorem isReduced_ofInt (z : Int) (bits : Nat) : (ofInt z bits).IsReduced := by
  unfold IsReduced
  rw [number_ofInt]
  exact Int.emod_lt_of_pos z (mod_cast modulus_pos bits)

theorem IsReduced.ofInt_number (h : c.IsReduced) : ofInt c.number c.bits = c := by
  refine eq_of_number rfl ?_
  rw [number_ofInt]
  exact Int.emod_eq_of_lt (Int.natCast_nonneg _) h

theorem binary_add (l r : Constant) : Evaluation.binary .add l r = .ok (ofInt (l.number + r.number) l.bits) := by
  refine congrArg Except.ok (make_eq_ofInt ?_)
  rw [UInt64.toNat_add, Int.natCast_mod, Int.natCast_add]
  exact Int.mod_modEq _ _

theorem binary_mul (l r : Constant) : Evaluation.binary .mul l r = .ok (ofInt (l.number * r.number) l.bits) := by
  refine congrArg Except.ok (make_eq_ofInt ?_)
  rw [UInt64.toNat_mul, Int.natCast_mod, Int.natCast_mul]
  exact Int.mod_modEq _ _

theorem binary_sub (l r : Constant) : Evaluation.binary .sub l r = .ok (ofInt (l.number - r.number) l.bits) := by
  refine congrArg Except.ok (make_eq_ofInt ?_)
  have hlt := r.value.toNat_lt
  rw [UInt64.toNat_sub, Int.natCast_mod, Int.natCast_add, Int.natCast_sub (Nat.le_of_lt hlt)]
  have hwraps : ((2 ^ 64 : Nat) : Int) - r.value.toNat + l.value.toNat = l.number - r.number + 2 ^ 64 * 1 := by
    unfold number
    omega
  rw [hwraps]
  exact (Int.mod_modEq _ _).trans (Int.add_mul_emod_self_left ..)

theorem signed_ofInt (z : Int) (bits : Nat) : (ofInt z bits).signed = z.bmod (modulus bits) := by
  have hnumber := number_ofInt z bits
  unfold number at hnumber
  unfold signed signBits
  rw [hnumber, bits_ofInt]
  split
  · rename_i h
    rcases h with rfl | h
    · -- No bits leave no value but zero, however it is read.
      have hmodulus : modulus 0 = 1 := rfl
      rw [hmodulus, Int.bmod_one, Nat.cast_one, Int.emod_one]
      rfl
    · rw [modulus, Nat.min_eq_right h]
      exact Int.emod_bmod z _
  · rename_i h
    rw [modulus_of_le (by omega)]
    exact Int.emod_bmod z _

theorem signed_modEq (c : Constant) : c.signed ≡ c.number [ZMOD modulus c.bits] := by
  have hdvd : modulus c.bits ∣ 2 ^ c.signBits := by
    refine Nat.pow_dvd_pow 2 ?_
    unfold signBits
    split <;> omega
  have hsigned : c.signed ≡ c.number [ZMOD (2 ^ c.signBits : Nat)] := Int.bmod_emod
  exact hsigned.of_dvd (mod_cast hdvd)

/-- A quotient of numbers that the width can be read as. Every divisor but zero has one. -/
theorem binary_udiv (h : r.number ≠ 0) : Evaluation.binary .udiv l r = .ok (ofInt (l.number / r.number) l.bits) := by
  have hr : r.value ≠ 0 := fun hzero => h (by rw [number, hzero]; rfl)
  unfold Evaluation.binary Evaluation.binaryWord Evaluation.checkDivisor
  simp only
  rw [if_neg hr]
  refine congrArg Except.ok (make_eq_ofInt ?_)
  rw [UInt64.toNat_div, Int.natCast_ediv]
  rfl

theorem binary_sdiv (hr : r.number ≠ 0) (h : r.signed ≠ 0) :
    Evaluation.binary .sdiv l r = .ok (ofInt (l.signed.tdiv r.signed) l.bits) := by
  have hvalue : r.value ≠ 0 := fun hzero => hr (by rw [number, hzero]; rfl)
  unfold Evaluation.binary Evaluation.binaryWord Evaluation.checkDivisor Evaluation.signedQuotient
  simp only
  rw [if_neg hvalue, if_neg h]
  rfl

end Constant

inductive Reading where
  | unsigned
  | signed
deriving DecidableEq, Repr

namespace Reading

def of : Reading → Constant → Int
  | unsigned, c => c.number
  | signed, c => c.signed

def Spans (bits : Nat) : Reading → Int → Prop
  | unsigned, z => 0 ≤ z ∧ z < 2 ^ bits
  | signed, z => -2 ^ (bits - 1) ≤ z ∧ z < 2 ^ (bits - 1)

instance (bits : Nat) (ρ : Reading) (z : Int) : Decidable (ρ.Spans bits z) := by
  cases ρ <;> exact inferInstanceAs (Decidable (_ ∧ _))

variable {bits : Nat} {ρ : Reading} {z : Int} {c : Constant}

theorem double_half (h : 1 ≤ bits) : 2 * 2 ^ (bits - 1) = 2 ^ bits := by
  rw [← Nat.pow_succ', Nat.succ_eq_add_one, Nat.sub_add_cancel h]

theorem of_ofInt (hbits : 1 ≤ bits ∧ bits ≤ 64) (h : ρ.Spans bits z) : ρ.of (.ofInt z bits) = z := by
  have hmodulus := Constant.modulus_of_le hbits.2
  cases ρ with
  | unsigned =>
    change (Constant.ofInt z bits).number = z
    rw [Constant.number_ofInt, hmodulus]
    exact Int.emod_eq_of_lt h.1 (mod_cast h.2)
  | signed =>
    obtain ⟨hlow, hhigh⟩ := h
    change (Constant.ofInt z bits).signed = z
    rw [Constant.signed_ofInt, hmodulus, ← double_half hbits.1]
    exact Int.bmod_eq_of_le_mul_two (by push_cast; omega) (by push_cast; omega)

theorem of_modEq (ρ : Reading) (c : Constant) : ρ.of c ≡ c.number [ZMOD Constant.modulus c.bits] := by
  cases ρ with
  | unsigned => exact Int.ModEq.refl _
  | signed => exact c.signed_modEq

theorem ofInt_of (h : c.IsReduced) : .ofInt (ρ.of c) c.bits = c := by
  rw [Constant.ofInt_eq_ofInt_iff.mpr (of_modEq ρ c), h.ofInt_number]

theorem spans_of (hbits : 1 ≤ c.bits ∧ c.bits ≤ 64) (h : c.IsReduced) : ρ.Spans c.bits (ρ.of c) := by
  have hmodulus := Constant.modulus_of_le hbits.2
  cases ρ with
  | unsigned =>
    unfold Constant.IsReduced at h
    rw [hmodulus] at h
    exact ⟨Int.natCast_nonneg _, mod_cast h⟩
  | signed =>
    have hread := Constant.signed_ofInt c.number c.bits
    rw [h.ofInt_number, hmodulus, ← double_half hbits.1] at hread
    have hpos : 0 < 2 * 2 ^ (c.bits - 1) := Nat.mul_pos (by decide) (Nat.two_pow_pos _)
    have hlow := Int.le_bmod (x := c.number) hpos
    have hhigh := Int.bmod_lt (x := c.number) hpos
    change -2 ^ (c.bits - 1) ≤ c.signed ∧ c.signed < 2 ^ (c.bits - 1)
    rw [hread]
    push_cast at hlow hhigh ⊢
    omega

end Reading

namespace Predicate

def ReadsAs : Predicate → Reading → Prop
  | .eq, _ | .ne, _ => True
  | .ult, ρ | .ule, ρ | .ugt, ρ | .uge, ρ => ρ = .unsigned
  | .slt, ρ | .sle, ρ | .sgt, ρ | .sge, ρ => ρ = .signed

def test (p : Predicate) (x y : Int) : Bool :=
  match p with
  | .eq => x = y
  | .ne => x ≠ y
  | .ult | .slt => x < y
  | .ule | .sle => x ≤ y
  | .ugt | .sgt => y < x
  | .uge | .sge => y ≤ x

theorem holds_eq_test {p : Predicate} {ρ : Reading} {l r : Constant} (hp : p.ReadsAs ρ) (hbits : l.bits = r.bits)
    (hl : l.IsReduced) (hr : r.IsReduced) : Evaluation.holds p l r = p.test (ρ.of l) (ρ.of r) := by
  have hequal : l.value = r.value ↔ ρ.of l = ρ.of r := by
    constructor
    · intro h
      have hsame : l = r := Constant.eq_of_number hbits (by rw [Constant.number, h]; rfl)
      rw [hsame]
    · intro h
      rw [← Reading.ofInt_of (ρ := ρ) hl, ← Reading.ofInt_of (ρ := ρ) hr, h, hbits]
  have hless : ∀ a b : Constant, a.value < b.value ↔ a.number < b.number := fun a b => by
    rw [UInt64.lt_iff_toNat_lt, Constant.number, Constant.number, Int.ofNat_lt]
  have hatMost : ∀ a b : Constant, a.value ≤ b.value ↔ a.number ≤ b.number := fun a b => by
    rw [UInt64.le_iff_toNat_le, Constant.number, Constant.number, Int.ofNat_le]
  cases p with
  | eq => exact decide_eq_decide.mpr hequal
  | ne => exact decide_eq_decide.mpr (not_congr hequal)
  | ult | ugt =>
    cases hp
    exact decide_eq_decide.mpr (hless _ _)
  | ule | uge =>
    cases hp
    exact decide_eq_decide.mpr (hatMost _ _)
  | slt | sle | sgt | sge =>
    cases hp
    rfl

end Predicate

end RegionGuard

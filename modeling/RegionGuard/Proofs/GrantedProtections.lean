import Mathlib.Data.Nat.Bitwise
import RegionGuard.Proofs.SoundSpaces
set_option autoImplicit false

/-!
# What protections grant

A region honors what was requested of it if its protection grants that. Changes that add to a protection keep
it so, and so does an access that the protection allows.
-/

namespace RegionGuard

namespace Protection

variable {p q m : Protection}

theorem contains_iff : p.contains q = true ↔ p.bits &&& q.bits = q.bits := by
  obtain ⟨p⟩ := p
  obtain ⟨q⟩ := q
  unfold contains
  rw [decide_eq_true_iff]
  change Protection.mk (p &&& q) = Protection.mk q ↔ _
  rw [Protection.mk.injEq]

theorem meets_iff : p.meets m = true ↔ p.bits &&& m.bits ≠ 0 := by
  obtain ⟨p⟩ := p
  obtain ⟨m⟩ := m
  unfold meets none
  rw [decide_eq_true_iff]
  change Protection.mk (p &&& m) ≠ Protection.mk 0 ↔ _
  rw [ne_eq, Protection.mk.injEq]

theorem contains_bit_iff {k : Nat} {b : UInt32} (hb : b.toNat = 2 ^ k) :
    p.contains ⟨b⟩ = true ↔ p.bits.toNat.testBit k = true := by
  have hpos := Nat.two_pow_pos k
  rw [contains_iff, ← UInt32.toNat_inj, UInt32.toNat_and, hb, Nat.and_two_pow]
  cases p.bits.toNat.testBit k
  · simp only [Bool.toNat_false, Nat.zero_mul, Bool.false_eq_true, iff_false]
    omega
  · simp only [Bool.toNat_true, Nat.one_mul]

theorem contains_bit_union {k : Nat} {b : UInt32} (hb : b.toNat = 2 ^ k) :
    (p ∪ q).contains ⟨b⟩ = true ↔ p.contains ⟨b⟩ = true ∨ q.contains ⟨b⟩ = true := by
  rw [contains_bit_iff hb, contains_bit_iff hb, contains_bit_iff hb]
  change (p.bits ||| q.bits).toNat.testBit k = true ↔ _
  rw [UInt32.toNat_or, Nat.testBit_or, Bool.or_eq_true]

theorem contains_read_union : (p ∪ q).contains read = true ↔ p.contains read = true ∨ q.contains read = true :=
  contains_bit_union (k := 0) rfl

theorem contains_write_union : (p ∪ q).contains write = true ↔ p.contains write = true ∨ q.contains write = true :=
  contains_bit_union (k := 1) rfl

theorem contains_refl (p : Protection) : p.contains p = true := contains_iff.mpr (UInt32.and_self)

theorem contains_trans (hpq : p.contains q = true) (hqm : q.contains m = true) : p.contains m = true := by
  rw [contains_iff] at *
  rw [← hqm, ← UInt32.and_assoc, hpq]

theorem contains_union (p q : Protection) : (p ∪ q).contains p = true := by
  rw [contains_iff]
  change (p.bits ||| q.bits) &&& p.bits = p.bits
  rw [UInt32.and_comm]
  exact UInt32.toBitVec_inj.mp (by ext i hi; cases h : p.bits.toBitVec[i] <;> simp [h])

theorem meets_union (h : p.meets m = true) (q : Protection) : (p ∪ q).meets m = true := by
  rw [meets_iff] at *
  have hsplit : (p.bits ||| q.bits) &&& m.bits = (p.bits &&& m.bits) ||| (q.bits &&& m.bits) :=
    UInt32.toBitVec_inj.mp (by ext i hi; simp [Bool.and_or_distrib_right])
  change (p.bits ||| q.bits) &&& m.bits ≠ 0
  rw [hsplit, ne_eq, UInt32.or_eq_zero_iff]
  exact fun hzero => h hzero.1

end Protection

namespace AddressSpace

variable {requested p q : Protection}

theorem keepsLatched_iff :
    keepsLatched requested p = true ↔
      (requested.contains .write = true → p.contains .write = true) ∧
        (requested.contains .read = true → p.meets .readWrite = true) := by
  unfold keepsLatched
  cases requested.contains .write <;> cases p.contains .write <;> cases requested.contains .read <;>
    cases p.meets .readWrite <;> decide

theorem keepsLatched_none (p : Protection) : keepsLatched .none p = true := by
  have hwrite : Protection.contains .none .write = false := by decide
  have hread : Protection.contains .none .read = false := by decide
  simp only [keepsLatched, hwrite, hread, Bool.false_and, Bool.not_false, Bool.and_self]

theorem keepsLatched_union (h : keepsLatched requested p = true) (q : Protection) :
    keepsLatched requested (p ∪ q) = true := by
  rw [keepsLatched_iff] at *
  exact ⟨fun hwrite => Protection.contains_write_union.mpr (.inl (h.1 hwrite)),
    fun hread => Protection.meets_union (h.2 hread) q⟩

theorem keepsLatched_latch (h : keepsLatched requested p = true) {a : Access} (allowed : p.allows a = true) :
    keepsLatched (requested ∪ .ofAccess a) p = true := by
  rw [keepsLatched_iff] at *
  rw [Protection.contains_write_union, Protection.contains_read_union]
  cases a with
  | read =>
    have hnot : Protection.contains (.ofAccess .read) .write = false := by decide
    refine ⟨fun hwrite => h.1 (hwrite.resolve_right ?_), fun _ => allowed⟩
    rw [hnot]
    exact Bool.false_ne_true
  | write =>
    have hnot : Protection.contains (.ofAccess .write) .read = false := by decide
    refine ⟨fun _ => allowed, fun hread => h.2 (hread.resolve_right ?_)⟩
    rw [hnot]
    exact Bool.false_ne_true

end AddressSpace

namespace Region

def Honors (r : Region) : Prop := AddressSpace.keepsLatched r.requested r.protection = true

/-- What a region may turn into: nothing that was requested of it is forgotten, and it honors that if it did. -/
structure Heeds (r r' : Region) : Prop where
  requested : r'.requested.contains r.requested = true
  honors : r.Honors → r'.Honors

namespace Heeds

variable {r r' r'' : Region}

theorem refl (r : Region) : r.Heeds r := ⟨Protection.contains_refl _, id⟩

theorem trans (h : r.Heeds r') (h' : r'.Heeds r'') : r.Heeds r'' :=
  ⟨Protection.contains_trans h'.requested h.requested, h'.honors ∘ h.honors⟩

theorem of_marks (hrequested : r'.requested = r.requested) (hprotection : r'.protection = r.protection) :
    r.Heeds r' := by
  refine ⟨hrequested ▸ Protection.contains_refl _, fun h => ?_⟩
  unfold Honors
  rw [hrequested, hprotection]
  exact h

theorem protect {p : Protection} (h : AddressSpace.keepsLatched r.requested p = true) :
    r.Heeds { r with protection := p } := ⟨Protection.contains_refl _, fun _ => h⟩

theorem pin (r : Region) : r.Heeds { r with protection := r.protection ∪ .pin } :=
  ⟨Protection.contains_refl _, fun h => AddressSpace.keepsLatched_union h _⟩

theorem latch {a : Access} (allowed : r.protection.allows a = true) : r.Heeds (r.latch a) :=
  ⟨Protection.contains_union _ _, fun h => AddressSpace.keepsLatched_latch h allowed⟩

end Heeds

end Region

end RegionGuard

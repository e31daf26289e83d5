import RegionGuard.Proofs.GuardAnswers
import RegionGuard.Proofs.LatchedPermissions
import RegionGuard.Proofs.NeighborQueries
set_option autoImplicit false

/-!
# Checks of whole ranges

A protection check looks at one region, and compares where it starts and stops with where the range does. What stops past
the last word counts as if it stopped there. So a range that stops at the last word at the latest is covered whole, and of
any other the part in front of the last word is.
-/

namespace RegionGuard

namespace Region

variable {r q : Region}

/-- A region covers a range if it contains all of its addresses, those past the last word included. -/
def Covers (r q : Region) : Prop :=
  ∀ a : Nat, q.start.toNat ≤ a → a < q.start.toNat + q.length.toNat →
    ∃ w : Word, w.toNat = a ∧ r.containsAddress w = true

theorem stop_eq_maximum (hpast : Word.modulus ≤ r.start.toNat + r.length.toNat) : r.stop = Word.maximum := by
  unfold stop Word.addSaturating Word.add? Word.ofNat?
  rw [if_neg (Nat.not_lt.mpr hpast)]
  rfl

/-- Where a range ends before the last word, its bounds tell whether it is covered. -/
theorem covers_iff (hq : q.length ≠ 0) (hfits : q.start.toNat + q.length.toNat < Word.modulus) :
    r.Covers q ↔ r.overlaps q = true ∧ r.containsRegion q = true := by
  have hpos := Word.toNat_pos hq
  have hstop := stop_toNat hfits
  unfold overlaps containsRegion
  simp only [decide_eq_true_iff, UInt64.le_iff_toNat_le, UInt64.lt_iff_toNat_lt, hstop]
  constructor
  · intro hcovers
    obtain ⟨first, hfirst, hcontains⟩ := hcovers q.start.toNat (Nat.le_refl _) (by omega)
    obtain ⟨last, hlast, hcontains'⟩ := hcovers (q.start.toNat + q.length.toNat - 1) (by omega) (by omega)
    obtain ⟨hlow, hhigh⟩ := containsAddress_eq_true.mp hcontains
    have hhigh' := (containsAddress_eq_true.mp hcontains').2
    rw [UInt64.le_iff_toNat_le] at hlow
    rw [UInt64.lt_iff_toNat_lt] at hhigh hhigh'
    omega
  · rintro ⟨-, hlow, hhigh⟩ a hle hlt
    have hword : (UInt64.ofNat a).toNat = a := UInt64.toNat_ofNat_of_lt (Nat.lt_trans hlt hfits)
    refine ⟨UInt64.ofNat a, hword, containsAddress_eq_true.mpr ?_⟩
    rw [UInt64.le_iff_toNat_le, UInt64.lt_iff_toNat_lt, hword]
    omega

theorem not_covers_past (hpast : Word.modulus ≤ q.start.toNat + q.length.toNat) : ¬ r.Covers q := by
  intro hcovers
  have hstart := q.start.toNat_lt
  have hstop := r.stop.toNat_lt
  unfold Word.modulus at hpast
  obtain ⟨last, hlast, hcontains⟩ := hcovers (2 ^ 64 - 1) (by omega) (by omega)
  have hhigh := (containsAddress_eq_true.mp hcontains).2
  rw [UInt64.lt_iff_toNat_lt] at hhigh
  omega

/-- Of a range that does not end before the last word, the bounds tell whether the part in front of it is covered. -/
theorem overlaps_containsRegion_past (hpast : Word.modulus ≤ q.start.toNat + q.length.toNat) :
    (r.overlaps q = true ∧ r.containsRegion q = true) ↔ r.containsAddress q.start = true ∧ r.stop = Word.maximum := by
  have hmax : r.stop ≤ Word.maximum := UInt64.le_iff_toNat_le.mpr (Nat.le_of_lt_succ r.stop.toNat_lt)
  unfold overlaps containsRegion containsAddress
  simp only [decide_eq_true_iff, stop_eq_maximum hpast]
  constructor
  · rintro ⟨⟨-, hreaches⟩, hle, hend⟩
    exact ⟨⟨hle, hreaches⟩, UInt64.le_antisymm hmax hend⟩
  · rintro ⟨⟨hle, hreaches⟩, hend⟩
    rw [hend] at hreaches ⊢
    exact ⟨⟨UInt64.lt_of_le_of_lt hle hreaches, hreaches⟩, hle, UInt64.le_refl _⟩

end Region

namespace AddressSpace

variable {s : AddressSpace} {q : Region}

theorem Arranged.overlapping?_of_containsRegion (h : s.Arranged) (hq : q.length ≠ 0) {r : Region}
    (hr : r ∈ s.regions.toList) (hoverlaps : r.overlaps q = true) (hcontains : r.containsRegion q = true) :
    s.regions.overlapping? q = some r := by
  obtain ⟨c, hfound⟩ := Option.isSome_iff_exists.mp (h.ordered.overlapping?_complete h.clear hq hr hoverlaps)
  obtain ⟨hc, hmeets⟩ := h.ordered.overlapping?_sound hfound
  obtain ⟨hle, hstop⟩ := of_decide_eq_true hcontains
  obtain ⟨hbelow, hreaches⟩ := of_decide_eq_true hmeets
  -- A region in front ends where `r` starts, and one behind starts where the range has ended.
  have hfront : ¬ c.start < r.start := fun hlt =>
    UInt64.lt_irrefl _ (UInt64.lt_of_lt_of_le hreaches (UInt64.le_trans ((h.clear r hr).front c hc hlt) hle))
  have hbehind : ¬ r.start < c.start := fun hlt =>
    UInt64.lt_irrefl _ (UInt64.lt_of_lt_of_le hbelow (UInt64.le_trans hstop ((h.clear r hr).behind c hc hlt)))
  have hstart := UInt64.le_antisymm (UInt64.not_lt.mp hbehind) (UInt64.not_lt.mp hfront)
  rw [hfound, h.ordered.rising.eq_of_start hc hr hstart]

/-- A check looks for a region that overlaps a range, has it in its bounds, and grants what it asks for. -/
theorem Arranged.grants_iff (h : s.Arranged) (hq : q.length ≠ 0) :
    s.grants q = true ↔ ∃ r ∈ s.regions.toList, (r.overlaps q = true ∧ r.containsRegion q = true) ∧
      q.protection.isWithin r.protection = true := by
  unfold grants
  constructor
  · intro hgrants
    cases hfound : s.regions.overlapping? q with
    | none =>
      rw [hfound] at hgrants
      cases hgrants
    | some c =>
      rw [hfound] at hgrants
      obtain ⟨hcontains, hwithin⟩ := (Bool.and_eq_true _ _).mp hgrants
      obtain ⟨hc, hoverlaps⟩ := h.ordered.overlapping?_sound hfound
      exact ⟨c, hc, ⟨hoverlaps, hcontains⟩, hwithin⟩
  · rintro ⟨r, hr, ⟨hoverlaps, hcontains⟩, hwithin⟩
    rw [h.overlapping?_of_containsRegion hq hr hoverlaps hcontains]
    exact (Bool.and_eq_true _ _).mpr ⟨hcontains, hwithin⟩

end AddressSpace

namespace Tracker

variable {ρ : Type} [Relocator ρ] {t : Tracker ρ}

/-- Whatever has happened to an address space, a check of a range that ends before the last word holds exactly if a tracked
region covers the range and grants what it asks for. No region covers a range that does not end there, and a check of one
holds exactly if a tracked region contains its start, stops at the last word, and grants what it asks for. -/
theorem range_checks {name : String} {kind : IndexKind} {stack blob : Option Region}
    (hbuild : AddressSpace.build name kind stack blob = .ok t.space) (events : List (SpaceEvent ρ)) {q : Region}
    (hq : q.length ≠ 0) :
    (q.start.toNat + q.length.toNat < Word.modulus →
      ((t.history events).space.grants q = true ↔
        ∃ r ∈ (t.history events).regions, r.Covers q ∧ q.protection.isWithin r.protection = true)) ∧
      (Word.modulus ≤ q.start.toNat + q.length.toNat →
        (∀ r : Region, ¬ r.Covers q) ∧
          ((t.history events).space.grants q = true ↔
            ∃ r ∈ (t.history events).regions, (r.containsAddress q.start = true ∧ r.stop = Word.maximum) ∧
              q.protection.isWithin r.protection = true)) := by
  have harranged := arranged_history (AddressSpace.sound_of_build hbuild).arranged events
  refine ⟨fun hfits => ?_, fun hpast => ⟨fun r => Region.not_covers_past hpast, ?_⟩⟩
  · rw [harranged.grants_iff hq]
    exact exists_congr fun r => and_congr_right fun _ => and_congr_left fun _ => (Region.covers_iff hq hfits).symm
  · rw [harranged.grants_iff hq]
    exact exists_congr fun r => and_congr_right fun _ => and_congr_left fun _ => Region.overlaps_containsRegion_past hpast

def vacant : Tracker Ledger := ⟨.empty "kernel" .keyed, .make 0x100000 0x10000, .empty⟩

/-- The last sixteen bytes in front of the last word are tracked. -/
def topmost : List (SpaceEvent Ledger) := [.request (.add (.make 0xFFFFFFFFFFFFFFEF 16 .readWrite))]

theorem vacant_built : AddressSpace.build "kernel" .keyed none none = .ok vacant.space := rfl

/-- Of the range behind the first byte some region covers all that is in front of the last word, and none the last word. -/
theorem range_checks_topmost :
    AddressSpace.build "kernel" .keyed none none = .ok vacant.space ∧
      (∃ r ∈ (vacant.history topmost).regions, r.Covers (.make 0xFFFFFFFFFFFFFFF0 15 .read) ∧
        Protection.read.isWithin r.protection = true) ∧
      ¬ (Region.make 0xFFFFFFFFFFFFFFEF 16 .readWrite).Covers (.make 0xFFFFFFFFFFFFFFF0 16 .read) := by
  have hinside := (range_checks vacant_built topmost (q := .make 0xFFFFFFFFFFFFFFF0 15 .read) (by decide)).1 (by decide)
  have hpast := (range_checks vacant_built topmost (q := .make 0xFFFFFFFFFFFFFFF0 16 .read) (by decide)).2 (by decide)
  exact ⟨vacant_built, hinside.mp (by decide +kernel), hpast.1 _⟩

/-- A check of twice the bytes that are tracked holds where they are the last ones, though no region covers them. -/
theorem check_past_last_word :
    ∃ (t : Tracker Ledger) (events : List (SpaceEvent Ledger)) (q : Region),
      AddressSpace.build "kernel" .keyed none none = .ok t.space ∧ q.length ≠ 0 ∧
        (t.history events).space.grants q = true ∧
        ¬ ∃ r ∈ (t.history events).regions, r.Covers q ∧ q.protection.isWithin r.protection = true := by
  refine ⟨vacant, topmost, .make 0xFFFFFFFFFFFFFFEF 32 .readWrite, vacant_built, by decide, by decide +kernel, ?_⟩
  rintro ⟨r, -, hcovers, -⟩
  exact Region.not_covers_past (by decide) hcovers

end Tracker

end RegionGuard

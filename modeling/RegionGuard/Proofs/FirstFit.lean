import Mathlib.Data.Nat.Bitwise
import Mathlib.Order.Bounds.Defs
import Mathlib.Order.CompletePartialOrder
import Mathlib.Order.Interval.Set.Disjoint
import RegionGuard.Proofs.RegionRequests
set_option autoImplicit false

namespace RegionGuard

namespace Word

theorem toNat_clear {w m : Word} {k : Nat} (hm : m.toNat = 2 ^ k - 1) : (w &&& ~~~m).toNat = w.toNat / 2 ^ k * 2 ^ k := by
  refine Nat.eq_of_testBit_eq fun i => ?_
  have hlow : m.toNat.testBit i = decide (i < k) := by rw [hm, Nat.testBit_two_pow_sub_one]
  have hclear : (~~~m).toNat.testBit i = (decide (i < 64) && !decide (i < k)) := by
    have hsize : UInt64.size = 2 ^ 64 := rfl
    rw [UInt64.toNat_not, hsize, Nat.sub_sub, Nat.add_comm 1, ← hlow]
    exact Nat.testBit_two_pow_sub_succ m.toNat_lt i
  rw [UInt64.toNat_and, Nat.testBit_and, hclear, Nat.testBit_mul_two_pow, Nat.testBit_div_two_pow]
  by_cases hk : k ≤ i
  · by_cases hi : i < 64
    · simp [hk, hi, Nat.not_lt.mpr hk]
    · have hhigh : w.toNat.testBit i = false :=
        Nat.testBit_lt_two_pow (Nat.lt_of_lt_of_le w.toNat_lt (Nat.pow_le_pow_right (by decide) (Nat.not_lt.mp hi)))
      simp [hk, hi, hhigh]
  · simp [hk, Nat.not_le.mp hk]

theorem powerAbove_spec (n : Nat) : ∃ k, powerAbove n = 2 ^ k ∧ n ≤ 2 ^ k ∧ ∀ j, n ≤ 2 ^ j → k ≤ j := by
  unfold powerAbove
  split
  · exact ⟨0, rfl, ‹_›, fun _ _ => Nat.zero_le _⟩
  · refine ⟨(n - 1).log2 + 1, rfl, ?_, fun j hj => ?_⟩
    · have := Nat.lt_log2_self (n := n - 1)
      omega
    · exact (Nat.log2_lt (by omega)).mpr (by omega)

end Word

namespace Heap

variable {h h' : Heap} {size place : Word} {k : Nat}

def roundUp (h : Heap) (n : Nat) : Nat := (n + (h.alignment.toNat - 1)) / h.alignment.toNat * h.alignment.toNat

theorem dvd_roundUp (h : Heap) (n : Nat) : h.alignment.toNat ∣ h.roundUp n := Nat.dvd_mul_left _ _

theorem le_roundUp (hk : h.alignment.toNat = 2 ^ k) (n : Nat) : n ≤ h.roundUp n := by
  have hpos := Nat.two_pow_pos k
  have := Nat.lt_div_mul_add (a := n + (2 ^ k - 1)) hpos
  unfold roundUp
  rw [hk]
  omega

theorem roundUp_le {n m : Nat} (hm : h.alignment.toNat ∣ m) (hle : n ≤ m) : h.roundUp n ≤ m := by
  obtain ⟨c, rfl⟩ := hm
  unfold roundUp
  rcases Nat.eq_zero_or_pos h.alignment.toNat with hzero | hpos
  · simp [hzero]
  · rw [Nat.mul_comm _ c] at hle ⊢
    refine Nat.mul_le_mul_right _ (Nat.le_of_lt_succ ?_)
    rw [Nat.div_lt_iff_lt_mul hpos, Nat.succ_mul]
    omega

theorem alignUp?_eq_some_iff (hk : h.alignment.toNat = 2 ^ k) {w v : Word} :
    h.alignUp? w = some v ↔ v.toNat = h.roundUp w.toNat := by
  have hmask : (h.alignment - 1).toNat = 2 ^ k - 1 := by
    rw [UInt64.toNat_sub_of_le, hk]
    · rfl
    · rw [UInt64.le_iff_toNat_le, hk]
      exact Nat.two_pow_pos k
  have hround : h.roundUp w.toNat = (w.toNat + (2 ^ k - 1)) / 2 ^ k * 2 ^ k := by
    unfold roundUp
    rw [hk]
  unfold alignUp?
  cases htop : Word.add? w (h.alignment - 1) with
  | none =>
    refine iff_of_false (by simp) fun hv => ?_
    have hlarge : 2 ^ 64 ≤ w.toNat + (2 ^ k - 1) := by
      unfold Word.add? Word.ofNat? at htop
      rw [hmask] at htop
      split at htop
      · cases htop
      · exact Nat.not_lt.mp ‹_›
    -- The power divides the number of words, so what is at least that many is not rounded below it.
    have hk64 : k ≤ 64 := (Nat.pow_le_pow_iff_right (by decide)).mp (hk ▸ Nat.le_of_lt h.alignment.toNat_lt)
    have hfactor : 2 ^ (64 - k) * 2 ^ k = 2 ^ 64 := by rw [← Nat.pow_add, Nat.sub_add_cancel hk64]
    have hquotient : 2 ^ (64 - k) ≤ (w.toNat + (2 ^ k - 1)) / 2 ^ k :=
      (Nat.le_div_iff_mul_le (Nat.two_pow_pos k)).mpr (hfactor.symm ▸ hlarge)
    have hpast : 2 ^ 64 ≤ v.toNat := by
      rw [hv, hround, ← hfactor]
      exact Nat.mul_le_mul_right _ hquotient
    exact absurd v.toNat_lt (Nat.not_lt.mpr hpast)
  | some top =>
    have hsum := Word.add?_eq_some_iff.mp htop
    rw [hmask] at hsum
    rw [Option.bind_eq_bind, Option.bind_some, hround, hsum, ← Word.toNat_clear hmask]
    exact ⟨fun hv => congrArg UInt64.toNat (Option.some.inj hv).symm, fun hv => congrArg some (UInt64.toNat_inj.mp hv.symm)⟩

/-- The bytes that are granted to whom asks for some. -/
def grant (h : Heap) (size : Word) : Nat := h.roundUp (max size.toNat 1)

/-- Bytes fit at a place between two bounds if it is aligned, and they lie in the arena and meet no block. -/
structure Fits (h : Heap) (bytes low high place : Nat) : Prop where
  aligned : h.alignment.toNat ∣ place
  low : max low h.base.toNat ≤ place
  high : place + bytes ≤ min high h.stop.toNat
  free : ∀ w n, h.blocks.get? w = some n →
    Disjoint (Set.Ico place (place + bytes)) (Set.Ico w.toNat (w.toNat + n.toNat))

/-- The alignment is a power of two, and every block starts at a multiple of it and is a multiple of it long. -/
structure Aligned (h : Heap) : Prop where
  power : ∃ k, h.alignment.toNat = 2 ^ k
  start : ∀ w n, h.blocks.get? w = some n → h.alignment.toNat ∣ w.toNat
  length : ∀ w n, h.blocks.get? w = some n → h.alignment.toNat ∣ n.toNat

theorem toNat_max (v w : Word) : (max v w).toNat = max v.toNat w.toNat := by
  have hmax : max v w = if v ≤ w then w else v := rfl
  rw [hmax]
  split
  · exact (Nat.max_eq_right (UInt64.le_iff_toNat_le.mp ‹_›)).symm
  · exact (Nat.max_eq_left (Nat.le_of_lt (UInt64.lt_iff_toNat_lt.mp (UInt64.not_le.mp ‹_›)))).symm

theorem toNat_min (v w : Word) : (min v w).toNat = min v.toNat w.toNat := by
  have hmin : min v w = if v ≤ w then v else w := rfl
  rw [hmin]
  split
  · exact (Nat.min_eq_left (UInt64.le_iff_toNat_le.mp ‹_›)).symm
  · exact (Nat.min_eq_right (Nat.le_of_lt (UInt64.lt_iff_toNat_lt.mp (UInt64.not_le.mp ‹_›)))).symm

theorem grant_pos (hk : h.alignment.toNat = 2 ^ k) (size : Word) : 0 < h.grant size :=
  Nat.lt_of_lt_of_le (Nat.lt_of_lt_of_le Nat.one_pos (Nat.le_max_right _ _)) (le_roundUp hk _)

theorem disjoint_iff {place bytes start length : Nat} (hbytes : 0 < bytes) (hlength : 0 < length) :
    Disjoint (Set.Ico place (place + bytes)) (Set.Ico start (start + length)) ↔
      start + length ≤ place ∨ place + bytes ≤ start := by
  rw [Set.Ico_disjoint_Ico]
  omega

theorem alignUp?_grant (hk : h.alignment.toNat = 2 ^ k) {granted : Word} :
    h.alignUp? (max size 1) = some granted ↔ granted.toNat = h.grant size := by
  rw [alignUp?_eq_some_iff hk, toNat_max]
  rfl

theorem exists_alignUp? (hk : h.alignment.toNat = 2 ^ k) {w : Word} (hlt : h.roundUp w.toNat < Word.modulus) :
    ∃ v, h.alignUp? w = some v ∧ v.toNat = h.roundUp w.toNat :=
  ⟨.ofNat _, (alignUp?_eq_some_iff hk).mpr (UInt64.toNat_ofNat_of_lt hlt), UInt64.toNat_ofNat_of_lt hlt⟩

theorem exists_add? {v w : Word} (hlt : v.toNat + w.toNat < Word.modulus) : ∃ top, Word.add? v w = some top :=
  ⟨.ofNat _, Word.add?_eq_some_iff.mpr (UInt64.toNat_ofNat_of_lt hlt).symm⟩

theorem fit?_aligned (hk : h.alignment.toNat = 2 ^ k) {l : List (Word × Word)} {candidate : Word}
    (hcandidate : h.alignment.toNat ∣ candidate.toNat) (hfit : h.fit? size candidate l = some place) :
    h.alignment.toNat ∣ place.toNat := by
  induction l generalizing candidate with
  | nil =>
    cases hfit
    exact hcandidate
  | cons e rest ih =>
    unfold fit? at hfit
    split at hfit
    · exact ih hcandidate hfit
    · obtain ⟨top, -, hfit⟩ := Option.bind_eq_some_iff.mp hfit
      split at hfit
      · cases hfit
        exact hcandidate
      · obtain ⟨next, hnext, hfit⟩ := Option.bind_eq_some_iff.mp hfit
        exact ih ((alignUp?_eq_some_iff hk).mp hnext ▸ dvd_roundUp h _) hfit

/-- The search skips no place where bytes keep apart from all blocks, and finds one if there is any. -/
theorem fit?_complete (hk : h.alignment.toNat = 2 ^ k) {l : List (Word × Word)} {candidate : Word} {x : Nat}
    (hends : ∀ e ∈ l, e.1.toNat + e.2.toNat < Word.modulus) (hx : h.alignment.toNat ∣ x) (hle : candidate.toNat ≤ x)
    (hfits : x + size.toNat < Word.modulus)
    (hapart : ∀ e ∈ l, e.1.toNat + e.2.toNat ≤ x ∨ x + size.toNat ≤ e.1.toNat) :
    ∃ place, h.fit? size candidate l = some place ∧ place.toNat ≤ x := by
  induction l generalizing candidate with
  | nil => exact ⟨candidate, rfl, hle⟩
  | cons e rest ih =>
    obtain ⟨start, length⟩ := e
    obtain ⟨hend, hends⟩ := List.forall_mem_cons.mp hends
    obtain ⟨hfirst, hapart⟩ := List.forall_mem_cons.mp hapart
    have hstop : (start + length).toNat = start.toNat + length.toNat := by
      rw [UInt64.toNat_add]
      exact Nat.mod_eq_of_lt hend
    obtain ⟨top, htop⟩ := exists_add? (v := candidate) (w := size) (by omega)
    have hsum := Word.add?_eq_some_iff.mp htop
    unfold fit?
    split
    · exact ih hends hle hapart
    · rw [htop, Option.bind_eq_bind, Option.bind_some]
      split
      · exact ⟨candidate, rfl, hle⟩
      · rename_i hroom
        rw [UInt64.le_iff_toNat_le] at hroom
        -- The candidate is not in front of the block, so no later place is.
        have hbehind : start.toNat + length.toNat ≤ x := by
          rcases hfirst with hbehind | hfront
          · exact hbehind
          · dsimp only at hfront
            omega
        have hnextle : h.roundUp (start + length).toNat ≤ x := roundUp_le hx (hstop ▸ hbehind)
        obtain ⟨next, hnext, hround⟩ := exists_alignUp? hk (Nat.lt_of_le_of_lt hnextle (by omega))
        rw [hnext, Option.bind_some]
        exact ih hends (hround ▸ hnextle) hapart

theorem Laid.fits_of_allocWithin? (hl : h.Laid) (ha : h.Aligned) {low high : Word}
    (halloc : h.allocWithin? size low high = some (place, h')) :
    h.Fits (h.grant size) low.toNat high.toNat place.toNat ∧ h.blocks.get? place = none ∧
      ∃ granted : Word, granted.toNat = h.grant size ∧ h.Room place granted ∧
        h' = { h with blocks := h.blocks.insert place granted } := by
  obtain ⟨k, hk⟩ := ha.power
  obtain ⟨granted, hh', -, hroom, hnone, hlow, hhigh⟩ := hl.granted halloc
  obtain ⟨granted', hgranted, halloc⟩ := Option.bind_eq_some_iff.mp halloc
  obtain ⟨first, hfirst, halloc⟩ := Option.bind_eq_some_iff.mp halloc
  obtain ⟨found, hfound, halloc⟩ := Option.bind_eq_some_iff.mp halloc
  obtain ⟨top, -, halloc⟩ := Option.bind_eq_some_iff.mp halloc
  obtain ⟨-, -, halloc⟩ := Option.bind_eq_some_iff.mp halloc
  cases halloc
  have hsame : granted' = granted := by
    have hinserted := congrArg (fun g : Heap => g.blocks.get? place) hh'
    simpa only [Table.get?_insert_self, Option.some.injEq] using hinserted
  subst hsame
  have hgrant := (alignUp?_grant hk).mp hgranted
  have hstart : h.alignment.toNat ∣ first.toNat := (alignUp?_eq_some_iff hk).mp hfirst ▸ dvd_roundUp h _
  refine ⟨⟨fit?_aligned hk hstart hfound, ?_, ?_, fun w n hw => ?_⟩, hnone, granted', hgrant, hroom, rfl⟩
  · exact Nat.max_le.mpr ⟨UInt64.le_iff_toNat_le.mp hlow, UInt64.le_iff_toNat_le.mp hroom.base⟩
  · rw [← hgrant]
    exact Nat.le_min.mpr ⟨hhigh, hroom.stop⟩
  · have hne : w ≠ place := fun heq => by
      rw [heq, hnone] at hw
      cases hw
    rw [disjoint_iff (grant_pos hk size) (Word.toNat_pos (hl.nonempty w n hw)), ← hgrant]
    exact hroom.apart w n hw hne

theorem Laid.exists_allocWithin? (hl : h.Laid) (ha : h.Aligned) {low high : Word} {x : Nat}
    (hx : h.Fits (h.grant size) low.toNat high.toNat x) :
    ∃ place h', h.allocWithin? size low high = some (place, h') ∧ place.toNat ≤ x := by
  obtain ⟨k, hk⟩ := ha.power
  have hstop : x + h.grant size ≤ h.stop.toNat := (Nat.le_min.mp hx.high).2
  have hword := h.stop.toNat_lt
  have hgrant : h.roundUp (max size 1).toNat = h.grant size := congrArg _ (toNat_max size 1)
  have hgrantword : h.roundUp (max size 1).toNat < Word.modulus := by
    rw [hgrant]
    exact Nat.lt_of_le_of_lt (by omega) hword
  obtain ⟨granted, hgranted, hbytes⟩ := exists_alignUp? hk hgrantword
  rw [hgrant] at hbytes
  have hfirstle : h.roundUp (max low h.base).toNat ≤ x := roundUp_le hx.aligned (toNat_max low h.base ▸ hx.low)
  obtain ⟨first, hfirst, hround⟩ := exists_alignUp? hk (Nat.lt_of_le_of_lt hfirstle (by unfold Word.modulus; omega))
  have hentries : ∀ e ∈ h.blocks.entries, h.blocks.get? e.1 = some e.2 := fun e he =>
    (h.blocks.get?_eq_some_iff e.1 e.2).mpr he
  have hapart : ∀ e ∈ h.blocks.entries, e.1.toNat + e.2.toNat ≤ x ∨ x + granted.toNat ≤ e.1.toNat := fun e he => by
    have hpos := Word.toNat_pos (hl.nonempty _ _ (hentries e he))
    rw [hbytes]
    exact (disjoint_iff (grant_pos hk size) hpos).mp (hx.free _ _ (hentries e he))
  obtain ⟨place, hplace, hle⟩ := fit?_complete hk (fun e he => (hl.sound e he).2) hx.aligned (hround ▸ hfirstle)
    (by unfold Word.modulus; omega) hapart
  obtain ⟨top, htop⟩ := exists_add? (v := place) (w := granted) (by unfold Word.modulus; omega)
  have hsum := Word.add?_eq_some_iff.mp htop
  have hbound : top ≤ min high h.stop := by
    rw [UInt64.le_iff_toNat_le, toNat_min, ← hsum, hbytes]
    exact Nat.le_trans (Nat.add_le_add_right hle _) hx.high
  refine ⟨place, { h with blocks := h.blocks.insert place granted }, ?_, hle⟩
  unfold allocWithin?
  simp [hgranted, hfirst, hplace, htop, hbound]

/-- A block of which the rounded size ends before the next block starts and before the arena ends is resized. -/
theorem Laid.exists_resize? (hl : h.Laid) (ha : h.Aligned) {address newSize n : Word} (hn : h.blocks.get? address = some n)
    (hstop : address.toNat + h.grant newSize ≤ h.stop.toNat)
    (hnext : ∀ w m, h.blocks.get? w = some m → address < w → address.toNat + h.grant newSize ≤ w.toNat) :
    ∃ granted h', h.resize? address newSize = some (granted, h') := by
  obtain ⟨k, hk⟩ := ha.power
  have hword := h.stop.toNat_lt
  have hgrant : h.roundUp (max newSize 1).toNat = h.grant newSize := congrArg _ (toNat_max newSize 1)
  obtain ⟨granted, hgranted, hbytes⟩ := exists_alignUp? hk (w := max newSize 1) (by unfold Word.modulus; omega)
  rw [hgrant] at hbytes
  obtain ⟨top, htop⟩ := exists_add? (v := address) (w := granted) (by unfold Word.modulus; omega)
  have hsum := Word.add?_eq_some_iff.mp htop
  rw [hbytes] at hsum
  have hlimit : top ≤ (h.blocks.keys.find? (address < ·)).getD h.stop :=
    (hl.le_limit_iff address top).mpr ⟨UInt64.le_iff_toNat_le.mpr (hsum ▸ hstop),
      fun w m hw hlt => UInt64.le_iff_toNat_le.mpr (hsum ▸ hnext w m hw hlt)⟩
  refine ⟨granted, { h with blocks := h.blocks.insert address granted }, ?_⟩
  unfold resize?
  simp [hgranted, hn, htop, hlimit]

theorem Laid.grant_of_resize? (hl : h.Laid) (ha : h.Aligned) {address newSize granted : Word}
    (hresize : h.resize? address newSize = some (granted, h')) :
    granted.toNat = h.grant newSize ∧ h' = { h with blocks := h.blocks.insert address granted } ∧
      h.Room address granted ∧ ∃ n, h.blocks.get? address = some n := by
  obtain ⟨k, hk⟩ := ha.power
  obtain ⟨hh', -, hroom, hblock⟩ := hl.resized hresize
  obtain ⟨size, hgranted, hresize⟩ := Option.bind_eq_some_iff.mp hresize
  obtain ⟨-, -, hresize⟩ := Option.bind_eq_some_iff.mp hresize
  obtain ⟨top, -, hresize⟩ := Option.bind_eq_some_iff.mp hresize
  obtain ⟨-, -, hresize⟩ := Option.bind_eq_some_iff.mp hresize
  cases hresize
  exact ⟨(alignUp?_grant hk).mp hgranted, hh', hroom, hblock⟩

/-- Nothing is resized but a block, and none past the start of the next one or the end of the arena. -/
theorem Laid.resize?_eq_none_iff (hl : h.Laid) (ha : h.Aligned) (address newSize : Word) :
    h.resize? address newSize = none ↔ h.blocks.get? address = none ∨ h.stop.toNat < address.toNat + h.grant newSize ∨
      ∃ w n, h.blocks.get? w = some n ∧ address < w ∧ w.toNat < address.toNat + h.grant newSize := by
  constructor
  · intro hnone
    by_contra hfits
    obtain ⟨hblock, hfits⟩ := not_or.mp hfits
    obtain ⟨hstop, hnext⟩ := not_or.mp hfits
    obtain ⟨n, hn⟩ := Option.ne_none_iff_exists'.mp hblock
    obtain ⟨granted, h', hsome⟩ := hl.exists_resize? ha hn (Nat.not_lt.mp hstop) fun w m hw hlt =>
      Nat.not_lt.mp fun hclash => hnext ⟨w, m, hw, hlt, hclash⟩
    cases hnone.symm.trans hsome
  · intro hclash
    by_contra hsome
    obtain ⟨⟨granted, h'⟩, hresize⟩ := Option.ne_none_iff_exists'.mp hsome
    obtain ⟨hgrant, -, hroom, n, hn⟩ := hl.grant_of_resize? ha hresize
    rcases hclash with hnone | hstop | ⟨w, m, hw, hlt, hclash⟩
    · cases hnone.symm.trans hn
    · exact absurd hroom.stop (by omega)
    · have hlt' := UInt64.lt_iff_toNat_lt.mp hlt
      have hapart := hroom.apart w m hw (UInt64.ne_of_lt hlt).symm
      omega

/-- A block that starts and ends at multiples of the alignment may join the others. -/
theorem Aligned.insert (ha : h.Aligned) (hplace : h.alignment.toNat ∣ place.toNat) (hsize : h.alignment.toNat ∣ size.toNat) :
    { h with blocks := h.blocks.insert place size }.Aligned := by
  refine ⟨ha.power, fun w n hw => ?_, fun w n hw => ?_⟩
  all_goals
    rw [Table.get?_insert] at hw
    split at hw
  · exact ‹w = place› ▸ hplace
  · exact ha.start w n hw
  · exact Option.some.inj hw ▸ hsize
  · exact ha.length w n hw

theorem Aligned.free (ha : h.Aligned) (address : Word) : (h.free address).Aligned :=
  ⟨ha.power, fun w n hw => ha.start w n (get?_of_free hw), fun w n hw => ha.length w n (get?_of_free hw)⟩

end Heap

inductive HeapRequest where
  | alloc (size : Word)
  | allocWithin (size low high : Word)
  | free (address : Word)
  | resize (address newSize : Word)
deriving DecidableEq, Repr

/-- What a request makes of a heap. One that is refused changes nothing. -/
def HeapRequest.perform (h : Heap) : HeapRequest → Heap
  | alloc size => ((h.alloc? size).map (·.2)).getD h
  | allocWithin size low high => ((h.allocWithin? size low high).map (·.2)).getD h
  | free address => h.free address
  | resize address newSize => ((h.resize? address newSize).map (·.2)).getD h

namespace Heap

variable {h h' : Heap} {base size alignment : Word}

def after (h : Heap) (requests : List HeapRequest) : Heap := requests.foldl HeapRequest.perform h

/-- A heap of an arena and an alignment, with its blocks laid out and aligned in it. -/
structure Keeps (base size alignment : Word) (h : Heap) : Prop where
  base : h.base = base
  size : h.size = size
  alignment : h.alignment = alignment
  laid : h.Laid
  aligned : h.Aligned

theorem Keeps.insert (hk : h.Keeps base size alignment) {place granted : Word} (hroom : h.Room place granted)
    (hplace : h.alignment.toNat ∣ place.toNat) (hgranted : h.alignment.toNat ∣ granted.toNat) :
    { h with blocks := h.blocks.insert place granted }.Keeps base size alignment :=
  ⟨hk.base, hk.size, hk.alignment, hk.laid.insert hroom, hk.aligned.insert hplace hgranted⟩

theorem Keeps.allocWithin? (hk : h.Keeps base size alignment) (bytes low high : Word) :
    (((h.allocWithin? bytes low high).map (·.2)).getD h).Keeps base size alignment := by
  cases halloc : h.allocWithin? bytes low high with
  | none => exact hk
  | some found =>
    obtain ⟨place, h'⟩ := found
    obtain ⟨hfits, -, granted, hgrant, hroom, rfl⟩ := hk.laid.fits_of_allocWithin? hk.aligned halloc
    exact hk.insert hroom hfits.aligned (hgrant ▸ dvd_roundUp h _)

theorem Keeps.perform (hk : h.Keeps base size alignment) (q : HeapRequest) : (q.perform h).Keeps base size alignment := by
  cases q with
  | alloc bytes => exact hk.allocWithin? bytes h.base h.stop
  | allocWithin bytes low high => exact hk.allocWithin? bytes low high
  | free address => exact ⟨hk.base, hk.size, hk.alignment, hk.laid.free address, hk.aligned.free address⟩
  | resize address newSize =>
    change (((h.resize? address newSize).map (·.2)).getD h).Keeps base size alignment
    cases hresize : h.resize? address newSize with
    | none => exact hk
    | some found =>
      obtain ⟨granted, h'⟩ := found
      obtain ⟨hgrant, rfl, hroom, n, hn⟩ := hk.laid.grant_of_resize? hk.aligned hresize
      exact hk.insert hroom (hk.aligned.start address n hn) (hgrant ▸ dvd_roundUp h _)

theorem Keeps.after (hk : h.Keeps base size alignment) (requests : List HeapRequest) :
    (h.after requests).Keeps base size alignment := by
  induction requests generalizing h with
  | nil => exact hk
  | cons q rest ih => exact ih (hk.perform q)

theorem makeAligned_keeps (base size : Word) (halignment : alignment.toNat ≤ 2 ^ 63) :
    ∃ made, makeAligned base size alignment = .ok made ∧ made.blocks = ∅ ∧ made.Keeps base size made.alignment ∧
      ∃ k, made.alignment.toNat = 2 ^ k ∧ alignment.toNat ≤ 2 ^ k ∧ ∀ j, alignment.toNat ≤ 2 ^ j → k ≤ j := by
  obtain ⟨k, hpower, hle, hleast⟩ := Word.powerAbove_spec alignment.toNat
  have hlt : Word.powerAbove alignment.toNat < Word.modulus := by
    rw [hpower]
    exact Nat.lt_of_le_of_lt (Nat.pow_le_pow_right (by decide) (hleast 63 halignment)) (by decide)
  have hword : (UInt64.ofNat (Word.powerAbove alignment.toNat)).toNat = 2 ^ k :=
    (UInt64.toNat_ofNat_of_lt hlt).trans hpower
  refine ⟨⟨base, size, .ofNat (Word.powerAbove alignment.toNat), ∅⟩, if_pos hlt, rfl,
    ⟨rfl, rfl, rfl, laid_of_empty rfl, ⟨k, hword⟩, nofun, nofun⟩, k, hword, hle, hleast⟩

/-- The blocks have bytes, start and end at multiples of the alignment, lie in the arena and share no address. -/
structure Tiled (h : Heap) : Prop where
  nonempty : ∀ w n, h.blocks.get? w = some n → n ≠ 0
  aligned : ∀ w n, h.blocks.get? w = some n → h.alignment.toNat ∣ w.toNat ∧ h.alignment.toNat ∣ n.toNat
  inside : ∀ w n, h.blocks.get? w = some n → h.base ≤ w ∧ w.toNat + n.toNat ≤ h.stop.toNat
  disjoint : ∀ w n v m, h.blocks.get? w = some n → h.blocks.get? v = some m → w ≠ v →
    Disjoint (Set.Ico w.toNat (w.toNat + n.toNat)) (Set.Ico v.toNat (v.toNat + m.toNat))

theorem Laid.tiled (hl : h.Laid) (ha : h.Aligned) : h.Tiled where
  nonempty := hl.nonempty
  aligned w n hw := ⟨ha.start w n hw, ha.length w n hw⟩
  inside := hl.inside
  disjoint w n v m hw hv hne := by
    rw [disjoint_iff (Word.toNat_pos (hl.nonempty w n hw)) (Word.toNat_pos (hl.nonempty v m hv))]
    exact (hl.room hw).apart v m hv hne.symm

/-- Whatever a heap was asked for since it was made, its blocks are aligned, lie in the arena and keep apart. A block is made
at the least place where the bytes that are granted fit, and refused only where they fit nowhere. A resize changes one block
alone, and is refused only if there is no such block, or if the rounded size does not fit before the next one or before the
end of the arena. -/
theorem first_fit (base size : Word) (halignment : alignment.toNat ≤ 2 ^ 63) (requests : List HeapRequest) :
    ∃ made, makeAligned base size alignment = .ok made ∧ made.blocks = ∅ ∧
      (∃ k, made.alignment.toNat = 2 ^ k ∧ alignment.toNat ≤ 2 ^ k ∧ ∀ j, alignment.toNat ≤ 2 ^ j → k ≤ j) ∧
      ∃ h, h = made.after requests ∧ h.base = base ∧ h.size = size ∧ h.alignment = made.alignment ∧ h.Tiled ∧
        (∀ bytes low high : Word,
          (h.allocWithin? bytes low high = none ↔ ∀ x, ¬ h.Fits (h.grant bytes) low.toNat high.toNat x) ∧
            ∀ place h', h.allocWithin? bytes low high = some (place, h') →
              IsLeast { x | h.Fits (h.grant bytes) low.toNat high.toNat x } place.toNat ∧
                ∃ granted : Word, granted.toNat = h.grant bytes ∧
                  h' = { h with blocks := h.blocks.insert place granted }) ∧
        ∀ address newSize : Word,
          (h.resize? address newSize = none ↔
            h.blocks.get? address = none ∨ h.stop.toNat < address.toNat + h.grant newSize ∨
              ∃ w n, h.blocks.get? w = some n ∧ address < w ∧ w.toNat < address.toNat + h.grant newSize) ∧
            ∀ granted h', h.resize? address newSize = some (granted, h') →
              granted.toNat = h.grant newSize ∧ h' = { h with blocks := h'.blocks } ∧
                ∀ w, h'.blocks.get? w = if w = address then some granted else h.blocks.get? w := by
  obtain ⟨made, hmade, hempty, hkeeps, hpower⟩ := makeAligned_keeps base size halignment
  obtain ⟨hbase, hsize, halign, hlaid, haligned⟩ := hkeeps.after requests
  refine ⟨made, hmade, hempty, hpower, _, rfl, hbase, hsize, halign, hlaid.tiled haligned, fun bytes low high => ?alloc,
    fun address newSize => ⟨hlaid.resize?_eq_none_iff haligned _ _, fun granted h' hresize => ?resize⟩⟩
  case alloc =>
    refine ⟨⟨fun hnone x hx => ?_, fun hfits => ?_⟩, fun place h' halloc => ?_⟩
    · obtain ⟨place, h', halloc, -⟩ := hlaid.exists_allocWithin? haligned hx
      cases hnone.symm.trans halloc
    · by_contra hsome
      obtain ⟨⟨place, h'⟩, halloc⟩ := Option.ne_none_iff_exists'.mp hsome
      exact hfits _ (hlaid.fits_of_allocWithin? haligned halloc).1
    · obtain ⟨hfits, -, granted, hgrant, -, hh'⟩ := hlaid.fits_of_allocWithin? haligned halloc
      refine ⟨⟨hfits, fun x hx => ?_⟩, granted, hgrant, hh'⟩
      obtain ⟨place', h'', halloc', hle⟩ := hlaid.exists_allocWithin? haligned hx
      cases halloc.symm.trans halloc'
      exact hle
  case resize =>
    obtain ⟨hgrant, rfl, -⟩ := hlaid.grant_of_resize? haligned hresize
    exact ⟨hgrant, rfl, fun w => Table.get?_insert _ _ _ _⟩

/-- Three blocks of an arena, of which the middle one is given back and the first one grows. -/
def shuffling : List HeapRequest :=
  [.alloc 1, .alloc 40, .alloc 32, .free 0x1020, .resize 0x1000 33, .resize 0x1000 97, .allocWithin 1 0x1100 0x1200]

/-- With an alignment of 32, the hole that is left is the least place for a byte, and it is too small for 33. -/
theorem first_fit_shuffling :
    (24 : Word).toNat ≤ 2 ^ 63 ∧ ∃ h : Heap, h.blocks.entries = [(0x1000, 64), (0x1060, 32)] ∧ h.Tiled ∧
      IsLeast { x | h.Fits (h.grant 1) 0 0x2000 x } 0x1040 ∧ (∀ x, ¬ h.Fits (h.grant 33) 0 0x1080 x) ∧
      h.resize? 0x1000 97 = none := by
  have halignment : (24 : Word).toNat ≤ 2 ^ 63 := by decide
  obtain ⟨made, hmade, -, -, h, hh, -, -, -, htiled, halloc, hresize⟩ := first_fit 0x1000 0x100 halignment shuffling
  have hsame : makeAligned 0x1000 0x100 24 = .ok ⟨0x1000, 0x100, 32, ∅⟩ := rfl
  cases hmade.symm.trans hsame
  subst hh
  have hplace : (((Heap.mk 0x1000 0x100 32 ∅).after shuffling).allocWithin? 1 0 0x2000).map (·.1) = some 0x1040 := by
    decide +kernel
  have hnowhere : (((Heap.mk 0x1000 0x100 32 ∅).after shuffling).allocWithin? 33 0 0x1080).map (·.1) = none := by
    decide +kernel
  obtain ⟨⟨place, h'⟩, hmakes, rfl⟩ := Option.map_eq_some_iff.mp hplace
  refine ⟨halignment, _, by decide +kernel, htiled, ?_, ?_, ?_⟩
  · exact ((halloc 1 0 0x2000).2 _ _ hmakes).1
  · exact (halloc 33 0 0x1080).1.mp (Option.map_eq_none_iff.mp hnowhere)
  · exact (hresize 0x1000 97).1.mpr (.inr (.inr ⟨0x1060, 32, by decide +kernel⟩))

end Heap

end RegionGuard

import Mathlib.Data.List.Pairwise
import RegionGuard.Proofs.Arrangements
import RegionGuard.Proofs.IndexKinds
import RegionGuard.Proofs.RegionOrder
set_option autoImplicit false

namespace RegionGuard

namespace Region

variable {l : List Region} {r q : Region} {address : Word}

/-- Regions that have bytes, end at the last word at the latest, and share none of their bytes. -/
structure Spread (l : List Region) : Prop where
  nonempty : ∀ r ∈ l, r.length ≠ 0
  fits : ∀ r ∈ l, r.start.toNat + r.length.toNat < Word.modulus
  apart : l.Pairwise Apart

/-- Some address lies in both regions. -/
def Meets (r q : Region) : Prop := ∃ address, r.containsAddress address = true ∧ q.containsAddress address = true

/-- Where a region ends before the last word, its addresses are so many from its start on. -/
theorem containsAddress_iff (hfits : r.start.toNat + r.length.toNat < Word.modulus) :
    r.containsAddress address = true ↔
      r.start.toNat ≤ address.toNat ∧ address.toNat < r.start.toNat + r.length.toNat := by
  rw [containsAddress_eq_true, UInt64.le_iff_toNat_le, UInt64.lt_iff_toNat_lt, stop_toNat hfits]

theorem overlaps_iff_meets (hr : r.length ≠ 0) (hq : q.length ≠ 0) : r.overlaps q = true ↔ r.Meets q := by
  have hmax : ∀ w : Word, w ≤ Word.maximum := fun w => UInt64.le_iff_toNat_le.mpr (Nat.le_of_lt_succ w.toNat_lt)
  unfold overlaps
  rw [decide_eq_true_iff]
  constructor
  · rintro ⟨hrq, hqr⟩
    -- The one that starts last contains its start, and so does the other.
    by_cases hle : r.start ≤ q.start
    · have hstop := start_lt_stop hq (UInt64.lt_of_lt_of_le hqr (hmax _))
      exact ⟨q.start, containsAddress_eq_true.mpr ⟨hle, hqr⟩, containsAddress_eq_true.mpr ⟨UInt64.le_refl _, hstop⟩⟩
    · have hstop := start_lt_stop hr (UInt64.lt_of_lt_of_le hrq (hmax _))
      have hle := UInt64.le_of_lt (UInt64.not_le.mp hle)
      exact ⟨r.start, containsAddress_eq_true.mpr ⟨UInt64.le_refl _, hstop⟩, containsAddress_eq_true.mpr ⟨hle, hrq⟩⟩
  · rintro ⟨w, hw, hw'⟩
    obtain ⟨hlow, hhigh⟩ := containsAddress_eq_true.mp hw
    obtain ⟨hlow', hhigh'⟩ := containsAddress_eq_true.mp hw'
    exact ⟨UInt64.lt_of_le_of_lt hlow hhigh', UInt64.lt_of_le_of_lt hlow' hhigh⟩

/-- Regions that are spread out end where the next ones start at the latest. -/
theorem Spread.clear (h : Spread l) : ∀ r ∈ l, r.Clear l := by
  have hsymm : Std.Symm Apart := ⟨fun _ _ => Apart.symm⟩
  have hbehind : ∀ r ∈ l, ∀ q ∈ l, r.start < q.start → r.stop ≤ q.start := by
    intro r hr q hq hlt
    have hapart : r.Apart q := h.apart.forall hr hq fun heq => UInt64.ne_of_lt hlt (congrArg _ heq)
    have hpos := Word.toNat_pos (h.nonempty q hq)
    have hlt := UInt64.lt_iff_toNat_lt.mp hlt
    refine UInt64.le_iff_toNat_le.mpr ?_
    rw [stop_toNat (h.fits r hr)]
    unfold Apart at hapart
    omega
  exact fun r hr => ⟨fun q hq => hbehind q hq r hr, fun q hq => hbehind r hr q hq⟩

namespace Rising

theorem filter_append_cons {front back : List Region} (h : Rising (front ++ r :: back)) :
    (front ++ r :: back).filter (fun s => !decide (s.start = r.start)) = front ++ back := by
  obtain ⟨-, hback, hcross⟩ := List.pairwise_append.mp h
  have hfront : front.filter (fun s => !decide (s.start = r.start)) = front :=
    List.filter_eq_self.mpr fun s hs => by simpa using UInt64.ne_of_lt (hcross s hs r List.mem_cons_self)
  have hbehind : back.filter (fun s => !decide (s.start = r.start)) = back :=
    List.filter_eq_self.mpr fun s hs => by simpa using (UInt64.ne_of_lt ((List.pairwise_cons.mp hback).1 s hs)).symm
  rw [List.filter_append, List.filter_cons_of_neg (by simp), hfront, hbehind]

end Rising

end Region

namespace RegionIndex

variable {x : RegionIndex} {r q : Region}

/-- The index that requests make of an empty one, whether they succeed or not. -/
def after (kind : IndexKind) (requests : List IndexRequest) : RegionIndex :=
  requests.foldl (fun x q => (x.perform q).2) (empty kind)

namespace Ordered

theorem after (kind : IndexKind) (requests : List IndexRequest) : (RegionIndex.after kind requests).Ordered := by
  have hfold : ∀ {x : RegionIndex}, x.Ordered → (requests.foldl (fun x q => (x.perform q).2) x).Ordered := by
    induction requests with
    | nil => exact fun h => h
    | cons q rest ih => exact fun h => ih (h.perform q).2.2
  exact hfold (ordered_empty kind)

/-- What is found to overlap a region is tracked, and each of the two starts before the other one ends. -/
theorem overlapping?_sound (h : x.Ordered) (hfound : x.overlapping? q = some r) : r ∈ x.toList ∧ r.overlaps q = true := by
  rw [h.overlapping?_eq] at hfound
  split at hfound
  · cases hfound
  · obtain ⟨hlast, hreaches⟩ := Option.filter_eq_some_iff.mp hfound
    obtain ⟨hmem, hbelow⟩ := List.mem_filter.mp (List.mem_of_getLast? hlast)
    exact ⟨hmem, decide_eq_true ⟨of_decide_eq_true hbelow, of_decide_eq_true hreaches⟩⟩

theorem find?_remove?_cases (h : x.Ordered) (query : Region) (m : MatchMask) :
    ((∀ r ∈ x.toList, ¬ r.AgreesOn m query) ∧ x.find? query m = none ∧ x.remove? query m = none) ∨
      ∃ front r back, x.toList = front ++ r :: back ∧ (∀ s ∈ front, ¬ s.AgreesOn m query) ∧ r.AgreesOn m query ∧
        x.find? query m = some r ∧ ∃ y, x.remove? query m = some (r, y) ∧ y.Ordered ∧ y.toList = front ++ back := by
  rcases h.remove?_cases query m with ⟨hfound, hremove⟩ | ⟨r, y, hfound, hremove, hordered, hlist⟩
  · refine .inl ⟨fun r hr hagrees => ?_, hfound, hremove⟩
    rw [h.find?_eq] at hfound
    exact List.find?_eq_none.mp hfound r hr (Region.agrees_iff.mpr hagrees)
  · have hfirst := (h.find?_eq query m).symm.trans hfound
    obtain ⟨hagrees, front, back, hsplit, hfront⟩ := List.find?_eq_some_iff_append.mp hfirst
    refine .inr ⟨front, r, back, hsplit, fun s hs hs' => ?_, Region.agrees_iff.mp hagrees, hfound, y, hremove, hordered, ?_⟩
    · have := hfront s hs
      rw [Region.agrees_iff.mpr hs'] at this
      cases this
    · rw [hlist, hsplit]
      exact Region.Rising.filter_append_cons (hsplit ▸ h.rising)

end Ordered

/-- The questions that look at one region answer for all of them, in every index that requests lead to, as long as its regions
have bytes, end at the last word at the latest and share none of their bytes. -/
theorem neighbor_queries_exact (kind : IndexKind) (requests : List IndexRequest)
    (spread : Region.Spread (after kind requests).toList) :
    (∀ q : Region, q.length ≠ 0 →
      (((after kind requests).overlapping? q).isSome = true ↔ ∃ r ∈ (after kind requests).toList, r.Meets q) ∧
      ∀ r, (after kind requests).overlapping? q = some r → r ∈ (after kind requests).toList ∧ r.Meets q) ∧
    (∀ (address : Word) (r : Region), (after kind requests).containing? address = some r ↔
      r ∈ (after kind requests).toList ∧ r.start.toNat ≤ address.toNat ∧ address.toNat < r.start.toNat + r.length.toNat) ∧
    (∀ w : Word, ((after kind requests).nextFrom? w = none ↔ ∀ s ∈ (after kind requests).toList, s.start < w) ∧
      ∀ r, (after kind requests).nextFrom? w = some r ↔ r ∈ (after kind requests).toList ∧ w ≤ r.start ∧
        ∀ s ∈ (after kind requests).toList, w ≤ s.start → r.start ≤ s.start) ∧
    (after kind requests).toList.Pairwise (fun r s => r.start < s.start) ∧
    ∀ (query : Region) (m : MatchMask),
      ((∀ r ∈ (after kind requests).toList, ¬ r.AgreesOn m query) ∧ (after kind requests).find? query m = none ∧
        (after kind requests).remove? query m = none) ∨
      ∃ front r back, (after kind requests).toList = front ++ r :: back ∧ (∀ s ∈ front, ¬ s.AgreesOn m query) ∧
        r.AgreesOn m query ∧ (after kind requests).find? query m = some r ∧
        ∃ y, (after kind requests).remove? query m = some (r, y) ∧ y.Ordered ∧ y.toList = front ++ back := by
  have ordered := Ordered.after kind requests
  refine ⟨fun q hq => ?overlap, fun address r => ?containing, fun w => ⟨ordered.nextFrom?_eq_none_iff, fun r => ?next⟩,
    ordered.rising, ordered.find?_remove?_cases⟩
  case overlap =>
    have meets : ∀ {r}, r ∈ (after kind requests).toList → (r.overlaps q = true ↔ r.Meets q) :=
      fun hr => Region.overlaps_iff_meets (spread.nonempty _ hr) hq
    have sound : ∀ r, (after kind requests).overlapping? q = some r → r ∈ (after kind requests).toList ∧ r.Meets q :=
      fun r hfound => (ordered.overlapping?_sound hfound).imp_right (meets (ordered.overlapping?_sound hfound).1).mp
    refine ⟨⟨fun hsome => ?_, fun ⟨r, hr, hmeets⟩ => ?_⟩, sound⟩
    · obtain ⟨r, hfound⟩ := Option.isSome_iff_exists.mp hsome
      exact ⟨r, sound r hfound⟩
    · exact ordered.overlapping?_complete spread.clear hq hr ((meets hr).mpr hmeets)
  case containing =>
    constructor
    · intro hfound
      obtain ⟨hr, hcontains⟩ := mem_of_containing? hfound
      exact ⟨hr, (Region.containsAddress_iff (spread.fits r hr)).mp hcontains⟩
    · rintro ⟨hr, hcontains⟩
      exact ordered.containing?_complete spread.clear hr ((Region.containsAddress_iff (spread.fits r hr)).mpr hcontains)
  case next => exact ordered.nextFrom?_eq_some_iff

def touching : List IndexRequest :=
  [.insert (.make 0x2000 0x1000 .none), .insert (.make 0x1000 0x1000 .none), .insert (.make (Word.maximum - 16) 16 .none)]

/-- Where one region ends and the next one starts, the questions tell the two apart. -/
theorem neighbor_queries_exact_touching :
    Region.Spread (after .sorted touching).toList ∧
      (after .sorted touching).containing? 0x2000 = some (.make 0x2000 0x1000 .none) ∧
      (∀ r ∈ (after .sorted touching).toList, ¬ r.Meets (.make 0x3000 0x100 .none)) ∧
      (after .sorted touching).nextFrom? 0x2001 = some (.make (Word.maximum - 16) 16 .none) := by
  have spread : Region.Spread (after .sorted touching).toList :=
    ⟨by decide +kernel, by decide +kernel, by unfold Region.Apart; decide +kernel⟩
  obtain ⟨hoverlap, hcontaining, hnext, -⟩ := neighbor_queries_exact .sorted touching spread
  refine ⟨spread, (hcontaining _ _).mpr (by decide +kernel), fun r hr hmeets => ?_, ((hnext _).2 _).mpr (by decide +kernel)⟩
  have hsome := (hoverlap (.make 0x3000 0x100 .none) (by decide)).1.mpr ⟨r, hr, hmeets⟩
  exact absurd hsome (by decide +kernel)

end RegionIndex

end RegionGuard

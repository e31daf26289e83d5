import RegionGuard.Heap
set_option autoImplicit false

namespace RegionGuard

namespace Table

variable {κ α : Type} [Ord κ] [Std.TransOrd κ] [Std.LawfulEqOrd κ] [DecidableEq κ]

theorem filter_insertEntry {k : κ} {v : α} {l : List (κ × α)} (fresh : ∀ e ∈ l, e.1 ≠ k) :
    (insertEntry k v l).filter (fun e => !(e.1 == k)) = l := by
  have hkeep : l.filter (fun e => !(e.1 == k)) = l := List.filter_eq_self.mpr fun e he => by simpa using fresh e he
  induction l with
  | nil => simp [insertEntry]
  | cons d rest ih =>
    have hd : d.1 ≠ k := fresh d List.mem_cons_self
    simp only [insertEntry]
    split
    · rw [List.filter_cons_of_neg (by simp), hkeep]
    · rename_i heq
      exact absurd (Std.LawfulEqCmp.eq_of_compare heq).symm hd
    · rw [List.filter_cons_of_pos (by simpa using hd)] at hkeep ⊢
      rw [ih (fun e he => fresh e (List.mem_cons_of_mem _ he)) (List.cons.inj hkeep).2]

omit [Std.TransOrd κ] [Std.LawfulEqOrd κ] [DecidableEq κ] in
theorem mem_insertEntry {k : κ} {v : α} {e : κ × α} {l : List (κ × α)} (h : e ∈ insertEntry k v l) :
    e = (k, v) ∨ e ∈ l := by
  induction l with
  | nil => exact .inl (List.mem_singleton.mp h)
  | cons d rest ih =>
    simp only [insertEntry] at h
    split at h
    · exact List.mem_cons.mp h
    · exact (List.mem_cons.mp h).imp_right (List.mem_cons_of_mem d)
    · rcases List.mem_cons.mp h with rfl | h
      · exact .inr List.mem_cons_self
      · exact (ih h).imp_right (List.mem_cons_of_mem d)

theorem erase_insert {t : Table κ α} {k : κ} (fresh : ∀ e ∈ t.entries, e.1 ≠ k) (v : α) :
    (t.insert k v).erase k = t :=
  Table.ext (filter_insertEntry fresh)

end Table

namespace Word

/-- The bits inside a mask and those outside make up a word. -/
theorem toNat_le_clear_add (w m : Word) : w.toNat ≤ (w &&& ~~~m).toNat + m.toNat := by
  have hsplit : w.toBitVec = (w.toBitVec &&& ~~~m.toBitVec) + (w.toBitVec &&& m.toBitVec) := by
    rw [BitVec.add_eq_or_of_and_eq_zero]
    · ext i hi
      cases h : w.toBitVec[i] <;> simp [h]
    · ext i hi
      cases h : w.toBitVec[i] <;> simp [h]
  have hsum := congrArg BitVec.toNat hsplit
  rw [BitVec.toNat_add] at hsum
  calc w.toNat = ((w &&& ~~~m).toNat + (w &&& m).toNat) % 2 ^ 64 := hsum
    _ ≤ (w &&& ~~~m).toNat + (w &&& m).toNat := Nat.mod_le _ _
    _ ≤ (w &&& ~~~m).toNat + m.toNat := Nat.add_le_add_left (by rw [UInt64.toNat_and]; exact Nat.and_le_right) _

end Word

namespace Heap

variable {h h' : Heap} {size place : Word}

theorem le_of_alignUp? {w v : Word} (hv : h.alignUp? w = some v) : w ≤ v := by
  obtain ⟨top, htop, hmask⟩ := Option.bind_eq_some_iff.mp hv
  cases hmask
  have hsum := Word.add?_eq_some_iff.mp htop
  have := Word.toNat_le_clear_add top (h.alignment - 1)
  rw [UInt64.le_iff_toNat_le]
  omega

theorem granted_spec {granted : Word} (h : h.alignUp? (max size 1) = some granted) : size ≤ granted ∧ granted ≠ 0 := by
  have hmax := le_of_alignUp? h
  have hdef : max size 1 = if size ≤ 1 then 1 else size := rfl
  have hsize : size ≤ max size 1 ∧ 1 ≤ max size 1 := by
    rw [hdef]
    split
    · exact ⟨‹_›, UInt64.le_refl _⟩
    · exact ⟨UInt64.le_refl _, UInt64.le_of_lt (UInt64.not_le.mp ‹_›)⟩
  refine ⟨UInt64.le_trans hsize.1 hmax, fun hzero => ?_⟩
  have := UInt64.le_trans hsize.2 (hzero ▸ hmax)
  simp at this

def Sound (h : Heap) : Prop := ∀ e ∈ h.blocks.entries, e.2 ≠ 0 ∧ e.1.toNat + e.2.toNat < Word.modulus

theorem Sound.insert (hs : h.Sound) (hsize : size ≠ 0) (hfits : place.toNat + size.toNat < Word.modulus) :
    { h with blocks := h.blocks.insert place size }.Sound := by
  intro e he
  rcases Table.mem_insertEntry he with rfl | he
  · exact ⟨hsize, hfits⟩
  · exact hs e he

/-- A place where bytes fit in front of, between or behind blocks is the start of none of them. -/
theorem fit?_fresh (hsize : size ≠ 0) {l : List (Word × Word)} {candidate : Word}
    (hsorted : l.Pairwise fun a b => compare a.1 b.1 = .lt)
    (hsound : ∀ e ∈ l, e.2 ≠ 0 ∧ e.1.toNat + e.2.toNat < Word.modulus)
    (hfit : h.fit? size candidate l = some place) : candidate ≤ place ∧ ∀ e ∈ l, e.1 ≠ place := by
  induction l generalizing candidate with
  | nil =>
    cases hfit
    exact ⟨UInt64.le_refl _, fun _ he => (List.not_mem_nil he).elim⟩
  | cons e rest ih =>
    obtain ⟨start, length⟩ := e
    obtain ⟨hfirst, hrest⟩ := List.pairwise_cons.mp hsorted
    have ⟨(hlength : length ≠ 0), (hends : start.toNat + length.toNat < Word.modulus)⟩ := hsound _ List.mem_cons_self
    have ih := fun c : Word => @ih c hrest fun e he => hsound e (List.mem_cons_of_mem _ he)
    have hpos := Word.toNat_pos hlength
    have hstop : start < start + length := by
      rw [UInt64.lt_iff_toNat_lt, UInt64.toNat_add, Nat.mod_eq_of_lt (show _ < 2 ^ 64 from hends)]
      omega
    unfold fit? at hfit
    split at hfit
    · rename_i hbefore
      obtain ⟨hle, hfresh⟩ := ih candidate hfit
      refine ⟨hle, List.forall_mem_cons.mpr ⟨UInt64.ne_of_lt ?_, hfresh⟩⟩
      exact UInt64.lt_of_lt_of_le hstop (UInt64.le_trans hbefore hle)
    · rename_i hbehind
      obtain ⟨top, htop, hfit⟩ := Option.bind_eq_some_iff.mp hfit
      split at hfit
      · rename_i hroom
        cases hfit
        have hsum := Word.add?_eq_some_iff.mp htop
        have hsizepos := Word.toNat_pos hsize
        have hfront : place < start := by
          rw [UInt64.lt_iff_toNat_lt]
          have := UInt64.le_iff_toNat_le.mp hroom
          omega
        refine ⟨UInt64.le_refl _, List.forall_mem_cons.mpr ⟨(UInt64.ne_of_lt hfront).symm, fun e he => ?_⟩⟩
        exact (UInt64.ne_of_lt (UInt64.lt_trans hfront (Std.compare_eq_lt.mp (hfirst e he)))).symm
      · obtain ⟨next, hnext, hfit⟩ := Option.bind_eq_some_iff.mp hfit
        obtain ⟨hle, hfresh⟩ := ih next hfit
        have hle := UInt64.le_trans (le_of_alignUp? hnext) hle
        refine ⟨?_, List.forall_mem_cons.mpr ⟨UInt64.ne_of_lt (UInt64.lt_of_lt_of_le hstop hle), hfresh⟩⟩
        exact UInt64.le_trans (UInt64.le_of_lt (UInt64.not_le.mp hbehind)) hle

theorem allocWithin?_eq {low high : Word} (hs : h.Sound) (halloc : h.allocWithin? size low high = some (place, h')) :
    ∃ granted, h' = { h with blocks := h.blocks.insert place granted } ∧ granted ≠ 0 ∧
      place.toNat + granted.toNat < Word.modulus ∧ ∀ e ∈ h.blocks.entries, e.1 ≠ place := by
  obtain ⟨granted, hgranted, halloc⟩ := Option.bind_eq_some_iff.mp halloc
  obtain ⟨first, -, halloc⟩ := Option.bind_eq_some_iff.mp halloc
  obtain ⟨found, hfound, halloc⟩ := Option.bind_eq_some_iff.mp halloc
  obtain ⟨top, htop, halloc⟩ := Option.bind_eq_some_iff.mp halloc
  obtain ⟨-, -, halloc⟩ := Option.bind_eq_some_iff.mp halloc
  cases halloc
  have hone := (granted_spec hgranted).2
  refine ⟨granted, rfl, hone, ?_, (fit?_fresh hone h.blocks.sorted hs hfound).2⟩
  have := Word.add?_eq_some_iff.mp htop
  have := top.toNat_lt
  unfold Word.modulus
  omega

/-- Bytes that were asked for end before the last address. -/
theorem fits_of_allocWithin? {low high : Word} (halloc : h.allocWithin? size low high = some (place, h')) :
    place.toNat + size.toNat < Word.modulus := by
  obtain ⟨granted, hgranted, halloc⟩ := Option.bind_eq_some_iff.mp halloc
  obtain ⟨first, -, halloc⟩ := Option.bind_eq_some_iff.mp halloc
  obtain ⟨found, -, halloc⟩ := Option.bind_eq_some_iff.mp halloc
  obtain ⟨top, htop, halloc⟩ := Option.bind_eq_some_iff.mp halloc
  obtain ⟨-, -, halloc⟩ := Option.bind_eq_some_iff.mp halloc
  cases halloc
  have hsum := Word.add?_eq_some_iff.mp htop
  have hsize := UInt64.le_iff_toNat_le.mp (granted_spec hgranted).1
  have := top.toNat_lt
  change place.toNat + size.toNat < 2 ^ 64
  omega

/-- Giving a new block back undoes taking it. -/
theorem free_of_allocWithin? {low high : Word} (hs : h.Sound)
    (halloc : h.allocWithin? size low high = some (place, h')) : h'.free place = h := by
  obtain ⟨granted, rfl, -, -, hfresh⟩ := allocWithin?_eq hs halloc
  unfold free
  rw [Table.erase_insert hfresh]

theorem Sound.allocWithin? {low high : Word} (hs : h.Sound)
    (halloc : h.allocWithin? size low high = some (place, h')) : h'.Sound := by
  obtain ⟨granted, rfl, hone, hfits, -⟩ := allocWithin?_eq hs halloc
  exact hs.insert hone hfits

theorem Sound.free (hs : h.Sound) (address : Word) : (h.free address).Sound :=
  fun e he => hs e (List.mem_filter.mp he).1

theorem resize?_eq {address granted : Word} (hresize : h.resize? address size = some (granted, h')) :
    h' = { h with blocks := h.blocks.insert address granted } ∧ size ≤ granted ∧ granted ≠ 0 ∧
      address.toNat + granted.toNat < Word.modulus := by
  obtain ⟨found, hgranted, hresize⟩ := Option.bind_eq_some_iff.mp hresize
  obtain ⟨-, -, hresize⟩ := Option.bind_eq_some_iff.mp hresize
  obtain ⟨top, htop, hresize⟩ := Option.bind_eq_some_iff.mp hresize
  obtain ⟨-, -, hresize⟩ := Option.bind_eq_some_iff.mp hresize
  cases hresize
  obtain ⟨hle, hne⟩ := granted_spec hgranted
  have := Word.add?_eq_some_iff.mp htop
  have := top.toNat_lt
  refine ⟨rfl, hle, hne, ?_⟩
  unfold Word.modulus
  omega

theorem Sound.resize? {address granted : Word} (hs : h.Sound)
    (hresize : h.resize? address size = some (granted, h')) : h'.Sound := by
  obtain ⟨rfl, -, hne, hfits⟩ := resize?_eq hresize
  exact hs.insert hne hfits

end Heap

end RegionGuard

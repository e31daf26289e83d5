import RegionGuard.Heap
import RegionGuard.Proofs.Entries
import RegionGuard.Proofs.HeapBlocks
import RegionGuard.Proofs.Outcomes
set_option autoImplicit false

namespace RegionGuard

namespace Heap

variable {h h' : Heap} {size place : Word}

def covers (h : Heap) (address : Word) : Bool := h.base ≤ address ∧ address < h.stop

/-- Every block has bytes, lies in the arena, and ends where the next one starts at the latest. -/
structure Laid (h : Heap) : Prop where
  nonempty : ∀ w n, h.blocks.get? w = some n → n ≠ 0
  inside : ∀ w n, h.blocks.get? w = some n → h.base ≤ w ∧ w.toNat + n.toNat ≤ h.stop.toNat
  apart : ∀ w n v m, h.blocks.get? w = some n → h.blocks.get? v = some m → w < v → w.toNat + n.toNat ≤ v.toNat

/-- Bytes of the arena that no block uses, but for the one that starts where they do. -/
structure Room (h : Heap) (place size : Word) : Prop where
  nonempty : size ≠ 0
  base : h.base ≤ place
  stop : place.toNat + size.toNat ≤ h.stop.toNat
  apart : ∀ w n, h.blocks.get? w = some n → w ≠ place →
    w.toNat + n.toNat ≤ place.toNat ∨ place.toNat + size.toNat ≤ w.toNat

theorem laid_of_empty (hempty : h.blocks = ∅) : h.Laid := by
  have hnone : ∀ w n, h.blocks.get? w ≠ some n := by
    rw [hempty]
    exact nofun
  exact ⟨fun w n hw => absurd hw (hnone w n), fun w n hw => absurd hw (hnone w n), fun w n v m hw => absurd hw (hnone w n)⟩

theorem Room.fits (hr : h.Room place size) : place.toNat + size.toNat < Word.modulus :=
  Nat.lt_of_le_of_lt hr.stop h.stop.toNat_lt

theorem Room.covers (hr : h.Room place size) {w : Word} (hle : place ≤ w) (hlt : w.toNat < place.toNat + size.toNat) :
    h.covers w = true := by
  refine decide_eq_true ⟨UInt64.le_trans hr.base hle, UInt64.lt_iff_toNat_lt.mpr ?_⟩
  exact Nat.lt_of_lt_of_le hlt hr.stop

theorem Room.covers_place (hr : h.Room place size) : h.covers place = true :=
  hr.covers (UInt64.le_refl _) (Nat.lt_add_of_pos_right (Word.toNat_pos hr.nonempty))

/-- What is left when a block is given back was there before. -/
theorem get?_of_free {address w n : Word} (hw : (h.free address).blocks.get? w = some n) : h.blocks.get? w = some n := by
  change (h.blocks.erase address).get? w = some n at hw
  rw [Table.get?_erase] at hw
  split at hw
  · cases hw
  · exact hw

namespace Laid

theorem room (hl : h.Laid) {n : Word} (hw : h.blocks.get? place = some n) : h.Room place n where
  nonempty := hl.nonempty place n hw
  base := (hl.inside place n hw).1
  stop := (hl.inside place n hw).2
  apart v m hv hne := by
    rcases UInt64.lt_or_lt_of_ne hne with hlt | hlt
    · exact .inl (hl.apart v m place n hv hw hlt)
    · exact .inr (hl.apart place n v m hw hv hlt)

theorem sound (hl : h.Laid) : h.Sound := fun e he =>
  have hw := (h.blocks.get?_eq_some_iff e.1 e.2).mpr he
  ⟨hl.nonempty _ _ hw, (hl.room hw).fits⟩

theorem insert (hl : h.Laid) (hr : h.Room place size) : { h with blocks := h.blocks.insert place size }.Laid where
  nonempty w n hw := by
    rw [Table.get?_insert] at hw
    split at hw
    · exact Option.some.inj hw ▸ hr.nonempty
    · exact hl.nonempty w n hw
  inside w n hw := by
    rw [Table.get?_insert] at hw
    split at hw
    · rename_i heq
      rw [heq, ← Option.some.inj hw]
      exact ⟨hr.base, hr.stop⟩
    · exact hl.inside w n hw
  apart w n v m hw hv hlt := by
    rw [Table.get?_insert] at hw hv
    have hnat := UInt64.lt_iff_toNat_lt.mp hlt
    split at hw <;> split at hv
    · rename_i hwp hvp
      exact absurd (hwp ▸ hvp ▸ hlt) (UInt64.lt_irrefl _)
    · rename_i hwp hvp
      cases hw
      have := hr.apart v m hv hvp
      rw [hwp] at hnat ⊢
      omega
    · rename_i hwp hvp
      cases hv
      have := hr.apart w n hw hwp
      have := Word.toNat_pos hr.nonempty
      rw [hvp] at hnat ⊢
      omega
    · exact hl.apart w n v m hw hv hlt

theorem free (hl : h.Laid) (address : Word) : (h.free address).Laid where
  nonempty w n hw := hl.nonempty w n (get?_of_free hw)
  inside w n hw := hl.inside w n (get?_of_free hw)
  apart w n v m hw hv := hl.apart w n v m (get?_of_free hw) (get?_of_free hv)

end Laid

/-- A place that is found lies behind the candidate, and bytes there keep apart from all blocks. -/
theorem fit?_apart {l : List (Word × Word)} {candidate : Word}
    (hrising : l.Pairwise fun a b => a.1.toNat + a.2.toNat ≤ b.1.toNat)
    (hends : ∀ e ∈ l, e.1.toNat + e.2.toNat < Word.modulus) (hfit : h.fit? size candidate l = some place) :
    candidate ≤ place ∧ ∀ e ∈ l, e.1.toNat + e.2.toNat ≤ place.toNat ∨ place.toNat + size.toNat ≤ e.1.toNat := by
  induction l generalizing candidate with
  | nil =>
    cases hfit
    exact ⟨UInt64.le_refl _, fun _ he => (List.not_mem_nil he).elim⟩
  | cons e rest ih =>
    obtain ⟨start, length⟩ := e
    obtain ⟨hfirst, hrest⟩ := List.pairwise_cons.mp hrising
    have ih := fun c : Word => @ih c hrest fun e he => hends e (List.mem_cons_of_mem _ he)
    have hstop : (start + length).toNat = start.toNat + length.toNat := by
      rw [UInt64.toNat_add]
      exact Nat.mod_eq_of_lt (hends _ List.mem_cons_self)
    unfold fit? at hfit
    split at hfit
    · rename_i hbefore
      obtain ⟨hle, hapart⟩ := ih candidate hfit
      have hbefore := UInt64.le_iff_toNat_le.mp hbefore
      have hlenat := UInt64.le_iff_toNat_le.mp hle
      exact ⟨hle, List.forall_mem_cons.mpr ⟨.inl (by dsimp only; omega), hapart⟩⟩
    · rename_i hbehind
      obtain ⟨top, htop, hfit⟩ := Option.bind_eq_some_iff.mp hfit
      have hsum := Word.add?_eq_some_iff.mp htop
      split at hfit
      · -- The bytes end in front of this block, and so in front of all later ones.
        rename_i hroom
        cases hfit
        have hroom := UInt64.le_iff_toNat_le.mp hroom
        refine ⟨UInt64.le_refl _, List.forall_mem_cons.mpr ⟨.inr (by dsimp only; omega), fun e he => .inr ?_⟩⟩
        have := hfirst e he
        dsimp only at this
        omega
      · obtain ⟨next, hnext, hfit⟩ := Option.bind_eq_some_iff.mp hfit
        obtain ⟨hle, hapart⟩ := ih next hfit
        have hnextle := UInt64.le_iff_toNat_le.mp (le_of_alignUp? hnext)
        have hbehind := UInt64.lt_iff_toNat_lt.mp (UInt64.not_le.mp hbehind)
        have hlenat := UInt64.le_iff_toNat_le.mp hle
        refine ⟨UInt64.le_iff_toNat_le.mpr (by omega), List.forall_mem_cons.mpr ⟨.inl (by dsimp only; omega), hapart⟩⟩

theorem le_max {v w : Word} : v ≤ max v w ∧ w ≤ max v w := by
  have hmax : max v w = if v ≤ w then w else v := rfl
  rw [hmax]
  split
  · exact ⟨‹_›, UInt64.le_refl _⟩
  · exact ⟨UInt64.le_refl _, UInt64.le_of_lt (UInt64.not_le.mp ‹_›)⟩

theorem min_le {v w : Word} : min v w ≤ v ∧ min v w ≤ w := by
  have hmin : min v w = if v ≤ w then v else w := rfl
  rw [hmin]
  split
  · exact ⟨UInt64.le_refl _, ‹_›⟩
  · exact ⟨UInt64.le_of_lt (UInt64.not_le.mp ‹_›), UInt64.le_refl _⟩

/-- A new block is made where no block was, in room between the bounds. -/
theorem Laid.granted {low high : Word} (hl : h.Laid) (halloc : h.allocWithin? size low high = some (place, h')) :
    ∃ granted, h' = { h with blocks := h.blocks.insert place granted } ∧ size ≤ granted ∧ h.Room place granted ∧
      h.blocks.get? place = none ∧ low ≤ place ∧ place.toNat + granted.toNat ≤ high.toNat := by
  obtain ⟨granted, hgranted, halloc⟩ := Option.bind_eq_some_iff.mp halloc
  obtain ⟨first, hfirst, halloc⟩ := Option.bind_eq_some_iff.mp halloc
  obtain ⟨found, hfound, halloc⟩ := Option.bind_eq_some_iff.mp halloc
  obtain ⟨top, htop, halloc⟩ := Option.bind_eq_some_iff.mp halloc
  obtain ⟨_, hguard, halloc⟩ := Option.bind_eq_some_iff.mp halloc
  cases halloc
  obtain ⟨hsize, hone⟩ := granted_spec hgranted
  have hentries : ∀ e ∈ h.blocks.entries, h.blocks.get? e.1 = some e.2 := fun e he =>
    (h.blocks.get?_eq_some_iff e.1 e.2).mpr he
  have hrising : h.blocks.entries.Pairwise fun a b => a.1.toNat + a.2.toNat ≤ b.1.toNat :=
    h.blocks.sorted.imp_of_mem fun ha hb hlt =>
      hl.apart _ _ _ _ (hentries _ ha) (hentries _ hb) (Std.compare_eq_lt.mp hlt)
  obtain ⟨hcandidate, hapart⟩ := fit?_apart hrising (fun e he => (hl.sound e he).2) hfound
  have hplace : max low h.base ≤ place := UInt64.le_trans (le_of_alignUp? hfirst) hcandidate
  have hsum := Word.add?_eq_some_iff.mp htop
  have hbound : top ≤ min high h.stop := of_guard hguard
  have hroom : h.Room place granted := by
    refine ⟨hone, UInt64.le_trans le_max.2 hplace, ?_, fun w n hw _ => ?_⟩
    · rw [hsum]
      exact UInt64.le_iff_toNat_le.mp (UInt64.le_trans hbound min_le.2)
    · exact hapart (w, n) ((h.blocks.get?_eq_some_iff w n).mp hw)
  refine ⟨granted, rfl, hsize, hroom, ?_, UInt64.le_trans le_max.1 hplace, ?_⟩
  · cases hused : h.blocks.get? place with
    | none => rfl
    | some n =>
      have hclash : place.toNat + n.toNat ≤ place.toNat ∨ place.toNat + granted.toNat ≤ place.toNat :=
        hapart (place, n) ((h.blocks.get?_eq_some_iff place n).mp hused)
      have := Word.toNat_pos (hl.nonempty place n hused)
      have := Word.toNat_pos hone
      omega
  · rw [hsum]
    exact UInt64.le_iff_toNat_le.mp (UInt64.le_trans hbound min_le.1)

/-- A block may end where the next one starts and where the arena ends, at the latest. -/
theorem Laid.le_limit_iff (hl : h.Laid) (address top : Word) :
    top ≤ (h.blocks.keys.find? (address < ·)).getD h.stop ↔
      top ≤ h.stop ∧ ∀ w n, h.blocks.get? w = some n → address < w → top ≤ w := by
  cases hnext : h.blocks.keys.find? (address < ·) with
  | none =>
    refine ⟨fun hbound => ⟨hbound, fun w m hw hlt => ?_⟩, fun hbound => hbound.1⟩
    have := List.find?_eq_none.mp hnext w (Table.mem_keys_iff.mpr (Option.isSome_iff_exists.mpr ⟨m, hw⟩))
    exact absurd hlt (by simpa using this)
  | some next =>
    obtain ⟨hbehind, front, back, hkeys, hfront⟩ := List.find?_eq_some_iff_append.mp hnext
    obtain ⟨m, hm⟩ := Option.isSome_iff_exists.mp (Table.mem_keys_iff.mp (List.mem_of_find?_eq_some hnext))
    rw [Option.getD_some]
    refine ⟨fun hbound => ⟨?_, fun w n hw hlt => ?_⟩, fun hbound => hbound.2 next m hm (of_decide_eq_true hbehind)⟩
    · have := (hl.inside next m hm).2
      exact UInt64.le_trans hbound (UInt64.le_iff_toNat_le.mpr (by omega))
    · refine UInt64.le_trans hbound ?_
      have hmem : w ∈ h.blocks.keys := Table.mem_keys_iff.mpr (Option.isSome_iff_exists.mpr ⟨n, hw⟩)
      have hsorted : h.blocks.keys.Pairwise fun a b => compare a b = .lt := List.pairwise_map.mpr h.blocks.sorted
      rw [hkeys] at hmem hsorted
      rcases List.mem_append.mp hmem with hmem | hmem
      · exact absurd hlt (by simpa using hfront w hmem)
      · rcases List.mem_cons.mp hmem with rfl | hmem
        · exact UInt64.le_refl _
        · have hrest := (List.pairwise_cons.mp (List.pairwise_append.mp hsorted).2.1).1 w hmem
          exact UInt64.le_of_lt (Std.compare_eq_lt.mp hrest)

theorem Laid.resized {address newSize granted : Word} (hl : h.Laid)
    (hresize : h.resize? address newSize = some (granted, h')) :
    h' = { h with blocks := h.blocks.insert address granted } ∧ newSize ≤ granted ∧ h.Room address granted ∧
      ∃ n, h.blocks.get? address = some n := by
  obtain ⟨found, hgranted, hresize⟩ := Option.bind_eq_some_iff.mp hresize
  obtain ⟨n, hn, hresize⟩ := Option.bind_eq_some_iff.mp hresize
  obtain ⟨top, htop, hresize⟩ := Option.bind_eq_some_iff.mp hresize
  obtain ⟨_, hguard, hresize⟩ := Option.bind_eq_some_iff.mp hresize
  cases hresize
  have hbound : top ≤ (h.blocks.keys.find? (address < ·)).getD h.stop := of_guard hguard
  have hsum := Word.add?_eq_some_iff.mp htop
  obtain ⟨hsize, hone⟩ := granted_spec hgranted
  have hlimit := (hl.le_limit_iff address top).mp hbound
  refine ⟨rfl, hsize, ⟨hone, (hl.inside address n hn).1, ?_, fun w m hw hne => ?_⟩, n, hn⟩
  · rw [hsum]
    exact UInt64.le_iff_toNat_le.mp hlimit.1
  · rcases UInt64.lt_or_lt_of_ne hne with hlt | hlt
    · exact .inl (hl.apart w m address n hw hn hlt)
    · refine .inr ?_
      rw [hsum]
      exact UInt64.le_iff_toNat_le.mp (hlimit.2 w m hw hlt)

end Heap

end RegionGuard

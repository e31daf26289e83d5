import RegionGuard.Proofs.GrantedProtections
set_option autoImplicit false

namespace RegionGuard

open Stateful

theorem Word.le_addSaturating (v w : Word) : v ≤ Word.addSaturating v w := by
  unfold Word.addSaturating
  cases h : Word.add? v w with
  | none => exact UInt64.le_iff_toNat_le.mpr (Nat.le_of_lt_succ v.toNat_lt)
  | some sum =>
    have := Word.add?_eq_some_iff.mp h
    refine UInt64.le_iff_toNat_le.mpr ?_
    change v.toNat ≤ sum.toNat
    omega

namespace Region

variable {l l' l'' : List Region} {r s : Region} {moves moves' : List (Word × Word)}

theorem start_le_stop (r : Region) : r.start ≤ r.stop := Word.le_addSaturating _ _

/-- A region that has bytes contains its start, unless that is the last word. -/
theorem start_lt_stop (hlength : r.length ≠ 0) (hlt : r.start < Word.maximum) : r.start < r.stop := by
  unfold stop Word.addSaturating
  cases hsum : Word.add? r.start r.length with
  | none => exact hlt
  | some sum =>
    have := Word.add?_eq_some_iff.mp hsum
    have := Word.toNat_pos hlength
    refine UInt64.lt_iff_toNat_lt.mpr ?_
    change r.start.toNat < sum.toNat
    omega

theorem containsAddress_eq_true {address : Word} :
    r.containsAddress address = true ↔ r.start ≤ address ∧ address < r.stop :=
  decide_eq_true_iff

/-- A region is clear of others if it starts where those in front have ended, and ends where those behind start. -/
structure Clear (r : Region) (l : List Region) : Prop where
  front : ∀ s ∈ l, s.start < r.start → s.stop ≤ r.start
  behind : ∀ s ∈ l, r.start < s.start → r.stop ≤ s.start

theorem Rising.stop_le_last (h : Rising l) (hclear : ∀ r ∈ l, r.Clear l) {p : Region → Bool} {last : Region}
    (hlast : (l.filter p).getLast? = some last) (hr : r ∈ l) (hp : p r = true) : r.stop ≤ last.stop := by
  rcases Rising.eq_or_lt_last (h.filter p) hlast (List.mem_filter.mpr ⟨hr, hp⟩) with rfl | hlt
  · exact UInt64.le_refl _
  · have hmem := (List.mem_filter.mp (List.mem_of_getLast? hlast)).1
    exact UInt64.le_trans ((hclear r hr).behind last hmem hlt) last.start_le_stop

def carried (moves : List (Word × Word)) (start : Word) : Word :=
  moves.foldl (fun w m => if w = m.1 then m.2 else w) start

theorem carried_append (moves moves' : List (Word × Word)) (start : Word) :
    carried (moves ++ moves') start = carried moves' (carried moves start) := List.foldl_append

structure Drift (l : List Region) (moves : List (Word × Word)) (l' : List Region) : Prop where
  goes : ∀ r ∈ l, ∃ r' ∈ l', r'.start = carried moves r.start ∧ r.Heeds r'
  comes : ∀ r' ∈ l', ∃ r ∈ l, r'.start = carried moves r.start ∧ r.Heeds r'

namespace Drift

theorem refl (l : List Region) : Drift l [] l :=
  ⟨fun r hr => ⟨r, hr, rfl, .refl r⟩, fun r hr => ⟨r, hr, rfl, .refl r⟩⟩

theorem trans (h : Drift l moves l') (h' : Drift l' moves' l'') : Drift l (moves ++ moves') l'' where
  goes r hr := by
    obtain ⟨r', hr', hstart, hheeds⟩ := h.goes r hr
    obtain ⟨r'', hr'', hstart', hheeds'⟩ := h'.goes r' hr'
    exact ⟨r'', hr'', by rw [carried_append, hstart', hstart], hheeds.trans hheeds'⟩
  comes r'' hr'' := by
    obtain ⟨r', hr', hstart', hheeds'⟩ := h'.comes r'' hr''
    obtain ⟨r, hr, hstart, hheeds⟩ := h.comes r' hr'
    exact ⟨r, hr, by rw [carried_append, hstart', hstart], hheeds.trans hheeds'⟩

theorem map_at {w : Word} {f : Region → Region} (hf : ∀ r ∈ l, r.start = w → (f r).start = r.start ∧ r.Heeds (f r)) :
    Drift l [] (l.map fun r => if r.start = w then f r else r) := by
  have heach : ∀ r ∈ l, (if r.start = w then f r else r).start = r.start ∧
      r.Heeds (if r.start = w then f r else r) := by
    intro r hr
    split
    · exact hf r hr ‹_›
    · exact ⟨rfl, .refl r⟩
  refine ⟨fun r hr => ⟨_, List.mem_map_of_mem hr, heach r hr⟩, fun r' hr' => ?_⟩
  obtain ⟨r, hr, rfl⟩ := List.mem_map.mp hr'
  exact ⟨r, hr, heach r hr⟩

theorem move (rising : Rising l) (hr : r ∈ l) (start : Word)
    (hl' : ∀ s, s ∈ l' ↔ s = { r with start := start, physicalStart := start } ∨ s ∈ l ∧ s.start ≠ r.start) :
    Drift l [(r.start, start)] l' where
  goes s hs := by
    by_cases hstart : s.start = r.start
    · obtain rfl := rising.eq_of_start hs hr hstart
      exact ⟨_, (hl' _).mpr (.inl rfl), (if_pos rfl).symm, .of_marks rfl rfl⟩
    · exact ⟨s, (hl' s).mpr (.inr ⟨hs, hstart⟩), (if_neg hstart).symm, .refl s⟩
  comes s hs := by
    rcases (hl' s).mp hs with rfl | ⟨hs, hstart⟩
    · exact ⟨r, hr, (if_pos rfl).symm, .of_marks rfl rfl⟩
    · exact ⟨s, hs, (if_neg hstart).symm, .refl s⟩

end Drift

end Region

namespace RegionIndex.Ordered

variable {x : RegionIndex} {r q : Region}

theorem overlapping?_complete (h : x.Ordered) (hclear : ∀ r ∈ x.toList, r.Clear x.toList) (hq : q.length ≠ 0)
    (hr : r ∈ x.toList) (hoverlaps : r.overlaps q = true) : (x.overlapping? q).isSome = true := by
  obtain ⟨hbelow, hreaches⟩ := of_decide_eq_true hoverlaps
  rw [h.overlapping?_eq, if_neg hq]
  have hmem : r ∈ x.toList.filter fun s => decide (s.start < q.stop) := List.mem_filter.mpr ⟨hr, decide_eq_true hbelow⟩
  cases hlast : (x.toList.filter fun s => decide (s.start < q.stop)).getLast? with
  | none => exact absurd (List.getLast?_eq_none_iff.mp hlast) (List.ne_nil_of_mem hmem)
  | some last =>
    have hle := h.rising.stop_le_last hclear hlast hr (decide_eq_true hbelow)
    rw [Option.filter_some, if_pos (decide_eq_true (UInt64.lt_of_lt_of_le hreaches hle))]
    rfl

theorem containing?_complete (h : x.Ordered) (hclear : ∀ r ∈ x.toList, r.Clear x.toList) {address : Word}
    (hr : r ∈ x.toList) (hcontains : r.containsAddress address = true) : x.containing? address = some r := by
  obtain ⟨hlow, hhigh⟩ := Region.containsAddress_eq_true.mp hcontains
  rw [h.containing?_eq]
  have hmem : r ∈ x.toList.filter fun s => decide (s.start ≤ address) := List.mem_filter.mpr ⟨hr, decide_eq_true hlow⟩
  cases hlast : (x.toList.filter fun s => decide (s.start ≤ address)).getLast? with
  | none => exact absurd (List.getLast?_eq_none_iff.mp hlast) (List.ne_nil_of_mem hmem)
  | some last =>
    rcases Region.Rising.eq_or_lt_last (h.rising.filter _) hlast hmem with rfl | hlt
    · rw [Option.filter_some, if_pos hcontains]
    · -- A later region that starts there at the latest would start in the one that contains the address.
      obtain ⟨hlastmem, hle⟩ := List.mem_filter.mp (List.mem_of_getLast? hlast)
      have hstop := UInt64.le_trans ((hclear r hr).behind last hlastmem hlt) (of_decide_eq_true hle)
      exact absurd (UInt64.lt_of_lt_of_le hhigh hstop) (UInt64.lt_irrefl _)

end RegionIndex.Ordered

namespace AddressSpace

structure Arranged (s : AddressSpace) : Prop where
  ordered : s.regions.Ordered
  nonempty : ∀ r ∈ s.regions.toList, r.length ≠ 0
  clear : ∀ r ∈ s.regions.toList, r.Clear s.regions.toList

/-- Where the tracked regions start, and how long they are. -/
def extents (s : AddressSpace) : List (Word × Word) := s.regions.toList.map fun r => (r.start, r.length)

def fixes (s : AddressSpace) (w : Word) : Bool := (s.stack.toList ++ s.blob.toList).any fun f => f.start == w

structure Stays (s s' : AddressSpace) : Prop where
  arranged : s'.Arranged
  drift : Region.Drift s.regions.toList [] s'.regions.toList
  extents : s'.extents = s.extents
  fixes : s'.fixes = s.fixes

variable {s : AddressSpace} {r : Region} {x : RegionIndex} {w : Word}

theorem mem_extents {w n : Word} : (w, n) ∈ s.extents ↔ ∃ r ∈ s.regions.toList, r.start = w ∧ r.length = n := by
  unfold AddressSpace.extents
  rw [List.mem_map]
  refine exists_congr fun r => and_congr_right fun _ => ?_
  rw [Prod.mk.injEq]

/-- A region may neither move nor go if it is pinned, or where the stack or the blob starts. -/
theorem isFixed_eq (s : AddressSpace) (r : Region) : s.isFixed r = (r.isPinned || s.fixes r.start) := rfl

theorem arranged_of_nil (hordered : s.regions.Ordered) (hnil : s.regions.toList = []) : s.Arranged :=
  ⟨hordered, by simp [hnil], by simp [hnil]⟩

theorem Sound.arranged (h : s.Sound) : s.Arranged := by
  have hbehind : ∀ r ∈ s.regions.toList, ∀ q ∈ s.regions.toList, r.start < q.start → r.stop ≤ q.start := by
    intro r hr q hq hlt
    have hapart := h.laid.apart r hr q hq (UInt64.ne_of_lt hlt)
    have hpos := (h.laid.lawful q hq).pos
    have hlt := UInt64.lt_iff_toNat_lt.mp hlt
    refine UInt64.le_iff_toNat_le.mpr ?_
    rw [Region.stop_toNat (h.laid.lawful r hr).fits]
    unfold Region.Apart at hapart
    omega
  exact ⟨h.ordered, fun r hr => (h.laid.lawful r hr).nonempty,
    fun r hr => ⟨fun q hq hlt => hbehind q hq r hr hlt, fun q hq hlt => hbehind r hr q hq hlt⟩⟩

namespace Arranged

theorem of_regions (h : s.Arranged) {s' : AddressSpace} (hregions : s'.regions = s.regions) : s'.Arranged :=
  ⟨hregions ▸ h.ordered, hregions ▸ h.nonempty, hregions ▸ h.clear⟩

theorem of_subset (h : s.Arranged) {s' : AddressSpace} (hordered : s'.regions.Ordered)
    (hsubset : s'.regions.toList ⊆ s.regions.toList) : s'.Arranged where
  ordered := hordered
  nonempty r hr := h.nonempty r (hsubset hr)
  clear r hr := ⟨fun q hq => (h.clear r (hsubset hr)).front q (hsubset hq),
    fun q hq => (h.clear r (hsubset hr)).behind q (hsubset hq)⟩

theorem clear_of_checkRoom (h : s.Arranged) (hnonempty : r.length ≠ 0) (hroom : s.checkRoom r = .ok ()) :
    r.Clear s.regions.toList ∧ ∀ q ∈ s.regions.toList, q.start < r.stop → q.stop ≤ r.start := by
  have hnone : s.regions.overlapping? r = none := by
    unfold checkRoom at hroom
    cases hfound : s.regions.overlapping? r with
    | none => rfl
    | some found =>
      rw [hfound] at hroom
      cases hroom
  have hends : ∀ q ∈ s.regions.toList, q.start < r.stop → q.stop ≤ r.start := by
    intro q hq hbelow
    refine UInt64.not_lt.mp fun hreaches => ?_
    have hsome := h.ordered.overlapping?_complete h.clear hnonempty hq (decide_eq_true ⟨hbelow, hreaches⟩)
    rw [hnone] at hsome
    cases hsome
  refine ⟨⟨fun q hq hlt => hends q hq (UInt64.lt_of_lt_of_le hlt r.start_le_stop), fun q hq hlt => ?_⟩, hends⟩
  refine UInt64.not_lt.mp fun hbelow => ?_
  exact absurd (UInt64.lt_of_lt_of_le hlt (UInt64.le_trans q.start_le_stop (hends q hq hbelow))) (UInt64.lt_irrefl _)

theorem fresh_of_checkRoom (h : s.Arranged) (hnonempty : r.length ≠ 0)
    (hfits : r.start.toNat + r.length.toNat < Word.modulus) (hroom : s.checkRoom r = .ok ()) :
    ∀ q ∈ s.regions.toList, q.start ≠ r.start := by
  intro q hq hstart
  have hlt : r.start < Word.maximum := by
    have := Word.toNat_pos hnonempty
    have : Word.modulus = Word.maximum.toNat + 1 := rfl
    exact UInt64.lt_iff_toNat_lt.mpr (by omega)
  have hends : q.stop ≤ r.start := (h.clear_of_checkRoom hnonempty hroom).2 q hq
    (hstart ▸ Region.start_lt_stop hnonempty hlt)
  have hstop : q.start < q.stop := Region.start_lt_stop (h.nonempty q hq) (hstart ▸ hlt)
  exact absurd (UInt64.lt_of_lt_of_le hstop (hstart ▸ hends)) (UInt64.lt_irrefl _)

theorem insert (h : s.Arranged) (hnonempty : r.length ≠ 0) (hclear : r.Clear s.regions.toList) {s' : AddressSpace}
    (hordered : s'.regions.Ordered) (hmem : ∀ q, q ∈ s'.regions.toList ↔ q = r ∨ q ∈ s.regions.toList) :
    s'.Arranged := by
  refine ⟨hordered, fun q hq => ?_, fun q hq => ⟨fun p hp hlt => ?_, fun p hp hlt => ?_⟩⟩
  · rcases (hmem q).mp hq with rfl | hq
    · exact hnonempty
    · exact h.nonempty q hq
  · rcases (hmem q).mp hq with hqr | hq <;> rcases (hmem p).mp hp with hpr | hp
    · exact absurd (hqr ▸ hpr ▸ hlt) (UInt64.lt_irrefl _)
    · exact hqr ▸ hclear.front p hp (hqr ▸ hlt)
    · exact hpr ▸ hclear.behind q hq (hpr ▸ hlt)
    · exact (h.clear q hq).front p hp hlt
  · rcases (hmem q).mp hq with hqr | hq <;> rcases (hmem p).mp hp with hpr | hp
    · exact absurd (hqr ▸ hpr ▸ hlt) (UInt64.lt_irrefl _)
    · exact hqr ▸ hclear.behind p hp (hqr ▸ hlt)
    · exact hpr ▸ hclear.front q hq (hpr ▸ hlt)
    · exact (h.clear q hq).behind p hp hlt

/-- The region at a start may change as long as it stays there, is not empty, ends where the next one starts and
heeds what it was. -/
theorem modify (h : s.Arranged) {f : Region → Region}
    (hf : ∀ r ∈ s.regions.toList, r.start = w → (f r).start = r.start ∧ r.Heeds (f r))
    (hlength : ∀ r ∈ s.regions.toList, r.start = w → (f r).length ≠ 0)
    (hroom : ∀ r ∈ s.regions.toList, r.start = w → ∀ q ∈ s.regions.toList, w < q.start → (f r).stop ≤ q.start) :
    { s with regions := s.regions.modify w f }.Arranged ∧
      Region.Drift s.regions.toList [] (s.regions.modify w f).toList := by
  obtain ⟨hordered, hlist⟩ := h.ordered.modify_eq fun r hr hw => (hf r hr hw).1.trans hw
  have hstart : ∀ r ∈ s.regions.toList, (if r.start = w then f r else r).start = r.start := by
    intro r hr
    split
    · exact (hf r hr ‹_›).1
    · rfl
  have hstop : ∀ r ∈ s.regions.toList, ∀ q ∈ s.regions.toList, r.start < q.start →
      (if r.start = w then f r else r).stop ≤ q.start := by
    intro r hr q hq hlt
    split
    · rename_i hw
      exact hroom r hr hw q hq (hw ▸ hlt)
    · exact (h.clear r hr).behind q hq hlt
  refine ⟨⟨hordered, fun r' hr' => ?_, fun r' hr' => ⟨fun q' hq' hlt => ?_, fun q' hq' hlt => ?_⟩⟩,
    hlist ▸ Region.Drift.map_at hf⟩
  · obtain ⟨r, hr, rfl⟩ := List.mem_map.mp (hlist ▸ hr')
    split
    · exact hlength r hr ‹_›
    · exact h.nonempty r hr
  · obtain ⟨r, hr, rfl⟩ := List.mem_map.mp (hlist ▸ hr')
    obtain ⟨q, hq, rfl⟩ := List.mem_map.mp (hlist ▸ hq')
    rw [hstart r hr, hstart q hq] at hlt
    rw [hstart r hr]
    exact hstop q hq r hr hlt
  · obtain ⟨r, hr, rfl⟩ := List.mem_map.mp (hlist ▸ hr')
    obtain ⟨q, hq, rfl⟩ := List.mem_map.mp (hlist ▸ hq')
    rw [hstart r hr, hstart q hq] at hlt
    rw [hstart q hq]
    exact hstop r hr q hq hlt

theorem mark (h : s.Arranged) {f : Region → Region}
    (hf : ∀ r ∈ s.regions.toList, r.start = w → (f r).start = r.start ∧ (f r).length = r.length ∧ r.Heeds (f r)) :
    Stays s { s with regions := s.regions.modify w f } := by
  obtain ⟨harranged, hdrift⟩ := h.modify (w := w) (f := f) (fun r hr hw => ⟨(hf r hr hw).1, (hf r hr hw).2.2⟩)
    (fun r hr hw => (hf r hr hw).2.1 ▸ h.nonempty r hr) fun r hr hw q hq hlt => by
      have hstop : (f r).stop = r.stop := by
        unfold Region.stop
        rw [(hf r hr hw).1, (hf r hr hw).2.1]
      rw [hstop]
      exact (h.clear r hr).behind q hq (hw ▸ hlt)
  refine ⟨harranged, hdrift, ?_, rfl⟩
  change (s.regions.modify w f).toList.map (fun r => (r.start, r.length)) = _
  rw [(h.ordered.modify_eq fun r hr hw => (hf r hr hw).1.trans hw).2, List.map_map]
  refine List.map_congr_left fun r hr => ?_
  dsimp only [Function.comp_apply]
  split
  · rw [(hf r hr ‹_›).1, (hf r hr ‹_›).2.1]
  · rfl

theorem stays (h : s.Arranged) : Stays s s := ⟨h, .refl _, rfl, rfl⟩

theorem resolve?_tracked (h : s.Arranged) (hr : r ∈ s.regions.toList) : s.resolve? (.tracked r.start) = some r :=
  h.ordered.find?_self hr rfl

theorem regionAt?_eq (h : s.Arranged) {address : Word} (hr : r ∈ s.regions.toList)
    (hcontains : r.containsAddress address = true) : s.regionAt? address = some r :=
  h.ordered.containing?_complete h.clear hr hcontains

theorem latchFixed (h : s.Arranged) {a : Access} {f : FixedRegion}
    (allowed : ∀ r, s.resolve? f = some r → r.protection.allows a = true) :
    Stays s (AddressSpace.latchFixed a s f).1 := by
  cases f with
  | released r => exact h.stays
  | tracked start =>
    refine h.mark fun r hr hw => ⟨rfl, rfl, .latch (allowed r ?_)⟩
    exact hw ▸ h.resolve?_tracked hr

end Arranged

theorem Stays.of_regions {s' s'' : AddressSpace} (h : Stays s s') (hregions : s''.regions = s'.regions)
    (hfixes : s''.fixes = s.fixes) : Stays s s'' where
  arranged := h.arranged.of_regions hregions
  drift := hregions ▸ h.drift
  extents := by
    unfold AddressSpace.extents
    rw [hregions]
    exact h.extents
  fixes := hfixes

theorem latchFixed_start (a : Access) (s : AddressSpace) (f : FixedRegion) :
    (latchFixed a s f).2.start = f.start ∧ (latchFixed a s f).1.stack = s.stack ∧ (latchFixed a s f).1.blob = s.blob := by
  cases f with
  | tracked start => exact ⟨rfl, rfl, rfl⟩
  | released r => exact ⟨rfl, rfl, rfl⟩

theorem fixes_latchStack (a : Access) (s : AddressSpace) : (latchStack a s).fixes = s.fixes := by
  unfold latchStack
  cases hf : s.stack with
  | none => rfl
  | some f =>
    obtain ⟨hstart, -, hblob⟩ := latchFixed_start a s f
    refine funext fun w => ?_
    unfold AddressSpace.fixes
    rw [hf]
    simp only [Option.toList_some, List.cons_append, List.any_cons, hstart, hblob]

theorem fixes_latchBlob (a : Access) (s : AddressSpace) : (latchBlob a s).fixes = s.fixes := by
  unfold latchBlob
  cases hf : s.blob with
  | none => rfl
  | some f =>
    obtain ⟨hstart, hstack, -⟩ := latchFixed_start a s f
    refine funext fun w => ?_
    unfold AddressSpace.fixes
    rw [hf]
    simp only [Option.toList_some, List.any_append, List.any_cons, hstart, hstack]

theorem latchStack_stays (h : s.Arranged) {a : Access}
    (allowed : ∀ r, s.stackRegion? = some r → r.protection.allows a = true) : Stays s (latchStack a s) := by
  have hfixes := fixes_latchStack a s
  unfold latchStack at hfixes ⊢
  cases hf : s.stack with
  | none => exact h.stays
  | some f =>
    rw [hf] at hfixes
    refine Stays.of_regions (h.latchFixed (f := f) fun r hr => allowed r ?_) rfl hfixes
    unfold stackRegion?
    rw [hf]
    exact hr

theorem latchBlob_stays (h : s.Arranged) {a : Access}
    (allowed : ∀ r, s.blobRegion? = some r → r.protection.allows a = true) : Stays s (latchBlob a s) := by
  have hfixes := fixes_latchBlob a s
  unfold latchBlob at hfixes ⊢
  cases hf : s.blob with
  | none => exact h.stays
  | some f =>
    rw [hf] at hfixes
    refine Stays.of_regions (h.latchFixed (f := f) fun r hr => allowed r ?_) rfl hfixes
    unfold blobRegion?
    rw [hf]
    exact hr

theorem allows_of_admits {address : Word} {a : Access} {r? : Option Region} (h : admits address a r? = true) :
    ∀ r, r? = some r → r.protection.allows a = true := by
  rintro r rfl
  exact (Bool.and_eq_true_iff.mp h).2

theorem requestPermission_stays (h : s.Arranged) (address : Word) (a : Access) :
    (requestPermission address a).Leads s (fun _ s' => Stays s s') fun _ s' => s' = s := by
  unfold requestPermission
  refine .bind (.read (.branch (fun hstack => .put (latchStack_stays h (allows_of_admits hstack))) fun _ => ?_))
  refine .branch (fun hblob => .put (latchBlob_stays h (allows_of_admits hblob))) fun _ => ?_
  cases hr : s.regionAt? address with
  | none => exact .raise rfl
  | some r =>
    refine .branch (fun allowed => .put (h.mark fun q hq hw => ⟨rfl, rfl, .latch ?_⟩)) fun _ => .raise rfl
    rw [h.ordered.rising.eq_of_start hq (RegionIndex.mem_of_containing? hr).1 hw]
    exact allowed

theorem protectRegion_stays (h : s.Arranged) (query : Region) (p : Protection) :
    (protectRegion query p).Leads s (fun _ s' => Stays s s') fun _ s' => s' = s := by
  unfold protectRegion
  refine .bind (.inquire (fun r hr => ?_) fun _ _ => rfl)
  refine .branch (fun kept => .update (h.mark fun q hq hw => ⟨rfl, rfl, .protect ?_⟩)) fun _ => .bind (.stop rfl)
  rw [h.ordered.rising.eq_of_start hq (h.ordered.mem_of_findRegion hr).1 hw]
  exact kept

theorem pin_stays (h : s.Arranged) (address : Word) :
    (pin address).Leads s (fun _ s' => Stays s s') fun _ s' => s' = s := by
  unfold pin
  refine .bind (.read (.bind (.present (fun r hr => ?_) fun _ => rfl)))
  refine .bind (.put (.answer (h.mark fun q hq hw => ?_)))
  rw [h.ordered.rising.eq_of_start hq (RegionIndex.mem_of_containing? hr).1 hw]
  exact ⟨rfl, rfl, .pin r⟩

theorem addRegion_joins (h : s.Arranged) (r : Region) :
    (addRegion r).Leads s
      (fun added s' => s'.Arranged ∧ (∀ q ∈ s.regions.toList, q.start ≠ r.start) ∧
        (∀ q, q ∈ s'.regions.toList ↔ q = r ∨ q ∈ s.regions.toList) ∧ s'.fixes = s.fixes ∧ added = r)
      fun _ s' => s' = s := by
  unfold addRegion
  refine .bind (.lift (fun _ hshape => ?_) fun _ _ => rfl)
  refine .bind (.inquire (fun _ hroom => ?_) fun _ _ => rfl)
  have hr := lawful_of_checkShape hshape
  have hfresh := h.fresh_of_checkRoom hr.nonempty hr.fits hroom
  rcases h.ordered.places r with ⟨⟨q, hq, hstart⟩, -⟩ | ⟨-, x, hinsert, hordered, hlist⟩
  · exact absurd hstart (hfresh q hq)
  · refine .bind (.change (fun s' hs' => ?_) fun _ _ => rfl)
    rw [hinsert] at hs'
    cases hs'
    have hmem : ∀ q, q ∈ x.toList ↔ q = r ∨ q ∈ s.regions.toList := fun q => by
      rw [hlist, (r.place_perm _).mem_iff, List.mem_cons]
    exact .answer ⟨h.insert hr.nonempty (h.clear_of_checkRoom hr.nonempty hroom).1 hordered hmem, hfresh, hmem, rfl, rfl⟩

theorem removeRegion_leaves (h : s.Arranged) (query : Region) (m : MatchMask) :
    (removeRegion query m).Leads s
      (fun _ s' => s'.Arranged ∧ s'.fixes = s.fixes ∧ ∃ r ∈ s.regions.toList, s.regions.find? query m = some r ∧
        ∀ q, q ∈ s'.regions.toList ↔ q ∈ s.regions.toList ∧ q.start ≠ r.start)
      fun _ s' => s' = s ∧ ∀ r, s.regions.find? query m = some r → s.isFixed r = true := by
  unfold removeRegion
  refine .bind (.inquire (fun r hr => ?_) fun e he => ⟨rfl, fun r hr => ?_⟩)
  · have hfound := orRaise_eq_ok.mp hr
    obtain ⟨hmem, -⟩ := h.ordered.mem_of_findRegion hr
    obtain ⟨x, -, hremove, hordered, hlist⟩ := h.ordered.remove?_self hmem
    refine .bind (.read (.refuse (fun hfixed => ⟨rfl, fun q hq => ?_⟩) fun _ => ?_))
    · cases hfound.symm.trans hq
      exact hfixed
    refine .bind (.present (fun found hfound' => ?_) fun hnone => nomatch hremove.symm.trans hnone)
    rw [hremove] at hfound'
    cases hfound'
    have hsubset : x.toList ⊆ s.regions.toList := hlist ▸ List.filter_sublist.subset
    refine .bind (.put (.answer ⟨h.of_subset hordered hsubset, rfl, r, hmem, hfound, fun q => ?_⟩))
    change q ∈ x.toList ↔ _
    rw [hlist, List.mem_filter]
    simp
  · unfold findRegion at he
    rw [hr] at he
    cases he

end AddressSpace

theorem Monitor.guardCalleeStack_stays (m : Monitor) (h : m.space.Arranged) (frameSize : Word) :
    (guardCalleeStack frameSize).Leads m (fun _ m' => AddressSpace.Stays m.space m'.space ∧ m'.ledger = m.ledger)
      fun _ m' => AddressSpace.Stays m.space m'.space ∧ m'.ledger = m.ledger := by
  unfold guardCalleeStack
  refine .bind (.update (.bind (.read (.bind (.present (fun stack hstack => ?_) fun _ => ⟨h.stays, rfl⟩)))))
  dsimp only
  generalize (if m.stackPointer = 0 then stack.stop else m.stackPointer) = stackPointer
  refine .branch (fun hfits => ?_) fun _ => .bind (.update (.raise ⟨h.stays, rfl⟩))
  unfold onSpace onTracker Tracker.onSpace
  refine .zoom (.zoom (.update ⟨AddressSpace.latchStack_stays h fun r hr => ?_, rfl⟩))
  obtain rfl : stack = r := Option.some.inj (hstack.symm.trans hr)
  unfold frameFits at hfits
  split at hfits
  · exact (of_decide_eq_true hfits).2.2
  · cases hfits

end RegionGuard

import RegionGuard.Proofs.Reallocations
set_option autoImplicit false

namespace RegionGuard

open Stateful

theorem Stateful.runFrom_change_of_ok {σ : Type} {f : σ → Outcome σ} {s t : σ} (h : f s = .ok t) :
    (change f).runFrom s = (.ok (), t) := by
  rw [runFrom_change, h]

namespace Memory

variable {m m' : Memory} {place value : Word}

theorem byte_setByte_self (m : Memory) (place : Nat) (b : UInt8) : (m.setByte place b).byte place = b := by
  unfold setByte byte
  dsimp only
  rw [Table.get?_insert_self]
  exact Vector.getElem_set_self _

theorem byte_setBytes_inside {bytes : List UInt8} {start i : Nat} (hi : i < bytes.length) :
    (m.setBytes start bytes).byte (start + i) = bytes[i] := by
  induction bytes generalizing m start i with
  | nil => exact absurd hi (Nat.not_lt_zero i)
  | cons b rest ih =>
    unfold setBytes
    cases i with
    | zero =>
      rw [byte_setBytes (.inl (by omega)), Nat.add_zero, byte_setByte_self]
      rfl
    | succ i =>
      rw [show start + (i + 1) = start + 1 + i by omega, ih (Nat.lt_of_succ_lt_succ hi)]
      rfl

theorem check_eq_ok {length : Nat} (hlow : pageSize ≤ place.toNat) (hhigh : place.toNat + length < Word.modulus) :
    check place length = .ok () := by
  unfold check
  rw [if_neg (by omega)]
  rfl

theorem ofLittleEndian_toLittleEndian {count n : Nat} (h : n < 256 ^ count) :
    ofLittleEndian (toLittleEndian count n) = n := by
  induction count generalizing n with
  | zero => exact (Nat.lt_one_iff.mp h).symm
  | succ count ih =>
    have hrest : n / 256 < 256 ^ count := Nat.div_lt_of_lt_mul (by rwa [Nat.pow_succ'] at h)
    have hlow : (UInt8.ofNat (n % 256)).toNat = n % 256 := UInt8.toNat_ofNat_of_lt (Nat.mod_lt n (by decide))
    rw [toLittleEndian, ofLittleEndian, ih hrest, hlow]
    exact Nat.mod_add_div n 256

def wordAt (m : Memory) (place : Nat) : Word :=
  UInt64.ofNat (ofLittleEndian ((List.range 8).map fun i => m.byte (place + i)))

theorem readWord_eq (h : check place 8 = .ok ()) : m.readWord place 8 = .ok (m.wordAt place.toNat) :=
  bind_eq_ok.mpr ⟨_, bind_eq_ok.mpr ⟨(), h, rfl⟩, rfl⟩

theorem wordAt_congr {place place' : Nat} (h : ∀ i < 8, m'.byte (place' + i) = m.byte (place + i)) :
    m'.wordAt place' = m.wordAt place := by
  unfold wordAt
  rw [List.map_congr_left fun i hi => h i (List.mem_range.mp hi)]

theorem wordAt_setBytes (m : Memory) (place : Nat) (value : Word) :
    (m.setBytes place (toLittleEndian 8 value.toNat)).wordAt place = value := by
  have hlength := length_toLittleEndian 8 value.toNat
  have hbytes : (List.range 8).map (fun i => (m.setBytes place (toLittleEndian 8 value.toNat)).byte (place + i)) =
      toLittleEndian 8 value.toNat := by
    refine List.ext_getElem (by rw [List.length_map, List.length_range, hlength]) fun i hi hi' => ?_
    rw [List.getElem_map, List.getElem_range, byte_setBytes_inside hi']
  unfold wordAt
  rw [hbytes, ofLittleEndian_toLittleEndian value.toNat_lt, UInt64.ofNat_toNat]

theorem writeWord_ok (value : Word) (h : check place 8 = .ok ()) : ∃ m', m.writeWord place value 8 = .ok m' ∧
    m'.wordAt place.toNat = value ∧ ∀ address, Outside address place 8 → m'.byte address = m.byte address := by
  have hwrite : m.writeWord place value 8 = .ok (m.setBytes place.toNat (toLittleEndian 8 value.toNat)) := by
    refine bind_eq_ok.mpr ⟨(), ?_, rfl⟩
    rw [length_toLittleEndian]
    exact h
  exact ⟨_, hwrite, wordAt_setBytes _ _ _, fun address => byte_writeWord hwrite⟩

theorem copy_ok {source destination length : Word} (hlength : length.toNat < 0x8000000000000000)
    (hsource : check source length.toNat = .ok ()) (hdestination : check destination length.toNat = .ok ()) :
    ∃ m', m.copy source destination length = .ok m' ∧
      (∀ i < length.toNat, m'.byte (destination.toNat + i) = m.byte (source.toNat + i)) ∧
      ∀ address, Outside address destination length.toNat → m'.byte address = m.byte address := by
  let bytes := (List.range length.toNat).map fun i => m.byte (source.toNat + i)
  have hbytes : bytes.length = length.toNat := by rw [List.length_map, List.length_range]
  have hcopy : m.copy source destination length = .ok (m.setBytes destination.toNat bytes) := by
    unfold copy
    rw [if_neg (Nat.not_le.mpr hlength)]
    refine bind_eq_ok.mpr ⟨bytes, bind_eq_ok.mpr ⟨(), hsource, rfl⟩, bind_eq_ok.mpr ⟨(), ?_, rfl⟩⟩
    rw [hbytes]
    exact hdestination
  refine ⟨_, hcopy, fun i hi => ?_, fun address => byte_copy hcopy⟩
  rw [byte_setBytes_inside (hbytes.symm ▸ hi), List.getElem_map, List.getElem_range]

end Memory

namespace Ledger

variable {l l' : Ledger} {source destination length a b : Word}

def Within (start length address : Word) : Prop :=
  start.toNat ≤ address.toNat ∧ address.toNat < start.toNat + length.toNat

/-- Where a move takes an address: if it lies in the range, as far on as the range goes, and else nowhere. -/
def Shifts (source destination length a b : Word) : Prop :=
  (Within source length a ∧ b.toNat + source.toNat = a.toNat + destination.toNat) ∨ (¬ Within source length a ∧ b = a)

instance (start length address : Word) : Decidable (Within start length address) :=
  inferInstanceAs (Decidable (_ ∧ _))

instance (source destination length a b : Word) : Decidable (Shifts source destination length a b) :=
  inferInstanceAs (Decidable (_ ∨ _))

/-- Ranges that bytes can be moved between: neither begins in the first page or reaches the last address, and the bytes
fit into one buffer. -/
structure Ranges (source destination length : Word) : Prop where
  source_low : Memory.pageSize ≤ source.toNat
  source_high : source.toNat + length.toNat < Word.modulus
  destination_low : Memory.pageSize ≤ destination.toNat
  destination_high : destination.toNat + length.toNat < Word.modulus
  fits : length.toNat < 0x8000000000000000

theorem within_iff :
    (source ≤ a ∧ a - source < length) ↔ Within source length a := by
  unfold Within
  rw [UInt64.le_iff_toNat_le, UInt64.lt_iff_toNat_lt]
  constructor
  · rintro ⟨hle, hlt⟩
    rw [UInt64.toNat_sub_of_le _ _ (UInt64.le_iff_toNat_le.mpr hle)] at hlt
    omega
  · rintro ⟨hle, hlt⟩
    rw [UInt64.toNat_sub_of_le _ _ (UInt64.le_iff_toNat_le.mpr hle)]
    omega

theorem toNat_offset (h : Ranges source destination length) (ha : Within source length a) :
    (destination + (a - source)).toNat + source.toNat = a.toNat + destination.toNat := by
  obtain ⟨hle, hlt⟩ := ha
  have hhigh := h.destination_high
  rw [UInt64.toNat_add, UInt64.toNat_sub_of_le _ _ (UInt64.le_iff_toNat_le.mpr hle), Nat.mod_eq_of_lt]
  · omega
  · unfold Word.modulus at hhigh
    omega

theorem shifts_moved (h : Ranges source destination length) (a : Word) :
    Shifts source destination length a (moved source destination length a) := by
  unfold moved
  by_cases ha : Within source length a
  · rw [if_pos (within_iff.mpr ha)]
    exact .inl ⟨ha, toNat_offset h ha⟩
  · rw [if_neg (mt within_iff.mp ha)]
    exact .inr ⟨ha, rfl⟩

theorem Shifts.eq (hb : Shifts source destination length a b) {c : Word} (hc : Shifts source destination length a c) :
    b = c := by
  rcases hb with ⟨ha, hb⟩ | ⟨ha, rfl⟩
  · rcases hc with ⟨-, hc⟩ | ⟨hnot, -⟩
    · exact UInt64.toNat_inj.mp (by omega)
    · exact absurd ha hnot
  · rcases hc with ⟨hin, -⟩ | ⟨-, rfl⟩
    · exact absurd hin ha
    · rfl

theorem shifts_iff (h : Ranges source destination length) :
    Shifts source destination length a b ↔ b = moved source destination length a :=
  ⟨fun hb => hb.eq (shifts_moved h a), fun hb => hb ▸ shifts_moved h a⟩

theorem redirect_ok {cell : Word} (h : Memory.check cell 8 = .ok ()) :
    ∃ m, (redirect source destination length cell).runFrom l = (.ok (), { l with memory := m }) ∧
      m.wordAt cell.toNat = moved source destination length (l.memory.wordAt cell.toNat) ∧
      ∀ address, Memory.Outside address cell 8 → m.byte address = l.memory.byte address := by
  have hread := Memory.readWord_eq (m := l.memory) h
  unfold redirect moved
  by_cases hin : source ≤ l.memory.wordAt cell.toNat ∧ l.memory.wordAt cell.toNat - source < length
  · obtain ⟨m, hwrite, hword, hothers⟩ :=
      Memory.writeWord_ok (m := l.memory) (destination + (l.memory.wordAt cell.toNat - source)) h
    refine ⟨m, runFrom_change_of_ok (bind_eq_ok.mpr ⟨_, hread, ?_⟩), by rw [hword, if_pos hin], hothers⟩
    rw [if_pos hin]
    exact bind_eq_ok.mpr ⟨m, hwrite, rfl⟩
  · refine ⟨l.memory, runFrom_change_of_ok (bind_eq_ok.mpr ⟨_, hread, ?_⟩), by rw [if_neg hin], fun _ _ => rfl⟩
    rw [if_neg hin]
    rfl

theorem redirect_forM_ok {cells : List Word} (hchecks : ∀ cell ∈ cells, Memory.check cell 8 = .ok ())
    (apart : cells.Pairwise fun a b => a.toNat + 8 ≤ b.toNat ∨ b.toNat + 8 ≤ a.toNat) :
    ∃ m, (cells.forM (redirect source destination length)).runFrom l = (.ok (), { l with memory := m }) ∧
      (∀ cell ∈ cells, m.wordAt cell.toNat = moved source destination length (l.memory.wordAt cell.toNat)) ∧
      ∀ address, (∀ cell ∈ cells, Memory.Outside address cell 8) → m.byte address = l.memory.byte address := by
  induction cells generalizing l with
  | nil => exact ⟨l.memory, rfl, fun _ hcell => (List.not_mem_nil hcell).elim, fun _ _ => rfl⟩
  | cons cell rest ih =>
    obtain ⟨hfirst, hrest⟩ := List.forall_mem_cons.mp hchecks
    obtain ⟨hapart, apart⟩ := List.pairwise_cons.mp apart
    obtain ⟨m, hrun, hword, hothers⟩ := redirect_ok (l := l) hfirst
    obtain ⟨m', hrun', hwords, hothers'⟩ := ih (l := { l with memory := m }) hrest apart
    refine ⟨m', ?_, List.forall_mem_cons.mpr ⟨?_, fun other hother => ?_⟩, fun address houtside => ?_⟩
    · change (redirect source destination length cell >>= fun _ => rest.forM _).runFrom l = _
      rw [runFrom_bind, hrun]
      exact hrun'
    · -- The cells behind leave this one as it is.
      refine (Memory.wordAt_congr fun i hi => hothers' _ fun other hother => ?_).trans hword
      have := hapart other hother
      unfold Memory.Outside
      omega
    · -- The cell is still as it was when its turn comes.
      refine (hwords other hother).trans (congrArg _ (Memory.wordAt_congr fun i hi => hothers _ ?_))
      have := hapart other hother
      unfold Memory.Outside
      omega
    · obtain ⟨hout, hout'⟩ := List.forall_mem_cons.mp houtside
      exact (hothers' address hout').trans (hothers address hout)

/-- A ledger as requests make it, with any bytes in its memory. -/
inductive Built : Ledger → Prop
  | fresh (m : Memory) : Built ⟨m, ∅, ∅⟩
  | rewritten {l : Ledger} (hl : Built l) (m : Memory) : Built { l with memory := m }
  | tracked {l : Ledger} (hl : Built l) (start length : Word) (origin : Origin) : Built (l.track start length origin)
  | untracked {l l' : Ledger} {start : Word} {a : Allocation} (hl : Built l) (h : l.untrack? start = some (a, l')) : Built l'
  | escaped {l : Ledger} (hl : Built l) (cell : Word) : Built (l.recordEscape cell)
  | relocated {l : Ledger} (hl : Built l) (source destination length : Word) :
    Built ((relocate source destination length).runFrom l).2

def Keyed (t : Table Word Allocation) : Prop := ∀ k a, t.get? k = some a → a.start = k

theorem Keyed.insert {t : Table Word Allocation} (h : Keyed t) (a : Allocation) : Keyed (t.insert a.start a) := by
  intro k x hx
  rw [Table.get?_insert] at hx
  split at hx
  · rename_i hk
    cases hx
    exact hk.symm
  · exact h k x hx

theorem Keyed.filter {t : Table Word Allocation} (h : Keyed t) (p : Word → Allocation → Bool) : Keyed (t.filter p) :=
  fun k a ha => h k a (Table.get?_filter_eq_some.mp ha).1

theorem Keyed.map_start_values {t : Table Word Allocation} (h : Keyed t) : t.values.map (·.start) = t.keys := by
  unfold Table.values Table.keys
  rw [List.map_map]
  exact List.map_congr_left fun e he => h e.1 e.2 ((t.get?_eq_some_iff e.1 e.2).mpr he)

theorem Keyed.moveAllocations {t : Table Word Allocation} (h : Keyed t) :
    Keyed (moveAllocations source destination length t) := by
  have hfold : ∀ (moving : List Allocation) (t : Table Word Allocation), Keyed t → Keyed (moving.foldl (fun t a =>
      t.insert (destination + (a.start - source)) { a with start := destination + (a.start - source) }) t) := by
    intro moving
    induction moving with
    | nil => exact fun _ ht => ht
    | cons a rest ih => exact fun t ht => ih _ (ht.insert { a with start := destination + (a.start - source) })
  exact hfold _ _ (h.filter _)

theorem Built.keyed (hl : l.Built) : Keyed l.allocations := by
  induction hl with
  | fresh _ => exact fun _ _ h => (by cases h)
  | rewritten _ _ ih => exact ih
  | tracked _ start length origin ih => exact ih.insert ⟨start, length, origin⟩
  | untracked _ h ih =>
    obtain ⟨a, -, h⟩ := Option.bind_eq_some_iff.mp h
    cases h
    exact ih.filter _
  | escaped _ _ ih => exact ih
  | @relocated l _ source destination length ih =>
    have hleads : (relocate source destination length).Leads l (fun _ l' => Keyed l'.allocations)
        fun _ l' => Keyed l'.allocations := by
      refine (relocate_leads l source destination length).mono (fun _ l' hl' => ?_) fun _ l' hl' => ?_
      · rw [hl'.2]
        exact ih.moveAllocations
      · rw [hl']
        exact ih
    exact hleads.state

theorem within_addSaturating (hsource : source.toNat + length.toNat < Word.modulus) :
    (decide (source ≤ a) && decide (a < Word.addSaturating source length)) = true ↔ Within source length a := by
  have hstop : (Word.addSaturating source length).toNat = source.toNat + length.toNat := by
    unfold Word.addSaturating Word.add? Word.ofNat?
    rw [if_pos hsource]
    exact UInt64.toNat_ofNat_of_lt hsource
  rw [Bool.and_eq_true, decide_eq_true_eq, decide_eq_true_eq, UInt64.le_iff_toNat_le, UInt64.lt_iff_toNat_lt, hstop]
  rfl

/-- Every allocation in the range is entered again where it has gone, and all others stay. -/
theorem get?_moveAllocations (h : Ranges source destination length) {t : Table Word Allocation} (keyed : Keyed t)
    (vacant : ∀ k ∈ t.keys, ¬ Within source length k → ¬ Within destination length k) (k : Word) (a' : Allocation) :
    (moveAllocations source destination length t).get? k = some a' ↔
      ∃ j a, t.get? j = some a ∧ Shifts source destination length j k ∧ a' = { a with start := k } := by
  let inside := fun start : Word => decide (source ≤ start) && decide (start < Word.addSaturating source length)
  let place := fun a : Allocation => destination + (a.start - source)
  let moving := (t.filter fun start _ => inside start).values
  have hinside : ∀ start, inside start = true ↔ Within source length start := fun start =>
    within_addSaturating h.source_high
  have hmoving : ∀ a, a ∈ moving ↔ t.get? a.start = some a ∧ Within source length a.start := fun a => by
    rw [Table.mem_values_iff]
    constructor
    · rintro ⟨j, hj⟩
      obtain ⟨hj, hin⟩ := Table.get?_filter_eq_some.mp hj
      rw [keyed j a hj]
      exact ⟨hj, (hinside j).mp hin⟩
    · exact fun ⟨hj, hin⟩ => ⟨a.start, Table.get?_filter_eq_some.mpr ⟨hj, (hinside _).mpr hin⟩⟩
  have hplace : ∀ a ∈ moving, (place a).toNat + source.toNat = a.start.toNat + destination.toNat := fun a ha =>
    toNat_offset h ((hmoving a).mp ha).2
  have hfold : moveAllocations source destination length t =
      (moving.map fun a => (place a, { a with start := place a })).foldl (fun t e => t.insert e.1 e.2)
        (t.filter fun start _ => !inside start) := by
    rw [List.foldl_map]
    rfl
  have hnodup : moving.Nodup := by
    refine List.Nodup.of_map (·.start) ?_
    rw [(keyed.filter _).map_start_values]
    exact Table.nodup_keys _
  have distinct : ((moving.map fun a => (place a, { a with start := place a })).map (·.1)).Nodup := by
    rw [List.map_map]
    refine List.Nodup.map_on (fun a ha b hb heq => ?_) hnodup
    have hsum := congrArg UInt64.toNat (show place a = place b from heq)
    have hstart : a.start = b.start := UInt64.toNat_inj.mp (by have := hplace a ha; have := hplace b hb; omega)
    have hget := ((hmoving a).mp ha).1
    rw [hstart, ((hmoving b).mp hb).1] at hget
    exact (Option.some.inj hget).symm
  rw [hfold, Table.get?_foldl_insert_eq_some distinct, Table.get?_filter_eq_some]
  constructor
  · rintro (hmem | ⟨-, hget, hout⟩)
    · obtain ⟨a, ha, heq⟩ := List.mem_map.mp hmem
      cases heq
      obtain ⟨hget, hin⟩ := (hmoving a).mp ha
      exact ⟨a.start, a, hget, .inl ⟨hin, hplace a ha⟩, rfl⟩
    · refine ⟨k, a', hget, .inr ⟨fun hin => ?_, rfl⟩, by rw [← keyed k a' hget]⟩
      rw [(hinside k).mpr hin] at hout
      cases hout
  · rintro ⟨j, a, hget, ⟨hin, hsum⟩ | ⟨hout, rfl⟩, rfl⟩
    · obtain rfl := keyed j a hget
      have ha := (hmoving a).mpr ⟨hget, hin⟩
      have hk : place a = k := UInt64.toNat_inj.mp (by have := hplace a ha; omega)
      exact .inl (List.mem_map.mpr ⟨a, ha, by rw [hk]⟩)
    · refine .inr ⟨fun hmem => ?_, ?_, by rw [Bool.not_eq_true', ← Bool.not_eq_true, hinside]; exact hout⟩
      · rw [List.map_map] at hmem
        obtain ⟨b, hb, heq⟩ := List.mem_map.mp hmem
        obtain rfl : place b = k := heq
        have hin := ((hmoving b).mp hb).2
        have hsum := hplace b hb
        refine vacant (place b) (Table.mem_keys_iff.mpr (by rw [hget]; rfl)) hout ?_
        unfold Within at hin ⊢
        omega
      · rw [hget, ← keyed k a hget]

/-- Escapes, allocations and ranges that a move does not confuse: cells lie apart and are not cut by the ends of the
range, and nothing that stays is where the range goes. -/
structure Movable (l : Ledger) (source destination length : Word) : Prop extends Ranges source destination length where
  cell_low : ∀ c ∈ l.escapes.keys, Memory.pageSize ≤ c.toNat
  cell_high : ∀ c ∈ l.escapes.keys, c.toNat + 8 < Word.modulus
  apart : ∀ c ∈ l.escapes.keys, ∀ d ∈ l.escapes.keys, c ≠ d → c.toNat + 8 ≤ d.toNat ∨ d.toNat + 8 ≤ c.toNat
  whole : ∀ c ∈ l.escapes.keys, (source.toNat ≤ c.toNat ∧ c.toNat + 8 ≤ source.toNat + length.toNat) ∨
    c.toNat + 8 ≤ source.toNat ∨ source.toNat + length.toNat ≤ c.toNat
  clear : ∀ c ∈ l.escapes.keys, ¬ Within source length c →
    c.toNat + 8 ≤ destination.toNat ∨ destination.toNat + length.toNat ≤ c.toNat
  vacant : ∀ k ∈ l.allocations.keys, ¬ Within source length k → ¬ Within destination length k

namespace Movable

variable (h : l.Movable source destination length) {c : Word}
include h

/-- A cell goes as a whole, or stays off where the range goes. -/
theorem cases_moved (hc : c ∈ l.escapes.keys) :
    (Within source length c ∧ c.toNat + 8 ≤ source.toNat + length.toNat ∧
      (moved source destination length c).toNat + source.toNat = c.toNat + destination.toNat) ∨
    (¬ Within source length c ∧ (c.toNat + 8 ≤ source.toNat ∨ source.toNat + length.toNat ≤ c.toNat) ∧
      (c.toNat + 8 ≤ destination.toNat ∨ destination.toNat + length.toNat ≤ c.toNat) ∧
      moved source destination length c = c) := by
  have hwhole := h.whole c hc
  rcases shifts_moved h.toRanges c with ⟨hin, hmoved⟩ | ⟨hout, hmoved⟩
  · refine .inl ⟨hin, ?_, hmoved⟩
    unfold Within at hin
    omega
  · refine .inr ⟨hout, ?_, h.clear c hc hout, hmoved⟩
    unfold Within at hout
    omega

theorem apart_moved : (l.escapes.keys.map (moved source destination length)).Pairwise fun a b =>
    a.toNat + 8 ≤ b.toNat ∨ b.toNat + 8 ≤ a.toNat := by
  refine List.pairwise_map.mpr ((Table.nodup_keys l.escapes).pairwise_of_forall_ne fun c hc d hd hne => ?_)
  have hapart := h.apart c hc d hd hne
  have hcases := h.cases_moved hc
  have hcases' := h.cases_moved hd
  unfold Within at hcases hcases'
  rcases hcases with ⟨hin, hend, hmoved⟩ | ⟨hout, hend, hclear, hmoved⟩ <;>
    rcases hcases' with ⟨hin', hend', hmoved'⟩ | ⟨hout', hend', hclear', hmoved'⟩
  · omega
  · rw [hmoved']
    omega
  · rw [hmoved]
    omega
  · rw [hmoved, hmoved']
    exact hapart

theorem check_moved (hc : c ∈ l.escapes.keys) : Memory.check (moved source destination length c) 8 = .ok () := by
  have hlow := h.cell_low c hc
  have hhigh := h.cell_high c hc
  have hdestination := h.destination_low
  have hdestination' := h.destination_high
  rcases h.cases_moved hc with ⟨hin, hend, hmoved⟩ | ⟨-, -, -, hmoved⟩
  · unfold Within at hin
    exact Memory.check_eq_ok (by omega) (by omega)
  · rw [hmoved]
    exact Memory.check_eq_ok hlow hhigh

end Movable

/-- The word in a cell is carried along by the copy, before it is redirected. -/
theorem Movable.wordAt_moved (h : l.Movable source destination length) {m : Memory}
    (hcopied : ∀ i < length.toNat, m.byte (destination.toNat + i) = l.memory.byte (source.toNat + i))
    (hkept : ∀ address, Memory.Outside address destination length.toNat → m.byte address = l.memory.byte address) {c : Word}
    (hc : c ∈ l.escapes.keys) :
    m.wordAt (moved source destination length c).toNat = l.memory.wordAt c.toNat := by
  refine Memory.wordAt_congr fun i hi => ?_
  rcases h.cases_moved hc with ⟨⟨hlow, -⟩, hend, hmoved⟩ | ⟨-, -, hclear, hmoved⟩
  · have hbyte := hcopied (c.toNat - source.toNat + i) (by omega)
    rw [show (moved source destination length c).toNat + i = destination.toNat + (c.toNat - source.toNat + i) by omega,
      hbyte, show source.toNat + (c.toNat - source.toNat + i) = c.toNat + i by omega]
  · rw [hmoved]
    refine hkept _ ?_
    unfold Memory.Outside
    omega

/-- A move of bytes succeeds, also where the ranges overlap, and moves all that belongs to them: each escape in the range,
each pointer into the range that an escape holds, and each allocation that starts in the range go as far as the bytes do, and
no others go at all. The other bytes of the range are copied, and no byte changes outside the new place and the escapes. -/
theorem relocate_spec (built : l.Built) (h : l.Movable source destination length) :
    ∃ l', (relocate source destination length).runFrom l = (.ok (), l') ∧
      (∀ c', c' ∈ l'.escapes.keys ↔ ∃ c ∈ l.escapes.keys, Shifts source destination length c c') ∧
      (∀ c ∈ l.escapes.keys, ∀ c', Shifts source destination length c c' → ∃ pointer pointer',
        l.memory.readWord c 8 = .ok pointer ∧ l'.memory.readWord c' 8 = .ok pointer' ∧
          Shifts source destination length pointer pointer') ∧
      (∀ i < length.toNat, (∀ c ∈ l.escapes.keys, Memory.Outside (source.toNat + i) c 8) →
        l'.memory.byte (destination.toNat + i) = l.memory.byte (source.toNat + i)) ∧
      (∀ address, Memory.Outside address destination length.toNat →
        (∀ c' ∈ l'.escapes.keys, Memory.Outside address c' 8) → l'.memory.byte address = l.memory.byte address) ∧
      ∀ start a', l'.allocations.get? start = some a' ↔
        ∃ old a, l.allocations.get? old = some a ∧ Shifts source destination length old start ∧
          a' = { a with start := start } := by
  have hranges := h.toRanges
  obtain ⟨m, hcopy, hcopied, hkept⟩ := Memory.copy_ok (m := l.memory) h.fits
    (Memory.check_eq_ok h.source_low h.source_high) (Memory.check_eq_ok h.destination_low h.destination_high)
  let cells := l.escapes.keys.map (moved source destination length)
  have hchecks : ∀ cell ∈ cells, Memory.check cell 8 = .ok () := List.forall_mem_map.mpr fun c hc => h.check_moved hc
  obtain ⟨m', hrun, hwords, hothers⟩ : ∃ m', (cells.forM (redirect source destination length)).runFrom
      { l with memory := m } = (.ok (), { l with memory := m' }) ∧ _ ∧ _ := redirect_forM_ok hchecks h.apart_moved
  have hrelocate : (relocate source destination length).runFrom l =
      (.ok (), ⟨m', moveAllocations source destination length l.allocations, KeySet.ofKeys cells⟩) := by
    unfold relocate
    rw [runFrom_bind, runFrom_change_of_ok (t := { l with memory := m }) (bind_eq_ok.mpr ⟨m, hcopy, by rfl⟩)]
    change (cells.forM (redirect source destination length) >>= fun _ => modify _).runFrom { l with memory := m } = _
    rw [runFrom_bind, hrun]
    rfl
  have hcells : ∀ c', c' ∈ (KeySet.ofKeys cells).keys ↔ ∃ c ∈ l.escapes.keys, Shifts source destination length c c' := by
    intro c'
    rw [KeySet.mem_keys_ofKeys, List.mem_map]
    refine exists_congr fun c => and_congr_right fun _ => ?_
    rw [shifts_iff hranges, eq_comm]
  refine ⟨_, hrelocate, hcells, fun c hc c' hshifts => ?_, fun i hi houtside => ?_, fun address houtside houtside' => ?_,
    get?_moveAllocations hranges built.keyed h.vacant⟩
  · obtain rfl := (shifts_iff hranges).mp hshifts
    have hmem : moved source destination length c ∈ cells := List.mem_map_of_mem hc
    refine ⟨_, _, Memory.readWord_eq (Memory.check_eq_ok (h.cell_low c hc) (h.cell_high c hc)),
      Memory.readWord_eq (hchecks _ hmem), ?_⟩
    rw [hwords _ hmem, h.wordAt_moved hcopied hkept hc]
    exact shifts_moved hranges _
  · refine (hothers _ (List.forall_mem_map.mpr fun c hc => ?_)).trans (hcopied i hi)
    have hout := houtside c hc
    unfold Memory.Outside at hout ⊢
    rcases h.cases_moved hc with ⟨hin, -, hmoved⟩ | ⟨-, -, hclear, hmoved⟩
    · omega
    · rw [hmoved]
      omega
  · exact (hothers address fun cell hcell => houtside' cell (KeySet.mem_keys_ofKeys.mpr hcell)).trans
      (hkept address houtside)

/-- A cell that holds a pointer into the bytes around it, one behind it with a pointer to elsewhere, and one elsewhere
with a pointer to the first of the bytes. -/
def entangled : Ledger :=
  let memory := ((Memory.empty.setBytes 0x2008 (Memory.toLittleEndian 8 0x2020)).setBytes 0x2018
    (Memory.toLittleEndian 8 0x3000)).setBytes 0x3000 (Memory.toLittleEndian 8 0x2000)
  (((((Ledger.mk memory ∅ ∅).track 0x2000 0x10 .heap).track 0x2010 0x30 (.global 3)).recordEscape 0x2008).recordEscape
    0x2018).recordEscape 0x3000

/-- Bytes are moved onto themselves, sixteen addresses on, with all that belongs to them. -/
theorem relocate_spec_overlapping :
    entangled.Movable 0x2000 0x2010 0x40 ∧
    ∃ l', (relocate 0x2000 0x2010 0x40).runFrom entangled = (.ok (), l') ∧ 0x2018 ∈ l'.escapes.keys ∧
      l'.memory.readWord 0x2018 8 = .ok 0x2030 ∧ l'.memory.readWord 0x3000 8 = .ok 0x2010 ∧
      l'.allocations.get? 0x2010 = some ⟨0x2010, 0x10, .heap⟩ ∧
      l'.allocations.get? 0x2020 = some ⟨0x2020, 0x30, .global 3⟩ := by
  have built : entangled.Built := (((((Built.fresh _).tracked _ _ _).tracked _ _ _).escaped _).escaped _).escaped _
  -- Only the words of the lists are tried, not all there are.
  have each : ∀ {P : Word → Prop} [DecidablePred P] {words : List Word}, (words.all fun a => decide (P a)) = true →
      ∀ a ∈ words, P a := fun h a ha => of_decide_eq_true (List.all_eq_true.mp h a ha)
  have apart : (entangled.escapes.keys.all fun c => entangled.escapes.keys.all fun d =>
      decide (c ≠ d → c.toNat + 8 ≤ d.toNat ∨ d.toNat + 8 ≤ c.toNat)) = true := by
    decide +kernel
  have movable : entangled.Movable 0x2000 0x2010 0x40 :=
    { source_low := by decide, source_high := by decide, destination_low := by decide, destination_high := by decide,
      fits := by decide, cell_low := each (by decide +kernel), cell_high := each (by decide +kernel)
      apart := fun c hc => each (List.all_eq_true.mp apart c hc)
      whole := each (by decide +kernel), clear := each (by decide +kernel), vacant := each (by decide +kernel) }
  have hkeys : 0x2008 ∈ entangled.escapes.keys ∧ 0x3000 ∈ entangled.escapes.keys := by decide +kernel
  have hreads : entangled.memory.readWord 0x2008 8 = .ok 0x2020 ∧ entangled.memory.readWord 0x3000 8 = .ok 0x2000 := by
    decide +kernel
  have hallocations : entangled.allocations.get? 0x2000 = some ⟨0x2000, 0x10, .heap⟩ ∧
      entangled.allocations.get? 0x2010 = some ⟨0x2010, 0x30, .global 3⟩ := by
    decide +kernel
  obtain ⟨l', hrun, hescapes, hpointers, -, -, hmoved⟩ := relocate_spec built movable
  obtain ⟨p, p', hp, hp', hshifts⟩ := hpointers 0x2008 hkeys.1 0x2018 (by decide)
  cases hreads.1.symm.trans hp
  obtain rfl : p' = 0x2030 := hshifts.eq (by decide)
  obtain ⟨q, q', hq, hq', hshifts'⟩ := hpointers 0x3000 hkeys.2 0x3000 (by decide)
  cases hreads.2.symm.trans hq
  obtain rfl : q' = 0x2010 := hshifts'.eq (by decide)
  exact ⟨movable, l', hrun, (hescapes _).mpr ⟨_, hkeys.1, by decide⟩, hp', hq',
    (hmoved _ _).mpr ⟨_, _, hallocations.1, by decide, rfl⟩, (hmoved _ _).mpr ⟨_, _, hallocations.2, by decide, rfl⟩⟩

/-- Bytes up to the last address are refused, as is a cell that ends there, and more bytes than a buffer holds end the
program: though neither the ranges nor the cell go on past the last address. -/
theorem relocate_short_of_end :
    ((0xFFFFFFFFFFFFFC00 : Word).toNat + (0x400 : Word).toNat = Word.modulus ∧
      ((relocate 0xFFFFFFFFFFFFFC00 0x1000 0x400).runFrom .empty).1 =
        .error (.error (.memoryFault 0xFFFFFFFFFFFFFC00))) ∧
    ((0xFFFFFFFFFFFFFFF8 : Word).toNat + 8 = Word.modulus ∧
      ((relocate 0x1000 0x2000 0x10).runFrom (Ledger.empty.recordEscape 0xFFFFFFFFFFFFFFF8)).1 =
        .error (.error (.memoryFault 0xFFFFFFFFFFFFFFF8))) ∧
    ((0x400 : Word).toNat + (0x8000000000000000 : Word).toNat < Word.modulus ∧
      ((relocate 0x400 0x400 0x8000000000000000).runFrom .empty).1 = .error (.fatal .capacity)) := by
  decide +kernel

end Ledger

end RegionGuard

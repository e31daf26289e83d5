import RegionGuard.Proofs.HeldBlocks
set_option autoImplicit false

namespace RegionGuard

open Stateful

theorem Word.mul_eq_of_mul? {v w total : Word} (h : Word.mul? v w = some total) : v * w = total := by
  rw [Word.mul?_eq_some_iff] at h
  rw [← UInt64.toNat_inj, UInt64.toNat_mul, h]
  exact Nat.mod_eq_of_lt total.toNat_lt

namespace Memory

variable {m : Memory} {address source destination length : Word}

theorem check_of_fits {n : Nat} (hpage : pageSize ≤ address.toNat) (hfits : address.toNat + n < Word.modulus) :
    check address n = .ok () :=
  if_neg (not_or.mpr ⟨Nat.not_lt.mpr hpage, Nat.not_le.mpr hfits⟩)

theorem write_succeeds {bytes : List UInt8} (hpage : pageSize ≤ address.toNat)
    (hfits : address.toNat + bytes.length < Word.modulus) : ∃ m', m.write address bytes = .ok m' := by
  unfold write
  rw [check_of_fits hpage hfits]
  exact ⟨_, rfl⟩

theorem copy_succeeds (hshort : length.toNat < 0x8000000000000000) (hsource : pageSize ≤ source.toNat)
    (hdestination : pageSize ≤ destination.toNat) (hfits : source.toNat + length.toNat < Word.modulus)
    (hfits' : destination.toNat + length.toNat < Word.modulus) : ∃ m', m.copy source destination length = .ok m' := by
  have hread : ∃ bytes, m.read source length.toNat = .ok bytes ∧ bytes.length = length.toNat := by
    unfold read
    rw [check_of_fits hsource hfits]
    exact ⟨_, rfl, by rw [List.length_map, List.length_range]⟩
  obtain ⟨bytes, hbytes, hlength⟩ := hread
  obtain ⟨m', hm'⟩ : ∃ m', m.write destination bytes = .ok m' :=
    write_succeeds hdestination (by rw [hlength]; exact hfits')
  unfold copy
  rw [if_neg (Nat.not_le.mpr hshort), hbytes]
  exact ⟨m', hm'⟩

end Memory

inductive AllocatorCall where
  | malloc (size : Word)
  | calloc (count size : Word)
  | realloc (old size : Word)
  | free (address : Word)
deriving DecidableEq, Repr

namespace AllocatorCall

/-- Makes a call with its notification: a block is given back after the monitor was told, all else before. -/
def perform : AllocatorCall → Stateful Machine Word
  | malloc size => do
    let place ← Machine.malloc size
    Machine.onMonitor (Monitor.notifyMalloc place size)
    return place
  | calloc count size => do
    let place ← Machine.calloc count size
    Machine.onMonitor (Monitor.notifyCalloc place size count)
    return place
  | realloc old size => do
    let place ← Machine.realloc old size
    Machine.onMonitor (Monitor.notifyRealloc place size old)
    return place
  | free address => do
    Machine.onMonitor (Monitor.notifyFree address)
    Machine.free address
    return 0

/-- Whether a call gives back, or resizes, nothing that is not held. -/
def Permitted (held : Holdings) : AllocatorCall → Prop
  | realloc address _ | free address => address = 0 ∨ (held.get? address).isSome
  | _ => True

instance (held : Holdings) : (c : AllocatorCall) → Decidable (c.Permitted held)
  | malloc _ | calloc _ _ => inferInstanceAs (Decidable True)
  | realloc address _ | free address => inferInstanceAs (Decidable (address = 0 ∨ (held.get? address).isSome))

/-- Why the monitor does not take note of a call: the length of a block of zeros has to be a word. -/
def refusal? : AllocatorCall → Option Error
  | calloc count size =>
    if (Word.mul? count size).isNone then some (.invalidRegion (.allocationOverflow count size)) else none
  | _ => none

def settle (held : Holdings) (answer : Word) : AllocatorCall → Holdings
  | malloc size => held.take answer size
  | calloc count size => held.take answer (count * size)
  | realloc old size => held.resize old answer size
  | free address => held.erase address

end AllocatorCall

namespace Machine

open Monitor

variable {m m' : Machine} {held : Holdings} {place size : Word}

def Balances (m : Machine) (held : Holdings) : Prop := m.monitor.Balance m.monitor.heap held

/-- A new block is one that was not held, and the null pointer stands for none. -/
theorem malloc_leads (h : m.Balances held) (size : Word) :
    (malloc size).Leads m
      (fun place m' => held.get? place = none ∧ (place = 0 ∧ m' = m ∨
        place ≠ 0 ∧ m'.monitor.ledger = m.monitor.ledger ∧ m'.Balances (held.insert place ⟨size, false⟩)))
      fun _ _ => False := by
  unfold malloc onMonitor
  refine .zoom ?_
  unfold Leads
  rw [runFrom_eval]
  cases halloc : m.monitor.heap.alloc? size with
  | none => exact ⟨h.null, .inl ⟨rfl, rfl⟩⟩
  | some found =>
    obtain ⟨granted, hheap, hle, hroom, hnone, -⟩ := h.lodged.laid.granted halloc
    refine ⟨h.get?_eq_none_iff.mpr hnone, .inr ⟨(h.behind hroom).2, rfl, ?_⟩⟩
    have htaken := h.takes hroom hnone hle
    rw [← hheap] at htaken
    exact htaken.congr rfl rfl

theorem onMemory_leads {f : Memory → Outcome Memory} {memory : Memory} (hf : f m.memory = .ok memory) :
    (onMemory f).Leads m (fun _ m' => m' = { m with monitor := m.monitor.withMemory memory }) fun _ _ => False := by
  have hchange : (do return m.monitor.withMemory (← f m.memory) : Outcome Monitor) = .ok (m.monitor.withMemory memory) := by
    rw [hf]
    rfl
  unfold onMemory onMonitor
  refine .zoom (.change (fun m' hm' => ?_) fun e he => ?_)
  · cases hchange.symm.trans hm'
    rfl
  · cases hchange.symm.trans he

theorem calloc_leads (h : m.Balances held) (count size : Word) :
    (calloc count size).Leads m
      (fun place m' => held.get? place = none ∧ (place = 0 ∧ m' = m ∨
        place ≠ 0 ∧ Word.mul? count size = some (count * size) ∧ m'.Balances (held.insert place ⟨count * size, false⟩)))
      fun _ _ => False := by
  unfold calloc
  cases htotal : Word.mul? count size with
  | none => exact .answer ⟨h.null, .inl ⟨rfl, rfl⟩⟩
  | some total =>
    obtain rfl : count * size = total := Word.mul_eq_of_mul? htotal
    refine .bind ((malloc_leads h (count * size)).mono (fun place m' hm' => ?_) fun _ _ he => he)
    obtain ⟨hfree, ⟨rfl, rfl⟩ | ⟨hplace, -, hbalances⟩⟩ := hm'
    · exact .answer ⟨hfree, .inl ⟨rfl, rfl⟩⟩
    obtain ⟨granted, -, hle, hroom⟩ := hbalances.block (Table.get?_insert_self ..)
    obtain ⟨memory, hmemory⟩ : ∃ memory, m'.memory.write place (List.replicate (count * size).toNat 0) = .ok memory := by
      refine Memory.write_succeeds (hbalances.behind hroom).1 ?_
      have := hroom.fits
      have := UInt64.le_iff_toNat_le.mp hle
      rw [List.length_replicate]
      dsimp only at this
      omega
    refine .branch (fun hnull => absurd hnull hplace) fun _ => .bind ((onMemory_leads hmemory).mono (fun _ m'' hm'' => ?_)
      fun _ _ he => he)
    subst hm''
    exact .answer ⟨hfree, .inr ⟨hplace, rfl, hbalances.congr rfl rfl⟩⟩

/-- The contents of a block move to a new block, and the old block is given back before the monitor is told. -/
theorem moveBlock_leads (h : m.Balances held) {old : Word} {b : Holding} (hb : held.get? old = some b) (size : Word) :
    (moveBlock old size).Leads m
      (fun place m' => held.get? place = none ∧ (place = 0 ∧ m' = m ∨
        place ≠ 0 ∧ ∃ heap, m'.monitor.heap = heap.free old ∧ m'.monitor.Balance heap (held.insert place ⟨size, false⟩)))
      fun _ _ => False := by
  unfold moveBlock
  refine .bind ((malloc_leads h size).mono (fun place m' hm' => ?_) fun _ _ he => he)
  obtain ⟨hfree, ⟨rfl, rfl⟩ | ⟨hplace, -, hbalances⟩⟩ := hm'
  · exact .branch (fun _ => .answer ⟨hfree, .inl ⟨rfl, rfl⟩⟩) fun hsome => absurd rfl hsome
  refine .branch (fun hnull => absurd hnull hplace) fun _ => .bind (.read ?_)
  have hne : old ≠ place := by
    rintro rfl
    cases hfree.symm.trans hb
  obtain ⟨granted, -, hle, hroom⟩ := hbalances.block (Table.get?_insert_self ..)
  obtain ⟨oldSize, hold, -, holdRoom⟩ := hbalances.block ((Table.get?_insert_of_ne _ hne _).trans hb)
  obtain ⟨memory, hmemory⟩ : ∃ memory,
      m'.memory.copy old place (min ((m'.monitor.heap.blockSize? old).getD 0) size) = .ok memory := by
    rw [show m'.monitor.heap.blockSize? old = some oldSize from hold, Option.getD_some]
    -- Both blocks end within the arena, which is far shorter than what a copy may be.
    have hmin := Heap.min_le (v := oldSize) (w := size)
    have := UInt64.le_iff_toNat_le.mp hmin.1
    have := UInt64.le_iff_toNat_le.mp hmin.2
    have hlenat := UInt64.le_iff_toNat_le.mp hle
    have hstop : m'.monitor.heap.stop.toNat = 0x50000000 := by
      rw [hbalances.stop]
      decide
    have := hroom.stop
    have := holdRoom.stop
    dsimp only at hlenat
    exact Memory.copy_succeeds (by omega) (hbalances.behind holdRoom).1 (hbalances.behind hroom).1 (by unfold Word.modulus; omega)
      (by unfold Word.modulus; omega)
  refine .bind ((onMemory_leads hmemory).mono (fun _ m'' hm'' => ?_) fun _ _ he => he)
  subst hm''
  have hnull : old ≠ 0 := (hbalances.behind holdRoom).2
  unfold free
  refine .bind (.branch (fun hzero => absurd hzero hnull) fun _ => .zoom (.update (.answer ⟨hfree, .inr ⟨hplace, ?_⟩⟩)))
  exact ⟨m'.monitor.heap, rfl, hbalances.congr rfl rfl⟩

theorem onMonitor_leads {heap : Heap} {x : Stateful Monitor Unit} {E : Failure → Machine → Prop}
    (hheap : m.monitor.heap = heap)
    (hx : x.Leads m.monitor (fun _ monitor => monitor.heap = m.monitor.heap ∧ monitor.Balance heap held)
      fun f monitor => E f { m with monitor := monitor }) : (onMonitor x).Leads m (fun _ m' => m'.Balances held) E := by
  unfold onMonitor
  refine .zoom (hx.mono (fun _ monitor hm' => ?_) fun _ _ he => he)
  obtain ⟨hsame, hbalance⟩ := hm'
  change monitor.Balance monitor.heap held
  rw [hsame, hheap]
  exact hbalance

theorem free_leads (h : m.Balances held) {address : Word} {b : Holding} (hb : held.get? address = some b)
    (hnone : m.monitor.ledger.allocation? address = none) :
    (free address).Leads m (fun _ m' => m'.Balances (held.erase address)) fun _ _ => False := by
  obtain ⟨granted, -, -, hroom⟩ := h.block hb
  unfold free onMonitor
  refine .branch (fun hzero => absurd hzero (h.behind hroom).2) fun _ => .zoom (.update ?_)
  exact (h.gives hb hnone).congr rfl rfl

theorem notifyMalloc_leads (h : m.Balances held)
    (hm' : place = 0 ∧ m' = m ∨ place ≠ 0 ∧ m'.Balances (held.insert place ⟨size, false⟩)) :
    (onMonitor (notifyMalloc place size)).Leads m' (fun _ m'' => m''.Balances (held.take place size)) fun _ _ => False := by
  rcases hm' with ⟨rfl, rfl⟩ | ⟨hplace, h'⟩
  · exact onMonitor_leads rfl (h.notified (.inl rfl))
  · refine onMonitor_leads rfl ((h'.notified (.inr (Table.get?_insert_self ..))).mono
      (fun _ _ hm'' => ⟨hm''.1, hm''.2.of_held fun w => ?_⟩) fun _ _ he => he)
    rw [Holdings.get?_take hplace, Holdings.get?_take hplace, Table.get?_insert]
    split <;> rfl

/-- The monitor is told of a new block, if there was one, in place of an old one that has been given back. -/
theorem notifyRealloc_leads {heap : Heap} (h : m.monitor.Balance heap held) {old : Word} {b : Holding}
    (hb : held.get? old = some b) (hheap : m.monitor.heap = heap.free old)
    (hplace : place = 0 ∨ place ≠ old ∧ held.get? place = some ⟨size, false⟩) :
    (onMonitor (notifyRealloc place size old)).Leads m (fun _ m' => m'.Balances (Holdings.take (held.erase old) place size))
      fun _ _ => False := by
  obtain ⟨granted, -, -, hroom⟩ := h.block hb
  unfold notifyRealloc
  refine onMonitor_leads hheap (.branch (fun _ => ?_) fun hzero => absurd (h.behind hroom).2 hzero)
  refine .bind ((h.forgets hb).mono (fun _ monitor hm => ?_) fun _ _ he => he)
  obtain ⟨hsame, hforgotten, hnone⟩ := hm
  have hgiven : monitor.Balance (heap.free old) (held.erase old) :=
    (hforgotten.gives (Holdings.get?_forget_self hb) hnone).of_held fun w => (Holdings.get?_erase_forget held old w).symm
  refine (hgiven.notified (hplace.imp_right fun hplace => ?_)).mono (fun _ _ hm => ⟨hm.1.trans hsame, hm.2⟩) fun _ _ he => he
  exact (Table.get?_erase_of_ne _ hplace.1).trans hplace.2

/-- A block that could not be resized is held still, and the monitor does not know of it any more. -/
theorem notifyRealloc_null_leads (h : m.Balances held) {old : Word} {b : Holding} (hb : held.get? old = some b) (size : Word) :
    (onMonitor (notifyRealloc 0 size old)).Leads m (fun _ m' => m'.Balances (held.forget old)) fun _ _ => False := by
  obtain ⟨granted, -, -, hroom⟩ := h.block hb
  unfold notifyRealloc
  refine onMonitor_leads rfl (.branch (fun _ => ?_) fun hzero => absurd (h.behind hroom).2 hzero)
  refine .bind ((h.forgets hb).mono (fun _ monitor hm => ?_) fun _ _ he => he)
  exact (hm.2.1.notified (.inl rfl)).mono (fun _ _ hm' => ⟨hm'.1.trans hm.1, hm'.2⟩) fun _ _ he => he

theorem performRealloc_leads (h : m.Balances held) {old : Word} (hc : (AllocatorCall.realloc old size).Permitted held) :
    (AllocatorCall.realloc old size).perform.Leads m
      (fun place m' => held.get? place = none ∧ m'.Balances ((AllocatorCall.realloc old size).settle held place))
      fun _ _ => False := by
  unfold AllocatorCall.perform realloc
  dsimp only
  -- Without an old block this is a request for a new one, and with a size of none the old block just goes.
  by_cases hold : old = 0
  · subst hold
    rw [if_pos rfl]
    refine .bind ((malloc_leads h size).mono (fun place m' hm' => ?_) fun _ _ he => he)
    refine .bind ((notifyMalloc_leads h (hm'.2.imp_right fun hm' => ⟨hm'.1, hm'.2.2⟩)).mono (fun _ m'' hm'' =>
      .answer ⟨hm'.1, ?_⟩) fun _ _ he => he)
    exact hm''.of_held (Holdings.get?_resize_of_none h.null place size)
  obtain ⟨b, hb⟩ := Option.isSome_iff_exists.mp (hc.resolve_left hold)
  rw [if_neg hold]
  by_cases hsize : size = 0
  · subst hsize
    rw [if_pos rfl]
    unfold free onMonitor
    rw [if_neg hold]
    refine .bind (.bind (.zoom (.update (.answer (.bind ?_)))))
    have hgiven : ({ m with monitor := m.monitor.withHeap (m.monitor.heap.free old) } : Machine).monitor.Balance m.monitor.heap held :=
      h.congr rfl rfl
    exact (notifyRealloc_leads hgiven hb rfl (.inl rfl)).mono (fun _ m' hm' => Leads.answer ⟨h.null, hm'⟩) fun _ _ he => he
  rw [if_neg hsize]
  refine .bind ((moveBlock_leads h hb size).mono (fun place m' hm' => .bind ?_) fun _ _ he => he)
  obtain ⟨hfree, ⟨rfl, rfl⟩ | ⟨hplace, heap, hheap, hbalance⟩⟩ := hm'
  · -- No new block was found, so the old one is held still; the monitor is told that it is not.
    refine (notifyRealloc_null_leads h hb size).mono (fun _ m'' hm'' => .answer ⟨hfree, ?_⟩) fun _ _ he => he
    change m''.Balances (held.resize old 0 size)
    rw [Holdings.resize_failed hsize]
    exact hm''
  · have hne : old ≠ place := by
      rintro rfl
      cases hfree.symm.trans hb
    have hb' : (held.insert place ⟨size, false⟩).get? old = some b := (Table.get?_insert_of_ne _ hne _).trans hb
    refine (notifyRealloc_leads hbalance hb' hheap (.inr ⟨hne.symm, Table.get?_insert_self ..⟩)).mono
      (fun _ m'' hm'' => .answer ⟨hfree, hm''.of_held fun w => ?_⟩) fun _ _ he => he
    change (held.resize old place size).get? w = _
    rw [Holdings.resize_done hplace, Holdings.get?_take hplace, Holdings.get?_take hplace]
    split
    · rfl
    · rename_i hw
      rw [Table.get?_erase, Table.get?_erase, Table.get?_insert, if_neg hw]

theorem performFree_leads (h : m.Balances held) {address : Word} (hc : (AllocatorCall.free address).Permitted held) :
    (AllocatorCall.free address).perform.Leads m
      (fun place m' => held.get? place = none ∧ m'.Balances ((AllocatorCall.free address).settle held place))
      fun _ _ => False := by
  unfold AllocatorCall.perform notifyFree
  dsimp only [AllocatorCall.settle]
  by_cases hnull : address = 0
  · subst hnull
    unfold onMonitor free
    refine .bind (.zoom (.branch (fun _ => .answer ?_) fun hsome => absurd rfl hsome))
    refine .bind (.branch (fun _ => .answer (.answer ⟨h.null, h.of_held fun w => ?_⟩)) fun hsome => absurd rfl hsome)
    rw [Table.get?_erase]
    split
    · rename_i hw
      rw [hw, h.null]
    · rfl
  obtain ⟨b, hb⟩ := Option.isSome_iff_exists.mp (hc.resolve_left hnull)
  unfold onMonitor
  refine .bind (.zoom (.branch (fun hzero => absurd hzero hnull) fun _ => .bind (.update ?_)))
  have h' : Balance { m.monitor with counters := { m.monitor.counters with frees := m.monitor.counters.frees + 1 } }
      m.monitor.heap held := h.congr rfl rfl
  refine (h'.forgets hb).mono (fun _ monitor hm => .bind ?_) fun _ _ he => he
  obtain ⟨hsame, hforgotten, hnone⟩ := hm
  have hforgotten : Balances { m with monitor := monitor } (held.forget address) := by
    change monitor.Balance monitor.heap _
    rw [hsame]
    exact hforgotten
  refine (free_leads hforgotten (Holdings.get?_forget_self hb) hnone).mono (fun _ m' hm' => .answer ⟨h.null, ?_⟩) fun _ _ he => he
  exact hm'.of_held fun w => (Holdings.get?_erase_forget held address w).symm

/-- A permitted call is answered, with a block that was not held if with any, and the monitor knows what is held then. Only
a call that is refused fails, and nothing happens. -/
theorem perform_leads (h : m.Balances held) {c : AllocatorCall} (hc : c.Permitted held) :
    c.perform.Leads m (fun place m' => c.refusal? = none ∧ held.get? place = none ∧ m'.Balances (c.settle held place))
      fun f m' => m' = m ∧ ∃ e, c.refusal? = some e ∧ f = .error e := by
  cases c with
  | malloc size =>
    refine .bind ((malloc_leads h size).mono (fun place m' hm' => ?_) fun _ _ he => he.elim)
    obtain ⟨hfree, hm'⟩ := hm'
    exact .bind ((notifyMalloc_leads h (hm'.imp_right fun hm' => ⟨hm'.1, hm'.2.2⟩)).mono
      (fun _ m'' hm'' => .answer ⟨rfl, hfree, hm''⟩) fun _ _ he => he.elim)
  | calloc count size =>
    refine .bind ((calloc_leads h count size).mono (fun place m' hm' => ?_) fun _ _ he => he.elim)
    obtain ⟨hfree, hm'⟩ := hm'
    have hcomm : Word.mul? size count = Word.mul? count size := congrArg Word.ofNat? (Nat.mul_comm _ _)
    cases htotal : Word.mul? count size with
    | none =>
      obtain ⟨rfl, rfl⟩ := hm'.resolve_right fun hm' => nomatch htotal.symm.trans hm'.2.1
      unfold notifyCalloc onMonitor
      rw [hcomm, htotal]
      exact .bind (.zoom (.bind (.raise ⟨rfl, _, if_pos (congrArg _ htotal), rfl⟩)))
    | some total =>
      obtain rfl : count * size = total := Word.mul_eq_of_mul? htotal
      unfold notifyCalloc
      rw [hcomm, htotal]
      exact .bind ((notifyMalloc_leads h (hm'.imp_right fun hm' => ⟨hm'.1, hm'.2.2⟩)).mono
        (fun _ m'' hm'' => .answer ⟨if_neg (ne_true_of_eq_false (congrArg _ htotal)), hfree, hm''⟩) fun _ _ he => he.elim)
  | realloc old size => exact (performRealloc_leads h hc).mono (fun _ _ hm' => ⟨rfl, hm'⟩) fun _ _ he => he.elim
  | free address => exact (performFree_leads h hc).mono (fun _ _ hm' => ⟨rfl, hm'⟩) fun _ _ he => he.elim

/-- The machines that a program makes its calls on, with what it holds: a fresh one whose text ends below the heap, and then
what each permitted call leaves behind. -/
inductive Keeps : Machine → Holdings → Prop
  | fresh {p : Program} {kind : IndexKind} {m : Machine} : ofProgram p kind = .ok m → m.image.text.stop ≤ heapBase → Keeps m ∅
  | call {m m' : Machine} {held : Holdings} {c : AllocatorCall} {answer : Word} : Keeps m held → c.Permitted held →
      c.perform.runFrom m = (.ok answer, m') → Keeps m' (c.settle held answer)

theorem balances_of_ofProgram {p : Program} {kind : IndexKind} (h : ofProgram p kind = .ok m)
    (htext : m.image.text.stop ≤ heapBase) : m.Balances ∅ := by
  obtain ⟨image, -, h⟩ := bind_eq_ok.mp h
  obtain ⟨space, hbuild, h⟩ := bind_eq_ok.mp h
  cases h
  refine balance_of_build hbuild rfl (by decide) rfl ?_
  rintro r hr w hw
  obtain ⟨hle, hlt⟩ : r.start ≤ w ∧ w < r.stop := of_decide_eq_true hw
  refine decide_eq_false fun hcovers => ?_
  rcases hr with hr | hr <;> cases hr
  · have hstop : (Heap.make heapBase heapSize).stop ≤ stackBase := by decide
    exact UInt64.lt_irrefl _ (UInt64.lt_of_lt_of_le (UInt64.lt_of_lt_of_le hcovers.2 hstop) hle)
  · exact UInt64.lt_irrefl _ (UInt64.lt_of_lt_of_le (UInt64.lt_of_lt_of_le hlt htext) hcovers.1)

theorem Keeps.balances (h : Keeps m held) : m.Balances held := by
  induction h with
  | fresh hprogram htext => exact balances_of_ofProgram hprogram htext
  | call _ hc hrun ih => exact ((perform_leads ih hc).ok hrun).2.2

/-- The blocks of the heap are those that the program holds, and no shorter than it asked for. The monitor has an allocation
of the length that was asked for of each that has bytes, but for those that could not be resized, and it has no others. Every
permitted call is answered, with a new block if with any, unless it asks for zeros whose length is no word: that call fails,
and nothing else happens. -/
theorem allocations_follow_calls (h : Keeps m held) :
    (∀ w, match held.get? w with
      | some b => ∃ granted, m.monitor.heap.blockSize? w = some granted ∧ b.size ≤ granted
      | none => m.monitor.heap.blockSize? w = none) ∧
    (∀ w, m.monitor.ledger.allocation? w = (held.get? w).bind (Holding.allocation? w)) ∧
    ∀ c : AllocatorCall, c.Permitted held → match c.refusal? with
      | some e => c.perform.runFrom m = (.error (.error e), m)
      | none => ∃ answer m', c.perform.runFrom m = (.ok answer, m') ∧ held.get? answer = none ∧
        Keeps m' (c.settle held answer) := by
  have hbalances := h.balances
  refine ⟨fun w => ?_, hbalances.allocations, fun c hc => ?_⟩
  · cases hw : held.get? w with
    | none => exact hbalances.get?_eq_none_iff.mp hw
    | some b =>
      obtain ⟨granted, hgranted, hle, -⟩ := hbalances.block hw
      exact ⟨granted, hgranted, hle⟩
  · have hled := perform_leads hbalances hc
    cases hrun : c.perform.runFrom m with
    | mk o m' =>
      cases o with
      | ok answer =>
        obtain ⟨hgoes, hfree, -⟩ := hled.ok hrun
        rw [hgoes]
        exact ⟨answer, m', rfl, hfree, .call h hc hrun⟩
      | error f =>
        obtain ⟨rfl, e, hrefused, rfl⟩ := hled.error hrun
        rw [hrefused]

def called? : Machine → Holdings → List AllocatorCall → Option (Machine × Holdings)
  | m, held, [] => some (m, held)
  | m, held, c :: rest =>
    if c.Permitted held then
      match c.perform.runFrom m with
      | (.ok answer, m') => called? m' (c.settle held answer) rest
      | _ => none
    else none

theorem Keeps.called (h : Keeps m held) {calls : List AllocatorCall} {held' : Holdings}
    (hcalled : called? m held calls = some (m', held')) : Keeps m' held' := by
  induction calls generalizing m held with
  | nil =>
    cases hcalled
    exact h
  | cons c rest ih =>
    unfold called? at hcalled
    split at hcalled
    · rename_i hc
      split at hcalled
      · rename_i hrun
        exact ih (h.call hc hrun) hcalled
      · cases hcalled
    · cases hcalled

/-- The state after permitted calls on a fresh machine for a program without functions. -/
def busied? (calls : List AllocatorCall) : Option (Machine × Holdings) := do
  let m ← (ofProgram .empty .keyed).toOption
  guard (m.image.text.stop ≤ heapBase)
  called? m ∅ calls

theorem Keeps.of_busied? {calls : List AllocatorCall} (h : busied? calls = some (m, held)) : Keeps m held := by
  unfold busied? at h
  obtain ⟨m₀, hm₀, h⟩ := Option.bind_eq_some_iff.mp h
  obtain ⟨_, hguard, h⟩ := Option.bind_eq_some_iff.mp h
  exact (Keeps.fresh (toOption_eq_some.mp hm₀) (of_guard hguard)).called h

/-- A block of five bytes is resized to forty, one of none stays, one of zeros is given back, and there is no room for all
that is asked for in the end. -/
def business : List AllocatorCall :=
  [.malloc 5, .malloc 0, .calloc 3 4, .realloc 0x40000000 40, .free 0x40000020, .malloc heapSize]

theorem allocations_follow_calls_business :
    ∃ m held, Keeps m held ∧ m.monitor.ledger.allocation? 0x40000030 = some ⟨0x40000030, 40, .heap⟩ ∧
      m.monitor.ledger.allocation? 0x40000010 = none ∧
      (∃ granted, m.monitor.heap.blockSize? 0x40000010 = some granted ∧ 0 ≤ granted) ∧
      (AllocatorCall.calloc 2 0x8000000000000000).perform.runFrom m =
        (.error (.error (.invalidRegion (.allocationOverflow 2 0x8000000000000000))), m) := by
  have hview : (busied? business).map (·.2.entries) = some [(0x40000010, ⟨0, true⟩), (0x40000030, ⟨40, true⟩)] := by
    decide +kernel
  obtain ⟨⟨m, held⟩, hbusied, hentries⟩ := Option.map_eq_some_iff.mp hview
  have hget : ∀ w, held.get? w = List.lookup w [(0x40000010, ⟨0, true⟩), (0x40000030, ⟨40, true⟩)] :=
    fun w => congrArg (·.lookup w) hentries
  have hkeeps := Keeps.of_busied? hbusied
  obtain ⟨hblocks, hallocations, hcalls⟩ := allocations_follow_calls hkeeps
  refine ⟨m, held, hkeeps, ?_, ?_, ?_, hcalls (.calloc 2 0x8000000000000000) trivial⟩
  · rw [hallocations, hget]
    decide
  · rw [hallocations, hget]
    decide
  · have hblock := hblocks 0x40000010
    rw [hget] at hblock
    exact hblock

/-- A block with bytes is held without an allocation, once it could not be resized, and a notification fails. -/
theorem calls_get_out_of_step :
    (∃ m held, Keeps m held ∧ ∃ b, held.get? 0x40000030 = some b ∧ b.size ≠ 0 ∧ m.monitor.ledger.allocation? 0x40000030 = none) ∧
      ∃ m held c, Keeps m held ∧ AllocatorCall.Permitted held c ∧ ∀ answer m', c.perform.runFrom m ≠ (.ok answer, m') := by
  constructor
  · have hview : (busied? (business ++ [.realloc 0x40000030 heapSize])).map
        (fun s => (s.2.get? 0x40000030, s.1.monitor.ledger.allocation? 0x40000030)) = some (some ⟨40, false⟩, none) := by
      decide +kernel
    obtain ⟨⟨m, held⟩, hbusied, hview⟩ := Option.map_eq_some_iff.mp hview
    obtain ⟨hheld, hnone⟩ := Prod.mk.inj hview
    exact ⟨m, held, .of_busied? hbusied, _, hheld, by decide, hnone⟩
  · have hview : (busied? []).map (fun s => ((AllocatorCall.calloc 2 0x8000000000000000).perform.runFrom s.1).1) =
        some (.error (.error (.invalidRegion (.allocationOverflow 2 0x8000000000000000)))) := by
      decide +kernel
    obtain ⟨⟨m, held⟩, hbusied, hview⟩ := Option.map_eq_some_iff.mp hview
    refine ⟨m, held, .calloc 2 0x8000000000000000, .of_busied? hbusied, trivial, fun answer m' hrun => ?_⟩
    rw [hrun] at hview
    cases hview

end Machine

end RegionGuard

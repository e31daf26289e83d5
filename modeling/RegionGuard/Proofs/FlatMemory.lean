import Mathlib.Algebra.BigOperators.Ring.Finset
import RegionGuard.Proofs.Relocations
set_option autoImplicit false

/-!
# Memory as a map of bytes

Whatever is asked of the memory, it answers like one map from addresses to bytes, all of them zero in the beginning. Neither
the bounds of pages show nor when the pages come into being. Only a copy of more bytes than a buffer holds stops, even if it
would be refused.
-/

namespace RegionGuard

open Stateful

namespace Memory

inductive Request where
  | read (address : Word) (length : Nat)
  | write (address : Word) (bytes : List UInt8)
  | readWord (address : Word) (bytes : Nat)
  | writeWord (address value : Word) (bytes : Nat)
  | copy (source destination length : Word)
deriving DecidableEq, Repr

inductive Reply where
  | done
  | bytes (l : List UInt8)
  | number (n : Nat)
deriving DecidableEq, Repr

namespace Request

def perform : Request → Stateful Memory Reply
  | read address length => ask fun m => return .bytes (← m.read address length)
  | write address bytes => do
    change (·.write address bytes)
    return .done
  | readWord address bytes => ask fun m => return .number (← m.readWord address bytes).toNat
  | writeWord address value bytes => do
    change (·.writeWord address value bytes)
    return .done
  | copy source destination length => do
    change (·.copy source destination length)
    return .done

/-- Whether a buffer holds the bytes that a request copies. -/
def isShort : Request → Bool
  | copy _ _ length => length.toNat < 0x8000000000000000
  | _ => true

end Request

def reply (m : Memory) (r : Request) : Outcome Reply := (r.perform.runFrom m).1

/-- The memory that a request leaves behind, whether it succeeds or not. -/
def next (m : Memory) (r : Request) : Memory := (r.perform.runFrom m).2

/-- A range that starts behind the first page and ends before the last address. -/
def InRange (address : Word) (length : Nat) : Prop :=
  pageSize ≤ address.toNat ∧ address.toNat + length < Word.modulus

instance (address : Word) (length : Nat) : Decidable (InRange address length) := inferInstanceAs (Decidable (_ ∧ _))

abbrev Bytes := Nat → UInt8

namespace Bytes

def put (f : Bytes) (start length : Nat) (g : Nat → UInt8) : Bytes := fun address =>
  if start ≤ address ∧ address < start + length then g (address - start) else f address

/-- Answers if a range can be accessed, and else refuses it and changes nothing. -/
def guarded (f : Bytes) (address : Word) (length : Nat) (answer : Outcome Reply × Bytes) : Outcome Reply × Bytes :=
  if InRange address length then answer else (Failure.raise (.memoryFault address), f)

def answer (f : Bytes) : Request → Outcome Reply × Bytes
  | .read address length =>
    f.guarded address length (.ok (.bytes ((List.range length).map fun i => f (address.toNat + i))), f)
  | .write address bytes =>
    f.guarded address bytes.length (.ok .done, f.put address.toNat bytes.length fun i => bytes.getD i 0)
  | .readWord address bytes =>
    let number := ∑ i ∈ Finset.range (min bytes 8), (f (address.toNat + i)).toNat * 256 ^ i
    f.guarded address (min bytes 8) (.ok (.number number), f)
  | .writeWord address value bytes =>
    f.guarded address (min bytes 8)
      (.ok .done, f.put address.toNat (min bytes 8) fun i => .ofNat (value.toNat / 256 ^ i % 256))
  | .copy source destination length =>
    f.guarded source length.toNat (f.guarded destination length.toNat
      (.ok .done, f.put destination.toNat length.toNat fun i => f (source.toNat + i)))

theorem put_congr {f : Bytes} {start length : Nat} {g g' : Nat → UInt8} (h : ∀ i < length, g i = g' i) :
    f.put start length g = f.put start length g' := by
  funext address
  unfold put
  split
  · rename_i hin
    exact h _ (by omega)
  · rfl

end Bytes

variable {m m' : Memory} {address : Word} {f : Memory → Outcome Memory}

theorem check_eq (address : Word) (length : Nat) :
    check address length = if InRange address length then .ok () else Failure.raise (.memoryFault address) := by
  have hrange : InRange address length ↔ ¬ (address.toNat < pageSize ∨ Word.modulus ≤ address.toNat + length) := by
    unfold InRange
    omega
  unfold check
  split
  · rename_i h
    rw [if_neg fun hin => hrange.mp hin h]
  · rename_i h
    rw [if_pos (hrange.mpr h)]
    rfl

theorem byte_setBytes_eq_put (m : Memory) (start : Nat) (l : List UInt8) :
    (m.setBytes start l).byte = Bytes.put m.byte start l.length fun i => l.getD i 0 := by
  funext address
  unfold Bytes.put
  split
  · rename_i h
    have hlt : address - start < l.length := by omega
    have hinside : (m.setBytes start l).byte (start + (address - start)) = l[address - start] := byte_setBytes_inside hlt
    rw [Nat.add_sub_cancel' h.1] at hinside
    exact hinside.trans (List.getD_eq_getElem _ _ hlt).symm
  · exact byte_setBytes (by omega)

theorem getD_toLittleEndian {count n i : Nat} (hi : i < count) :
    (toLittleEndian count n).getD i 0 = .ofNat (n / 256 ^ i % 256) := by
  induction count generalizing n i with
  | zero => exact absurd hi (Nat.not_lt_zero i)
  | succ count ih =>
    cases i with
    | zero => rw [Nat.pow_zero, Nat.div_one]; rfl
    | succ i =>
      rw [toLittleEndian, List.getD_cons_succ, ih (Nat.lt_of_succ_lt_succ hi), Nat.div_div_eq_div_mul, Nat.pow_succ']

theorem ofLittleEndian_map_range (n : Nat) (g : Nat → UInt8) :
    ofLittleEndian ((List.range n).map g) = ∑ i ∈ Finset.range n, (g i).toNat * 256 ^ i := by
  induction n generalizing g with
  | zero => rfl
  | succ n ih =>
    rw [List.range_succ_eq_map, List.map_cons, List.map_map, ofLittleEndian, ih, Finset.sum_range_succ', Finset.mul_sum]
    have hterm : ∀ i, (g (i + 1)).toNat * 256 ^ (i + 1) = 256 * ((g (i + 1)).toNat * 256 ^ i) := by
      intro i
      rw [Nat.pow_succ', Nat.mul_left_comm]
    simp only [hterm]
    rw [Nat.pow_zero, Nat.mul_one, Nat.add_comm]
    rfl

theorem ofLittleEndian_lt (l : List UInt8) : ofLittleEndian l < 256 ^ l.length := by
  induction l with
  | nil => decide
  | cons b rest ih =>
    have hb : b.toNat < 256 := b.toNat_lt
    rw [ofLittleEndian, List.length_cons, Nat.pow_succ]
    omega

theorem runFrom_change_done (m : Memory) : (do change f; return Reply.done).runFrom m =
    match f m with
    | .ok m' => (.ok .done, m')
    | .error e => (.error e, m) := by
  rw [runFrom_bind, runFrom_change]
  cases f m with
  | ok m' => rfl
  | error e => rfl

theorem write_eq (m : Memory) (address : Word) (l : List UInt8) : m.write address l =
    if InRange address l.length then .ok (m.setBytes address.toNat l) else Failure.raise (.memoryFault address) := by
  unfold write
  rw [check_eq]
  split
  · rfl
  · rfl

theorem read_eq (m : Memory) (address : Word) (length : Nat) : m.read address length =
    if InRange address length then .ok ((List.range length).map fun i => m.byte (address.toNat + i))
    else Failure.raise (.memoryFault address) := by
  unfold read
  rw [check_eq]
  split
  · rfl
  · rfl

theorem number_lt (g : Nat → UInt8) (n : Nat) : ∑ i ∈ Finset.range (min n 8), (g i).toNat * 256 ^ i < 2 ^ 64 := by
  have hlt := ofLittleEndian_lt ((List.range (min n 8)).map g)
  rw [ofLittleEndian_map_range, List.length_map, List.length_range] at hlt
  have hpow : 256 ^ min n 8 ≤ 256 ^ 8 := Nat.pow_le_pow_right (by decide) (Nat.min_le_right n 8)
  exact Nat.lt_of_lt_of_le hlt hpow

theorem readWord_eq_sum (m : Memory) (address : Word) (n : Nat) : m.readWord address n =
    if InRange address (min n 8) then
      .ok (.ofNat (∑ i ∈ Finset.range (min n 8), (m.byte (address.toNat + i)).toNat * 256 ^ i))
    else Failure.raise (.memoryFault address) := by
  unfold readWord
  rw [read_eq, ← ofLittleEndian_map_range]
  split
  · rfl
  · rfl

theorem copy_eq (m : Memory) (source destination length : Word) : m.copy source destination length =
    if 0x8000000000000000 ≤ length.toNat then Failure.stop .capacity
    else if InRange source length.toNat then
      m.write destination ((List.range length.toNat).map fun i => m.byte (source.toNat + i))
    else Failure.raise (.memoryFault source) := by
  unfold copy
  rw [read_eq]
  split
  · rfl
  · split
    · rfl
    · rfl

theorem answer_eq {r : Request} (h : r.isShort) (m : Memory) :
    Bytes.answer m.byte r = (m.reply r, (m.next r).byte) := by
  unfold reply next Request.perform Bytes.answer Bytes.guarded
  cases r with
  | read address length =>
    simp only [runFrom_ask, read_eq]
    split
    · rfl
    · rfl
  | write address bytes =>
    simp only [runFrom_change_done, write_eq]
    split
    · rw [byte_setBytes_eq_put]
    · rfl
  | readWord address bytes =>
    simp only [runFrom_ask, readWord_eq_sum]
    split
    · have hword := UInt64.toNat_ofNat_of_lt (number_lt (fun i => m.byte (address.toNat + i)) bytes)
      exact Prod.ext (congrArg (fun n => Except.ok (Reply.number n)) hword.symm) rfl
    · rfl
  | writeWord address value bytes =>
    simp only [runFrom_change_done, writeWord, write_eq, length_toLittleEndian]
    split
    · rw [byte_setBytes_eq_put, length_toLittleEndian, Bytes.put_congr fun i hi => getD_toLittleEndian hi]
    · rfl
  | copy source destination length =>
    have hshort : ¬ 0x8000000000000000 ≤ length.toNat := Nat.not_le.mpr (of_decide_eq_true h)
    -- The bytes are taken from the memory before the copy, so that it does not matter whether the ranges overlap.
    have hbytes : ∀ i < length.toNat, m.byte (source.toNat + i) =
        ((List.range length.toNat).map fun i => m.byte (source.toNat + i)).getD i 0 := by
      intro i hi
      rw [List.getD_eq_getElem _ _ (by rwa [List.length_map, List.length_range]), List.getElem_map, List.getElem_range]
    simp only [runFrom_change_done, copy_eq, if_neg hshort, write_eq, List.length_map, List.length_range]
    split
    · split
      · rw [byte_setBytes_eq_put, List.length_map, List.length_range, Bytes.put_congr hbytes]
      · rfl
    · rfl

theorem reply_long {r : Request} (h : r.isShort = false) (m : Memory) : m.reply r = .error (.fatal .capacity) := by
  cases r with
  | copy source destination length =>
    have hlong : 0x8000000000000000 ≤ length.toNat := Nat.not_lt.mp (of_decide_eq_false h)
    unfold reply Request.perform
    rw [runFrom_change_done, copy_eq, if_pos hlong]
    rfl
  | read | write | readWord | writeWord => cases h

theorem next_of_error {r : Request} {m : Memory} {e : Failure} (h : m.reply r = .error e) : m.next r = m := by
  have hchange : ∀ f : Memory → Outcome Memory, ((do change f; return Reply.done).runFrom m).1 = .error e →
      ((do change f; return Reply.done).runFrom m).2 = m := by
    intro f hf
    rw [runFrom_change_done] at hf ⊢
    cases hm : f m with
    | ok m' =>
      rw [hm] at hf
      cases hf
    | error e' => rfl
  cases r with
  | read | readWord => rfl
  | write | writeWord | copy => exact hchange _ h

/-- The memory after requests, those that fail or stop included. -/
def after (requests : List Request) : Memory := requests.foldl next empty

/-- The bytes after requests that buffers suffice for; the others change nothing. -/
def Bytes.after (requests : List Request) : Bytes :=
  (requests.filter Request.isShort).foldl (fun f r => (Bytes.answer f r).2) fun _ => 0

theorem byte_empty : empty.byte = fun _ => 0 := rfl

theorem byte_foldl_next (requests : List Request) (m : Memory) : (requests.foldl next m).byte =
    (requests.filter Request.isShort).foldl (fun f r => (Bytes.answer f r).2) m.byte := by
  induction requests generalizing m with
  | nil => rfl
  | cons r rest ih =>
    rw [List.foldl_cons, ih]
    cases h : r.isShort with
    | true => rw [List.filter_cons_of_pos h, List.foldl_cons, answer_eq h]
    | false => rw [List.filter_cons_of_neg (by rw [h]; decide), next_of_error (reply_long h m)]

/-- After every history, the memory is a map of bytes: a request is answered and changes bytes like on the map, and one that
is refused changes nothing. A copy that no buffer holds stops and changes nothing. -/
theorem pages_are_flat (requests : List Request) (r : Request) :
    (after requests).byte = Bytes.after requests ∧
    ((after requests).reply r, ((after requests).next r).byte) =
      (if r.isShort then Bytes.answer (Bytes.after requests) r else (.error (.fatal .capacity), Bytes.after requests)) ∧
    ∀ e, (after requests).reply r = .error e → (after requests).next r = after requests := by
  have hbytes : (after requests).byte = Bytes.after requests := byte_foldl_next requests empty
  refine ⟨hbytes, ?_, fun e => next_of_error⟩
  cases h : r.isShort with
  | true =>
    rw [if_pos rfl, ← hbytes, answer_eq h]
  | false =>
    have hlong := reply_long h (after requests)
    rw [if_neg (by decide), next_of_error hlong, hlong, hbytes]

/-- A copy from the first page is refused where a buffer holds its bytes, but a longer one stops. -/
theorem long_copy_stops :
    Bytes.answer (Bytes.after []) (.copy 0 8192 0x8000000000000000) = (.error (.error (.memoryFault 0)), Bytes.after []) ∧
      (after []).reply (.copy 0 8192 0x8000000000000000) = .error (.fatal .capacity) :=
  ⟨rfl, rfl⟩

end Memory

end RegionGuard

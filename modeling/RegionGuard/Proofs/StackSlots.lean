import RegionGuard.Proofs.Approaches
import RegionGuard.Proofs.ImageLayouts
import RegionGuard.Proofs.Leads
set_option autoImplicit false

/-!
# Stack slots

The stack grows downwards, and the slots of a call lie between the end of the stack and where the stack ended when the call
began. So the slots of all calls in progress are disjoint, and a call that returns gives its slots back. A slot has the bytes
that a word counts: as many as its type has, times the count, modulo the size of a word.
-/

namespace RegionGuard

open Stateful

structure Slot where
  start : Word
  ty : Ty
  count : Word
deriving DecidableEq

namespace Slot

/-- The bytes that elements of the type take up. -/
def size (r : Slot) : Nat := (r.ty.size?.getD 0).toNat * r.count.toNat

def bytes (r : Slot) : Nat := ((r.ty.size?.getD 0) * r.count).toNat

theorem bytes_eq (r : Slot) : r.bytes = r.size % Word.modulus := UInt64.toNat_mul _ _

def span (r : Slot) : Set Nat := Image.span (r.start, r.bytes)

/-- A slot starts above the lower end of the stack, at a multiple of the alignment of its type. -/
structure Fits (r : Slot) : Prop where
  sized : r.ty.size?.isSome
  aligned : ∃ a, r.ty.alignment? = some a ∧ a.toNat ∣ r.start.toNat
  above : Machine.stackBase ≤ r.start

def Climb (low : Nat) : List Slot → Nat → Prop
  | [], high => low ≤ high
  | r :: rest, high => low ≤ r.start.toNat ∧ Climb (r.start.toNat + r.bytes) rest high

variable {low low' high high' : Nat} {l l' : List Slot}

theorem Climb.le (h : Climb low l high) : low ≤ high := by
  induction l generalizing low with
  | nil => exact h
  | cons r rest ih =>
    have := ih h.2
    have := h.1
    omega

theorem Climb.from_le (h : Climb low l high) (hle : low' ≤ low) : Climb low' l high := by
  cases l with
  | nil => exact Nat.le_trans hle h
  | cons r rest => exact ⟨Nat.le_trans hle h.1, h.2⟩

theorem Climb.push {r : Slot} (h : Climb low l high) (hbelow : r.start.toNat + r.bytes ≤ low) :
    Climb r.start.toNat (r :: l) high :=
  ⟨Nat.le_refl _, h.from_le hbelow⟩

theorem Climb.append (h : Climb low l high) (h' : Climb high l' high') : Climb low (l ++ l') high' := by
  induction l generalizing low with
  | nil => exact h'.from_le h
  | cons r rest ih => exact ⟨h.1, ih h.2⟩

theorem Climb.within (h : Climb low l high) : ∀ r ∈ l, low ≤ r.start.toNat ∧ r.start.toNat + r.bytes ≤ high := by
  induction l generalizing low with
  | nil => exact fun _ hr => absurd hr List.not_mem_nil
  | cons r rest ih =>
    refine List.forall_mem_cons.mpr ⟨⟨h.1, h.2.le⟩, fun q hq => ?_⟩
    have := ih h.2 q hq
    have := h.1
    omega

theorem Climb.disjoint (h : Climb low l high) : l.Pairwise fun q r => Disjoint q.span r.span := by
  induction l generalizing low with
  | nil => exact .nil
  | cons r rest ih => exact .cons (fun q hq => Image.disjoint_of_le (h.2.within q hq).1) (ih h.2)

end Slot

namespace Activation

theorem slotAddress?_spec {sp size place : Word} {ty : Ty} {alignment : Word} (halignment : ty.alignment? = some alignment)
    (h : slotAddress? sp size (max alignment 1) = some place) :
    alignment.toNat ∣ place.toNat ∧ place.toNat + size.toNat ≤ sp.toNat ∧ Machine.stackBase ≤ place := by
  obtain ⟨k, -, hk⟩ := Ty.alignment?_spec ty halignment
  rw [Ty.max_alignment halignment] at h
  obtain ⟨below, hbelow, h⟩ := Option.bind_eq_some_iff.mp h
  unfold Word.sub? at hbelow
  split at hbelow
  · rename_i hle
    cases hbelow
    have hmask : (alignment - 1).toNat = 2 ^ k - 1 := by
      have hone : (1 : Word) ≤ alignment := UInt64.le_iff_toNat_le.mpr (Ty.alignment?_pos halignment)
      rw [UInt64.toNat_sub_of_le _ _ hone, hk]
      rfl
    have hplace := Word.toNat_clear (w := sp - size) hmask
    dsimp only at h
    split at h
    · rename_i hbase
      cases h
      refine ⟨?_, ?_, hbase⟩
      · rw [hplace, hk]
        exact Nat.dvd_mul_left _ _
      · have hclear := Nat.div_mul_le_self (sp - size).toNat (2 ^ k)
        rw [UInt64.toNat_sub_of_le _ _ hle] at hplace hclear
        have := UInt64.le_iff_toNat_le.mp hle
        omega
    · cases h
  · cases hbelow

theorem address_value (w : Word) : (address w).value = w := rfl

/-- Where the stack ended when a call began, and who takes its result. -/
def footing (a : Activation) : Word × Receiver := (a.stackPointer, a.receiver)

/-- The slot that a call has just reserved, going by the instruction that has run and what its variable holds now. -/
def reserved? (m : Machine) (a a' : Activation) : Option Slot :=
  match a.remaining.head?.map Instruction.operation with
  | some (.alloca dst ty count) => do
    let c ← (a.word m count).toOption
    let place ← a'.scalars.get? dst.name
    return ⟨place.value, ty, c⟩
  | _ => none

end Activation

/-- What a step does to the end of the stack and to the footings of the calls in progress, with the slot that it reserves. -/
inductive Shift (sp : Word) (l : List (Word × Receiver)) : Option Slot → Word → List (Word × Receiver) → Prop
  | keeps : Shift sp l none sp l
  | reserves {r : Slot} (fits : r.Fits) (below : r.start.toNat + r.bytes ≤ sp.toNat) : Shift sp l (some r) r.start l
  | enters (dst : Option Variable) : Shift sp l none sp ((sp, .caller dst) :: l)
  | leaves {sp' : Word} {dst : Option Variable} {rest : List (Word × Receiver)} (innermost : l = (sp', .caller dst) :: rest) :
    Shift sp l none sp' rest

namespace Processor

open Activation

variable {t : Task} {s s' : Processor} {a : Activation} {callers : List Activation}

def footings (s : Processor) : List (Word × Receiver) := s.calls.map footing

def reserved? (s s' : Processor) : Option Slot :=
  match s.calls, s'.calls with
  | a :: _, a' :: _ => a.reserved? s.machine a'
  | _, _ => none

theorem reserved?_of_calls {a a' : Activation} {callers callers' : List Activation} (hcalls : s.calls = a :: callers)
    (hcalls' : s'.calls = a' :: callers') : reserved? s s' = a.reserved? s.machine a' := by
  unfold reserved?
  rw [hcalls, hcalls']

theorem footings_of_calls {calls : List Activation} (h : s.calls = calls) : s.footings = calls.map footing :=
  congrArg (List.map footing) h

theorem reserved?_of_other (m : Machine) (a a' : Activation) {i : Instruction} {rest : List Instruction}
    (hnext : a.remaining = i :: rest) (hother : i.operation.isAlloca = false) : a.reserved? m a' = none := by
  unfold Activation.reserved?
  rw [hnext]
  cases ho : i.operation with
  | alloca dst ty count =>
    rw [ho] at hother
    cases hother
  | _ => simp [ho]

inductive Turn (s : Processor) (a : Activation) (callers : List Activation) (s' : Processor) : Prop
  | keeps (a' : Activation) (calls : s'.calls = a' :: callers) (kept : a'.footing = a.footing)
    (same : s'.stackPointer = s.stackPointer)
  | enters (b : Activation) (dst : Option Variable) (calls : s'.calls = b :: a :: callers)
    (footing : b.footing = (s.stackPointer, .caller dst)) (same : s'.stackPointer = s.stackPointer)
  | leaves (dst : Option Variable) (receiver : a.receiver = .caller dst) (calls : s'.footings = callers.map Activation.footing)
    (restored : s'.stackPointer = a.stackPointer)

theorem call_turns {dst : Option Variable} {target : CallTarget} {arguments : List Value}
    (h : (call t a callers dst target arguments).runFrom s = (.ok .running, s')) :
    Turn s a callers s' ∧ callers.length < s'.calls.length := by
  unfold call at h
  rw [runFrom_get_bind] at h
  obtain ⟨constants, -, h⟩ := lift_bind_ok.mp h
  obtain ⟨name, -, h⟩ := lift_bind_ok.mp h
  split at h
  · obtain ⟨result, s₁, hrun, h⟩ := runFrom_bind_ok.mp h
    obtain ⟨m, -, rfl⟩ := onMachine_ok hrun
    obtain ⟨scalars, rfl⟩ := deliver_running h
    exact ⟨.keeps _ rfl rfl rfl, Nat.lt_succ_self _⟩
  · obtain ⟨f, -, h⟩ := lift_bind_ok.mp h
    split at h
    · obtain ⟨scalars, rfl⟩ := deliver_running h
      exact ⟨.keeps _ rfl rfl rfl, Nat.lt_succ_self _⟩
    · obtain ⟨progress, s₁, hresume, h⟩ := runFrom_bind_ok.mp h
      have hs₁ := resume_running hresume
      obtain ⟨_, s₂, henter, h⟩ := runFrom_bind_ok.mp h
      cases h
      subst hs₁
      obtain ⟨body, entry, b, -, -, hb, rfl⟩ := enter_ok henter
      obtain ⟨x, scalars, -, rfl⟩ := enterBlock_ok hb
      exact ⟨.enters _ dst rfl rfl rfl, Nat.lt_succ_of_lt (Nat.lt_succ_self _)⟩

theorem leave_turns {result : Option Constant} (h : (leave a callers result).runFrom s = (.ok .running, s')) :
    Turn s a callers s' := by
  unfold leave at h
  rw [runFrom_modify_bind] at h
  split at h
  · cases h
  · rename_i dst hreceiver
    cases callers with
    | nil =>
      cases h
      exact .leaves dst hreceiver rfl rfl
    | cons c rest =>
      obtain ⟨scalars, rfl⟩ := deliver_running h
      exact .leaves dst hreceiver rfl rfl

theorem allocate_reserves {dst : Variable} {ty : Ty} {count : Value} {progress : Progress}
    (h : (allocate a callers dst ty count).runFrom s = (.ok progress, s')) :
    ∃ c, a.word s.machine count = .ok c ∧ s'.calls = a.assign dst (address s'.stackPointer) :: callers ∧
      (⟨s'.stackPointer, ty, c⟩ : Slot).Fits ∧
      s'.stackPointer.toNat + (⟨s'.stackPointer, ty, c⟩ : Slot).bytes ≤ s.stackPointer.toNat := by
  unfold allocate at h
  rw [runFrom_get_bind] at h
  obtain ⟨c, hc, h⟩ := lift_bind_ok.mp h
  obtain ⟨size, hsize, h⟩ := lift_bind_ok.mp h
  obtain ⟨alignment, halignment, h⟩ := lift_bind_ok.mp h
  obtain ⟨place, hplace, h⟩ := present_bind_ok.mp h
  rw [runFrom_modify_bind] at h
  rw [resume_running h]
  have hsize := orStop_eq_ok.mp hsize
  have halignment := orStop_eq_ok.mp halignment
  obtain ⟨haligned, hbelow, habove⟩ := slotAddress?_spec halignment hplace
  refine ⟨c, hc, rfl, ⟨?_, ⟨alignment, halignment, haligned⟩, habove⟩, ?_⟩
  · change ty.size?.isSome
    rw [hsize]
    rfl
  · unfold Slot.bytes
    rw [hsize]
    exact hbelow

theorem execute_turns {o : Operation} (hother : o.isAlloca = false)
    (h : (execute t a callers o).runFrom s = (.ok .running, s')) : Turn s a callers s' := by
  unfold execute at h
  rw [runFrom_get_bind] at h
  cases o with
  | alloca dst ty count => cases hother
  | load dst pointer =>
    obtain ⟨c, -, h⟩ := lift_bind_ok.mp h
    rw [resume_running h]
    exact .keeps _ rfl rfl rfl
  | store pointer value =>
    obtain ⟨place, -, h⟩ := lift_bind_ok.mp h
    obtain ⟨c, -, h⟩ := lift_bind_ok.mp h
    obtain ⟨bytes, -, h⟩ := lift_bind_ok.mp h
    obtain ⟨_, s₁, hrun, h⟩ := runFrom_bind_ok.mp h
    obtain ⟨m, -, rfl⟩ := onMachine_ok hrun
    rw [resume_running h]
    exact .keeps _ rfl rfl rfl
  | phi dst incoming => cases h
  | call dst target arguments => exact (call_turns h).1
  | ret value =>
    obtain ⟨result, -, h⟩ := lift_bind_ok.mp h
    exact leave_turns h
  | cast | elementPtr | binary | compare | select =>
    obtain ⟨c, -, h⟩ := lift_bind_ok.mp h
    rw [resume_running h]
    exact .keeps _ rfl rfl rfl
  | nop =>
    rw [resume_running h]
    exact .keeps _ rfl rfl rfl

theorem Turn.shifts (h : Turn s a callers s') : Shift s.stackPointer (a.footing :: callers.map footing) none s'.stackPointer s'.footings := by
  cases h with
  | keeps a' calls kept same =>
    rw [footings_of_calls calls, List.map_cons, kept, same]
    exact .keeps
  | enters b dst calls footing same =>
    rw [footings_of_calls calls, List.map_cons, List.map_cons, footing, same]
    exact .enters dst
  | leaves dst receiver calls restored =>
    rw [calls, restored]
    exact .leaves (by rw [Activation.footing, receiver])

theorem reserved?_of_alloca {i : Instruction} {rest : List Instruction} {dst : Variable} {ty : Ty} {count : Value}
    {progress : Progress} (hcalls : s.calls = a :: callers) (hnext : a.remaining = i :: rest) (hi : i.operation = .alloca dst ty count)
    (hrun : (execute t { a with remaining := rest } callers i.operation).runFrom s.countOne = (.ok progress, s')) :
    ∃ r : Slot, a.word s.machine count = .ok r.count ∧ r.Fits ∧ r.start.toNat + r.bytes ≤ s.stackPointer.toNat ∧ r.ty = ty ∧
      s'.stackPointer = r.start ∧
      (({ a with remaining := rest } : Activation).assign dst (address r.start)).scalars.get? dst.name = some (address r.start) ∧
      s'.calls = ({ a with remaining := rest } : Activation).assign dst (address r.start) :: callers ∧
      reserved? s s' = some r := by
  rw [hi] at hrun
  obtain ⟨c, hc, hcalls', hfits, hbelow⟩ := allocate_reserves hrun
  have hword : a.word s.machine count = .ok c := hc
  have hheld : (({ a with remaining := rest } : Activation).assign dst (address s'.stackPointer)).scalars.get? dst.name =
      some (address s'.stackPointer) := Table.get?_insert_self _ _ _
  refine ⟨⟨s'.stackPointer, ty, c⟩, hword, hfits, hbelow, rfl, rfl, hheld, hcalls', ?_⟩
  rw [reserved?_of_calls hcalls hcalls']
  unfold Activation.reserved?
  rw [hnext]
  simp only [List.head?_cons, Option.map_some, hi]
  rw [hword, hheld]
  rfl

theorem step_shifts (h : (step t).runFrom s = (.ok .running, s')) :
    Shift s.stackPointer s.footings (reserved? s s') s'.stackPointer s'.footings := by
  obtain ⟨a, callers, hcalls, ⟨hended, b, hb, rfl⟩ | ⟨i, rest, hnext, hrun⟩⟩ := step_running h
  · rw [nextBlock_eq] at hb
    obtain ⟨target, -, hb⟩ := bind_eq_ok.mp hb
    obtain ⟨x, scalars, -, rfl⟩ := enterBlock_ok hb
    rw [reserved?_of_calls hcalls rfl, footings_of_calls hcalls]
    unfold Activation.reserved?
    rw [hended]
    exact .keeps
  · rw [footings_of_calls hcalls]
    cases halloca : i.operation.isAlloca with
    | false =>
      have hnone : reserved? s s' = none := by
        unfold reserved?
        split
        · rename_i a₁ _ _ _ hcalls₁ _
          cases hcalls.symm.trans hcalls₁
          exact reserved?_of_other _ _ _ hnext halloca
        · rfl
      rw [hnone]
      exact (execute_turns halloca hrun).shifts
    | true =>
      obtain ⟨dst, ty, count, hi⟩ : ∃ dst ty count, i.operation = .alloca dst ty count := by
        cases hi : i.operation with
        | alloca dst ty count => exact ⟨dst, ty, count, rfl⟩
        | _ =>
          rw [hi] at halloca
          cases halloca
      obtain ⟨r, -, hfits, hbelow, -, hsp, -, hcalls', hsome⟩ := reserved?_of_alloca hcalls hnext hi hrun
      rw [hsome, hsp, footings_of_calls hcalls']
      exact .reserves hfits hbelow

theorem resume_finishes {calls : List Activation} {result : Option Constant}
    (h : (resume calls).runFrom s = (.ok (.finished result), s')) : False := by
  cases h

theorem deliver_finishes {dst : Option Variable} {value : Option Word} {result : Option Constant}
    (h : (deliver dst value callers).runFrom s = (.ok (.finished result), s')) : False := by
  cases callers with
  | nil => cases h
  | cons a callers =>
    obtain ⟨b, -, h⟩ := lift_bind_ok.mp h
    exact resume_finishes h

theorem execute_finishes {o : Operation} {result : Option Constant}
    (h : (execute t a callers o).runFrom s = (.ok (.finished result), s')) :
    a.receiver = .runner ∧ s'.stackPointer = a.stackPointer ∧ s'.calls = callers := by
  unfold execute at h
  rw [runFrom_get_bind] at h
  cases o with
  | alloca dst ty count =>
    unfold allocate at h
    rw [runFrom_get_bind] at h
    obtain ⟨c, -, h⟩ := lift_bind_ok.mp h
    obtain ⟨size, -, h⟩ := lift_bind_ok.mp h
    obtain ⟨alignment, -, h⟩ := lift_bind_ok.mp h
    obtain ⟨place, -, h⟩ := present_bind_ok.mp h
    rw [runFrom_modify_bind] at h
    exact (resume_finishes h).elim
  | load dst pointer =>
    obtain ⟨c, -, h⟩ := lift_bind_ok.mp h
    exact (resume_finishes h).elim
  | store pointer value =>
    obtain ⟨place, -, h⟩ := lift_bind_ok.mp h
    obtain ⟨c, -, h⟩ := lift_bind_ok.mp h
    obtain ⟨bytes, -, h⟩ := lift_bind_ok.mp h
    obtain ⟨_, s₁, -, h⟩ := runFrom_bind_ok.mp h
    exact (resume_finishes h).elim
  | phi dst incoming => cases h
  | call dst target arguments =>
    unfold call at h
    rw [runFrom_get_bind] at h
    obtain ⟨constants, -, h⟩ := lift_bind_ok.mp h
    obtain ⟨name, -, h⟩ := lift_bind_ok.mp h
    split at h
    · obtain ⟨_, s₁, -, h⟩ := runFrom_bind_ok.mp h
      exact (deliver_finishes h).elim
    · obtain ⟨f, -, h⟩ := lift_bind_ok.mp h
      split at h
      · exact (deliver_finishes h).elim
      · obtain ⟨progress, s₁, hresume, h⟩ := runFrom_bind_ok.mp h
        obtain ⟨_, s₂, -, h⟩ := runFrom_bind_ok.mp h
        cases h
        exact (resume_finishes hresume).elim
  | ret value =>
    obtain ⟨c, -, h⟩ := lift_bind_ok.mp h
    unfold leave at h
    rw [runFrom_modify_bind] at h
    split at h
    · rename_i hreceiver
      cases h
      exact ⟨hreceiver, rfl, rfl⟩
    · exact (deliver_finishes h).elim
  | cast | elementPtr | binary | compare | select =>
    obtain ⟨c, -, h⟩ := lift_bind_ok.mp h
    exact (resume_finishes h).elim
  | nop => exact (resume_finishes h).elim

theorem step_finishes {result : Option Constant} (h : (step t).runFrom s = (.ok (.finished result), s')) :
    s.calls = [] ∨
      ∃ a callers, s.calls = a :: callers ∧ a.receiver = .runner ∧ s'.stackPointer = a.stackPointer ∧ s'.calls = callers := by
  cases hcalls : s.calls with
  | nil => exact .inl rfl
  | cons a callers =>
    refine .inr ⟨a, callers, rfl, ?_⟩
    cases hrem : a.remaining with
    | nil =>
      rw [step_blockEnd hcalls hrem] at h
      cases hb : a.nextBlock s.machine <;> rw [hb] at h <;> cases h
    | cons i rest =>
      rw [step_instruction hcalls hrem] at h
      split at h
      · cases h
      · have hends := execute_finishes h
        exact hends

end Processor

/-- Slots of calls by their footings, from the end of the stack up to where it was when the run began. Below the calls of the run
there may be others. -/
inductive Housed (base : List (Word × Receiver)) (top : Word) : List (List Slot) → List (Word × Receiver) → Word → Prop
  | first {slots : List Slot} {sp : Word} (climb : Slot.Climb sp.toNat slots top.toNat) :
    Housed base top [slots] ((top, .runner) :: base) sp
  | nested {slots : List Slot} {frames : List (List Slot)} {footings : List (Word × Receiver)} {sp sp' : Word}
    {dst : Option Variable} (climb : Slot.Climb sp.toNat slots sp'.toNat) (rest : Housed base top frames footings sp') :
    Housed base top (slots :: frames) ((sp', .caller dst) :: footings) sp

def lodged (slot : Option Slot) (before behind : Nat) : List (List Slot) → List (List Slot)
  | [] => []
  | slots :: frames =>
    if behind < before then frames
    else if before < behind then [] :: slots :: frames
    else (slot.toList ++ slots) :: frames

/-- A step keeps the footing of a call that is in progress and those below it, or it leaves the call. -/
theorem Shift.suffix {sp sp' : Word} {l l' base : List (Word × Receiver)} {slot : Option Slot} {footing : Word × Receiver}
    (h : Shift sp l slot sp' l') (hl : footing :: base <:+ l) : footing :: base <:+ l' ∨ l' = base ∧ sp' = footing.1 := by
  cases h with
  | keeps => exact .inl hl
  | reserves fits below => exact .inl hl
  | enters dst => exact .inl (hl.trans (List.suffix_cons _ _))
  | leaves innermost =>
    subst innermost
    rcases List.suffix_cons_iff.mp hl with heq | hrest
    · cases heq
      exact .inr ⟨rfl, rfl⟩
    · exact .inl hrest

theorem Shift.fits {sp sp' : Word} {l l' : List (Word × Receiver)} {r : Slot} (h : Shift sp l (some r) sp' l') : r.Fits := by
  cases h with
  | reserves fits below => exact fits

theorem mem_lodged {slot : Option Slot} {before behind : Nat} {frames : List (List Slot)} {r : Slot}
    (h : r ∈ (lodged slot before behind frames).flatten) : slot = some r ∨ r ∈ frames.flatten := by
  cases frames with
  | nil => exact .inr h
  | cons slots frames =>
    rw [lodged] at h
    split at h
    · exact .inr (List.mem_append_right _ h)
    · split at h
      · exact .inr h
      · rw [List.flatten_cons, List.append_assoc, List.mem_append] at h
        exact h.imp_left fun hr => Option.mem_toList.mp hr

namespace Housed

variable {base l l' : List (Word × Receiver)} {top sp sp' : Word} {frames : List (List Slot)} {slot : Option Slot}

theorem exists_cons (h : Housed base top frames l sp) : ∃ slots rest, frames = slots :: rest := by
  cases h with
  | first climb => exact ⟨_, _, rfl⟩
  | nested climb rest => exact ⟨_, _, rfl⟩

theorem outermost {a : Activation} {rest : List (Word × Receiver)} (h : Housed base top frames (a.footing :: rest) sp)
    (hreceiver : a.receiver = .runner) : a.stackPointer = top ∧ rest = base := by
  have hfooting : a.footing = (a.stackPointer, .runner) := by rw [Activation.footing, hreceiver]
  rw [hfooting] at h
  cases h
  exact ⟨rfl, rfl⟩

theorem climb (h : Housed base top frames l sp) : Slot.Climb sp.toNat frames.flatten top.toNat := by
  induction h with
  | first climb => simpa using climb
  | nested climb _ ih => exact climb.append ih

theorem shift (h : Housed base top frames l sp) (hshift : Shift sp l slot sp' l') :
    Housed base top (lodged slot l.length l'.length frames) l' sp' := by
  cases hshift with
  | keeps =>
    cases h with
    | first climb => simpa [lodged] using first climb
    | nested climb rest => simpa [lodged] using nested climb rest
  | reserves fits below =>
    cases h with
    | first climb => simpa [lodged] using first (climb.push below)
    | nested climb rest => simpa [lodged] using nested (climb.push below) rest
  | enters dst =>
    have hlodged : lodged none l.length (l.length + 1) frames = [] :: frames := by
      cases h <;> simp [lodged]
    rw [List.length_cons, hlodged]
    exact nested (Nat.le_refl _) h
  | leaves innermost =>
    cases h with
    | first climb => cases innermost
    | nested climb rest =>
      cases innermost
      simpa [lodged] using rest

end Housed

namespace Processor

open Activation

variable {t : Task} {s s' s₀ u : Processor} {fs : List (List Slot)} {function : String} {arguments : List Word} {steps : Nat}

/-- The slots of the calls of a run after some steps, those of the innermost call first. -/
def frames (t : Task) : Nat → Processor → List (List Slot) → List (List Slot)
  | 0, _, fs => fs
  | steps + 1, s, fs =>
    match (step t).runFrom s with
    | (.ok .running, s') => frames t steps s' (lodged (reserved? s s') s.calls.length s'.calls.length fs)
    | _ => fs

theorem frames_succ (hafter : after t steps s = some u) (hstep : (step t).runFrom u = (.ok .running, s')) :
    frames t (steps + 1) s fs = lodged (reserved? u s') u.calls.length s'.calls.length (frames t steps s fs) := by
  induction steps generalizing s fs with
  | zero =>
    cases hafter
    unfold frames
    rw [hstep]
    rfl
  | succ steps ih =>
    obtain ⟨s₁, hs₁, hafter⟩ := after_succ hafter
    rw [frames, hs₁, frames, hs₁]
    exact ih hafter

theorem frames_induction {P : Processor → List (List Slot) → Prop}
    (preserved : ∀ u u' fs, P u fs → (step t).runFrom u = (.ok .running, u') →
      P u' (lodged (reserved? u u') u.calls.length u'.calls.length fs))
    (hstart : P s fs) (hafter : after t steps s = some u) : P u (frames t steps s fs) := by
  induction steps generalizing s fs with
  | zero =>
    cases hafter
    exact hstart
  | succ steps ih =>
    obtain ⟨s₁, hs₁, hafter⟩ := after_succ hafter
    rw [frames, hs₁]
    exact ih (preserved s s₁ fs hstart hs₁) hafter

theorem step_housed {base : List (Word × Receiver)} {top : Word} (h : Housed base top fs s.footings s.stackPointer)
    (hstep : (step t).runFrom s = (.ok .running, s')) :
    Housed base top (lodged (reserved? s s') s.calls.length s'.calls.length fs) s'.footings s'.stackPointer := by
  have := h.shift (step_shifts hstep)
  rwa [footings, footings, List.length_map, List.length_map] at this

theorem start_housed (h : (start t function arguments).runFrom s = (.ok (), s₀)) :
    Housed s.footings s.stackPointer [[]] s₀.footings s₀.stackPointer := by
  obtain ⟨f, -, henter⟩ := lift_bind_ok.mp h
  obtain ⟨body, entry, b, -, -, hb, rfl⟩ := enter_ok henter
  obtain ⟨x, scalars, -, rfl⟩ := enterBlock_ok hb
  exact .first (Nat.le_refl _)

/-- A run that ends well leaves the end of the stack and the calls as they were. -/
theorem proceed_restores {base : List (Word × Receiver)} {top : Word} {n : Nat} {result : Option Constant}
    (h : Housed base top fs s.footings s.stackPointer) (hrun : (proceed t n).runFrom s = (.ok result, u)) :
    u.stackPointer = top ∧ u.footings = base := by
  induction n generalizing s fs with
  | zero => cases hrun
  | succ n ih =>
    rw [proceed_succ] at hrun
    match hstep : (step t).runFrom s with
    | (.ok .running, s₁) =>
      rw [hstep] at hrun
      exact ih (step_housed h hstep) hrun
    | (.ok (.finished r), s₁) =>
      rw [hstep] at hrun
      cases hrun
      rcases step_finishes hstep with hcalls | ⟨a, callers, hcalls, hreceiver, hsp, hcallers⟩
      · rw [footings_of_calls hcalls] at h
        cases h
      · rw [footings_of_calls hcalls] at h
        rw [footings_of_calls hcallers, hsp]
        exact h.outermost hreceiver
    | (.error e, s₁) =>
      rw [hstep] at hrun
      cases hrun

theorem run_restores {o : Outcome (Option Word)} (h : (run t function arguments).runFrom s = (o, u))
    (hmild : ∀ e, o ≠ .error (.fatal e)) : u.stackPointer = s.stackPointer ∧ u.calls.length = s.calls.length := by
  cases o with
  | ok result =>
    obtain ⟨s₁, r, hstart, hproceed, -⟩ := run_ok.mp h
    obtain ⟨hsp, hfootings⟩ := proceed_restores (start_housed hstart) hproceed
    refine ⟨hsp, ?_⟩
    simpa [footings] using congrArg List.length hfootings
  | error e =>
    have hleads : (run t function arguments).Leads s (fun _ _ => True) fun e u =>
        (∀ e', e ≠ .fatal e') → u.stackPointer = s.stackPointer ∧ u.calls.length = s.calls.length := by
      unfold run
      refine .bind (.lift (fun f _ => .bind (.read (.bind (.onError ?_)))) fun _ _ _ => ⟨rfl, rfl⟩)
      unfold Leads
      split
      · exact trivial
      · rename_i e _ _
        cases e with
        | error e => exact fun _ => ⟨rfl, rfl⟩
        | fatal e => exact fun hmild => absurd rfl (hmild e)
    exact hleads.error h fun e' heq => hmild e' (congrArg _ heq)

def InStack (w : Word) : Prop := Machine.stackBase ≤ w ∧ w ≤ Machine.stackTop

/-- The stack has ended between its ends at every time that a call remembers. -/
structure Within (s : Processor) : Prop where
  now : InStack s.stackPointer
  saved : ∀ a ∈ s.calls, InStack a.stackPointer

theorem Within.resume {calls : List Activation} (hs : s.Within) (h : ∀ a ∈ calls, InStack a.stackPointer) :
    Within { s with calls := calls } := ⟨hs.now, h⟩

theorem maintains_resume {calls : List Activation} (h : ∀ a ∈ calls, InStack a.stackPointer) :
    Maintains Within (resume calls) :=
  .bind (.update fun _ hs => hs.resume h) fun _ => .answer _

theorem inStack_head {a a' : Activation} {callers : List Activation} (h : ∀ b ∈ a :: callers, InStack b.stackPointer)
    (hsame : a'.stackPointer = a.stackPointer) : ∀ b ∈ a' :: callers, InStack b.stackPointer :=
  List.forall_mem_cons.mpr ⟨hsame ▸ h a List.mem_cons_self, fun b hb => h b (List.mem_cons_of_mem a hb)⟩

theorem maintains_deliver {dst : Option Variable} {result : Option Word} {callers : List Activation}
    (h : ∀ a ∈ callers, InStack a.stackPointer) : Maintains Within (deliver dst result callers) := by
  cases callers with
  | nil => exact .answer _
  | cons a callers =>
    refine Maintains.of_leads fun s hs => .bind (.lift (fun b hb => ?_) fun _ _ => hs)
    obtain ⟨scalars, rfl⟩ := receive_ok hb
    refine (maintains_resume ?_).leads hs
    exact inStack_head h rfl

theorem maintains_onMachine {α : Type} (x : Stateful Machine α) : Maintains Within (onMachine x) :=
  .zoom (J := fun _ => True) (fun _ _ => trivial) (fun _ _ => trivial) fun _ _ hs _ => ⟨hs.now, hs.saved⟩

theorem maintains_enter (f : Function) (constants : List Constant) (receiver : Receiver) :
    Maintains Within (enter f constants receiver) := by
  refine .inspect fun s hs => .refuse fun _ => ?_
  refine .bind (.lift _) fun body => .bind (.lift _) fun entry => ?_
  refine Maintains.of_leads fun s' hs' => .bind (.lift (fun b hb => ?_) fun _ _ => hs')
  obtain ⟨x, scalars, -, rfl⟩ := enterBlock_ok hb
  exact .put ⟨hs.now, List.forall_mem_cons.mpr ⟨hs.now, hs.saved⟩⟩

section Execute

variable {a : Activation} {callers : List Activation} (h : ∀ b ∈ a :: callers, InStack b.stackPointer)

include h

theorem maintains_allocate (dst : Variable) (ty : Ty) (count : Value) : Maintains Within (allocate a callers dst ty count) := by
  refine Maintains.of_leads fun s hs => .bind (.read (.bind (.lift (fun c _ => ?_) fun _ _ => hs)))
  refine .bind (.lift (fun size _ => .bind (.lift (fun alignment halignment => ?_) fun _ _ => hs)) fun _ _ => hs)
  refine .bind (.present (fun place hplace => .bind (.update ?_)) fun _ => hs)
  obtain ⟨-, hbelow, habove⟩ := slotAddress?_spec (orStop_eq_ok.mp halignment) hplace
  have hle := UInt64.le_iff_toNat_le.mp hs.now.2
  have hplace : InStack place := ⟨habove, UInt64.le_iff_toNat_le.mpr (by omega)⟩
  refine (maintains_resume ?_).leads ⟨hplace, hs.saved⟩
  exact inStack_head h rfl

theorem maintains_call (dst : Option Variable) (target : CallTarget) (arguments : List Value) :
    Maintains Within (call t a callers dst target arguments) := by
  refine .inspect fun s _ => .bind (.lift _) fun constants => .bind (.lift _) fun name => ?_
  split
  · exact .bind (maintains_onMachine _) fun result => maintains_deliver h
  · refine .bind (.lift _) fun f => ?_
    split
    · exact maintains_deliver h
    · exact .bind (maintains_resume h) fun progress => .bind (maintains_enter _ _ _) fun _ => .answer _

theorem maintains_leave (result : Option Constant) : Maintains Within (leave a callers result) := by
  obtain ⟨ha, hcallers⟩ := List.forall_mem_cons.mp h
  refine .bind (.update fun s _ => ⟨ha, hcallers⟩) fun _ => ?_
  split
  · exact .answer _
  · exact maintains_deliver hcallers

theorem maintains_execute (o : Operation) : Maintains Within (execute t a callers o) := by
  unfold execute
  refine .inspect fun s _ => ?_
  cases o with
  | alloca dst ty count => exact maintains_allocate h dst ty count
  | load dst pointer => exact .bind (.lift _) fun c => maintains_resume (inStack_head h rfl)
  | store pointer value =>
    refine .bind (.lift _) fun place => .bind (.lift _) fun c => .bind (.lift _) fun bytes => ?_
    exact .bind (maintains_onMachine _) fun _ => maintains_resume h
  | phi dst incoming => exact .raise _
  | call dst target arguments => exact maintains_call h dst target arguments
  | ret value => exact .bind (.lift _) fun result => maintains_leave h result
  | cast | elementPtr | binary | compare | select => exact .bind (.lift _) fun c => maintains_resume (inStack_head h rfl)
  | nop => exact maintains_resume h

end Execute

theorem maintains_step : Maintains Within (step t) := by
  refine .inspect fun s hs => ?_
  split
  · exact .answer _
  · rename_i a callers hcalls
    have h : ∀ b ∈ a :: callers, InStack b.stackPointer := hcalls ▸ hs.saved
    split
    · refine Maintains.of_leads fun s' hs' => .bind (.lift (fun b hb => ?_) fun _ _ => hs')
      rw [nextBlock_eq] at hb
      obtain ⟨target, -, hb⟩ := bind_eq_ok.mp hb
      obtain ⟨x, scalars, -, rfl⟩ := enterBlock_ok hb
      refine (maintains_resume ?_).leads hs'
      exact inStack_head h rfl
    · rename_i i rest _
      have h' : ∀ b ∈ { a with remaining := rest } :: callers, InStack b.stackPointer := inStack_head h rfl
      refine .bind ?_ fun _ => maintains_execute h' i.operation
      exact .bind (.update fun _ hs => ⟨hs.now, hs.saved⟩) fun _ => .inspect fun _ _ => .branch (fun _ => .raise _) fun _ => .answer _

theorem maintains_proceed (n : Nat) : Maintains Within (proceed t n) := by
  induction n with
  | zero => exact .stop _
  | succ n ih =>
    refine .bind maintains_step fun progress => ?_
    cases progress with
    | running => exact ih
    | finished result => exact .answer _

theorem maintains_run : Maintains Within (run t function arguments) := by
  refine .bind (.lift _) fun f => .inspect fun s hs => .bind ?_ fun _ => .answer _
  exact .onError (.bind (maintains_enter _ _ _) fun _ => maintains_proceed _) fun _ _ => ⟨hs.now, hs.saved⟩

/-- The states that a processor can be in before a run. What happens between two runs may change the machine. -/
inductive Driven : Processor → Prop
  | fresh (m : Machine) : Driven (.ofMachine m)
  | ran {s : Processor} (t : Task) (function : String) (arguments : List Word) (h : Driven s) :
    Driven ((run t function arguments).runFrom s).2
  | changed {s : Processor} (m : Machine) (h : Driven s) : Driven { s with machine := m }

theorem Driven.within (h : Driven s) : s.Within := by
  induction h with
  | fresh m =>
    have hempty : InStack Machine.stackTop := ⟨by decide, by decide⟩
    exact ⟨hempty, fun _ ha => absurd ha List.not_mem_nil⟩
  | ran t function arguments _ ih => exact maintains_run _ ih
  | changed m _ ih => exact ⟨ih.now, ih.saved⟩

theorem next?_of_ended {a : Activation} {callers : List Activation} (hcalls : s.calls = a :: callers) (hended : a.remaining = []) :
    s.next? = none := by
  unfold next?
  rw [hcalls]
  change a.remaining.head? = none
  rw [hended]
  rfl

/-- A call that is executed next has returned in a later state: until then there were more calls in progress. -/
structure Returns (t : Task) (s s' : Processor) : Prop where
  isCall : ∃ i dst target arguments, s.next? = some i ∧ i.operation = .call dst target arguments
  arrives : ∃ u steps, (step t).runFrom s = (.ok .running, u) ∧ after t steps u = some s' ∧
    ∀ k < steps, ∀ w, after t k u = some w → s.calls.length < w.calls.length
  back : s'.calls.length ≤ s.calls.length

/-- As long as a call is in progress, those that wait for it keep their footings. -/
theorem footings_of_returns {footing : Word × Receiver} {base : List (Word × Receiver)}
    (hu : footing :: base <:+ u.footings) (hafter : after t steps u = some s')
    (hdeeper : ∀ k < steps, ∀ w, after t k u = some w → base.length < w.calls.length) (hback : s'.calls.length ≤ base.length) :
    s'.stackPointer = footing.1 ∧ s'.footings = base := by
  induction steps generalizing u with
  | zero =>
    cases hafter
    have hlength := hu.length_le
    rw [footings, List.length_map, List.length_cons] at hlength
    omega
  | succ steps ih =>
    obtain ⟨u₁, hstep, hafter⟩ := after_succ hafter
    have hnext : ∀ k w, after t k u₁ = some w → after t (k + 1) u = some w := fun k w hw => by
      rw [after, hstep]
      exact hw
    rcases (step_shifts hstep).suffix hu with hu₁ | ⟨hfootings, hsp⟩
    · exact ih hu₁ hafter fun k hk w hw => hdeeper (k + 1) (Nat.succ_lt_succ hk) w (hnext k w hw)
    · cases steps with
      | zero =>
        cases hafter
        exact ⟨hsp, hfootings⟩
      | succ steps =>
        have hlt := hdeeper 1 (by omega) u₁ (hnext 0 u₁ rfl)
        have hlength : u₁.calls.length = base.length := by simpa [footings] using congrArg List.length hfootings
        omega

theorem returns_restores (h : Returns t s s') : s'.stackPointer = s.stackPointer ∧ s'.calls.length = s.calls.length := by
  obtain ⟨⟨i, dst, target, arguments, hnext, hi⟩, ⟨u, steps, hstep, hafter, hdeeper⟩, hback⟩ := h
  obtain ⟨a, callers, hcalls, ⟨hended, -⟩ | ⟨j, rest, hrem, hrun⟩⟩ := step_running hstep
  · rw [next?_of_ended hcalls hended] at hnext
    cases hnext
  · cases (next?_of_calls hcalls hrem).symm.trans hnext
    rw [hi] at hrun
    obtain ⟨hturn, hlonger⟩ := call_turns hrun
    have hbase : s.footings.length = s.calls.length := List.length_map _
    have hcalled : s.footings = a.footing :: callers.map footing := footings_of_calls hcalls
    cases hturn with
    | keeps a' calls kept same =>
      cases steps with
      | zero =>
        cases hafter
        exact ⟨same, by rw [calls, hcalls]; rfl⟩
      | succ steps =>
        have := hdeeper 0 (Nat.succ_pos _) u rfl
        rw [calls, hcalls] at this
        exact absurd this (Nat.lt_irrefl _)
    | enters b dst calls footing same =>
      have hfootings : u.footings = (s.stackPointer, .caller dst) :: s.footings := by
        rw [footings_of_calls calls, List.map_cons, footing, hcalled]
        rfl
      have hsuffix : (s.stackPointer, Receiver.caller dst) :: s.footings <:+ u.footings := hfootings ▸ List.suffix_refl _
      obtain ⟨hsp, hfootings'⟩ := footings_of_returns hsuffix hafter (hbase ▸ hdeeper) (hbase ▸ hback)
      refine ⟨hsp, ?_⟩
      rw [← hbase, ← hfootings']
      exact (List.length_map _).symm
    | leaves dst receiver calls restored =>
      have hlength : u.calls.length = callers.length := by simpa [footings] using congrArg List.length calls
      omega

/-- The slots that calls in progress have: they are aligned, they lie in the stack, and no two of them share an address. -/
structure Lodges (live : List Slot) : Prop where
  fits : ∀ r ∈ live, r.Fits
  inside : ∀ r ∈ live, r.span ⊆ Image.span Image.stack
  disjoint : live.Pairwise fun q r => Disjoint q.span r.span

/-- A step gives the innermost call a new slot, for the type and the count of an instruction. The variable holds its address. -/
structure Reserves (s s' : Processor) (dst : Variable) (ty : Ty) (count : Value) (before behind : List (List Slot)) : Prop where
  calls : ∃ a a' callers, s.calls = a :: callers ∧ s'.calls = a' :: callers ∧ ∃ r slots rest,
    before = slots :: rest ∧ behind = (r :: slots) :: rest ∧ r.ty = ty ∧ a.word s.machine count = .ok r.count ∧
      a'.scalars.get? dst.name = some (address r.start)

theorem frames_housed (hstart : (start t function arguments).runFrom s = (.ok (), s₀)) (hafter : after t steps s₀ = some u) :
    Housed s.footings s.stackPointer (frames t steps s₀ [[]]) u.footings u.stackPointer ∧
      ∀ r ∈ (frames t steps s₀ [[]]).flatten, r.Fits := by
  refine frames_induction (P := fun u fs => Housed s.footings s.stackPointer fs u.footings u.stackPointer ∧ ∀ r ∈ fs.flatten, r.Fits)
    (fun u u' fs hu hstep => ⟨step_housed hu.1 hstep, ?_⟩) ⟨start_housed hstart, by simp⟩ hafter
  intro r hr
  rcases mem_lodged hr with hnew | hold
  · exact (hnew ▸ step_shifts hstep).fits
  · exact hu.2 r hold

theorem lodges_of_housed (hs : s.Within) {base : List (Word × Receiver)}
    (h : Housed base s.stackPointer fs u.footings u.stackPointer) (hfits : ∀ r ∈ fs.flatten, r.Fits) : Lodges fs.flatten where
  fits := hfits
  inside r hr := by
    have habove := UInt64.le_iff_toNat_le.mp (hfits r hr).above
    have hbelow := (h.climb.within r hr).2
    have htop := UInt64.le_iff_toNat_le.mp hs.now.2
    exact Set.Ico_subset_Ico habove (Nat.le_trans hbelow htop)
  disjoint := h.climb.disjoint

theorem reserves_of_alloca {dst : Variable} {ty : Ty} {count : Value} {i : Instruction} (hnext : s.next? = some i)
    (hi : i.operation = .alloca dst ty count) (hstep : (step t).runFrom s = (.ok .running, s'))
    {base : List (Word × Receiver)} {top : Word} (h : Housed base top fs s.footings s.stackPointer) :
    Reserves s s' dst ty count fs (lodged (reserved? s s') s.calls.length s'.calls.length fs) := by
  obtain ⟨a, callers, hcalls, ⟨hended, -⟩ | ⟨j, rest, hrem, hrun⟩⟩ := step_running hstep
  · rw [next?_of_ended hcalls hended] at hnext
    cases hnext
  · cases (next?_of_calls hcalls hrem).symm.trans hnext
    obtain ⟨r, hc, -, -, hty, -, hheld, hcalls', hsome⟩ := reserved?_of_alloca hcalls hrem hi hrun
    obtain ⟨slots, frames, rfl⟩ := h.exists_cons
    refine ⟨a, _, callers, hcalls, hcalls', r, slots, frames, rfl, ?_, hty, hc, hheld⟩
    rw [hsome, hcalls, hcalls']
    simp [lodged]

/-- In every run of a processor, whatever it has run before, the slots of the calls in progress are aligned, in the stack and
disjoint, and every instruction that reserves a slot and goes on has made one. A call that returns leaves the end of the stack
and the number of calls as they were, and so does the run, unless it stops for good. A slot has as many bytes as its elements
take up, modulo the size of a word. -/
theorem stack_slots_disjoint (hs : Driven s) (t : Task) (function : String) (arguments : List Word) :
    (∀ r : Slot, r.bytes = r.size % Word.modulus) ∧
    (∀ o u, (run t function arguments).runFrom s = (o, u) → (∀ e, o ≠ .error (.fatal e)) →
      u.stackPointer = s.stackPointer ∧ u.calls.length = s.calls.length) ∧
    ∀ s₀ steps u, (start t function arguments).runFrom s = (.ok (), s₀) → after t steps s₀ = some u →
      Lodges (frames t steps s₀ [[]]).flatten ∧
      (∀ i dst ty count u', u.next? = some i → i.operation = .alloca dst ty count → (step t).runFrom u = (.ok .running, u') →
        Reserves u u' dst ty count (frames t steps s₀ [[]]) (frames t (steps + 1) s₀ [[]])) ∧
      ∀ u', Returns t u u' → u'.stackPointer = u.stackPointer ∧ u'.calls.length = u.calls.length := by
  refine ⟨Slot.bytes_eq, fun o u hrun hmild => run_restores hrun hmild, fun s₀ steps u hstart hafter => ?_⟩
  obtain ⟨hhoused, hfits⟩ := frames_housed hstart hafter
  refine ⟨lodges_of_housed hs.within hhoused hfits, fun i dst ty count u' hnext hi hstep => ?_, fun u' => returns_restores⟩
  rw [frames_succ hafter hstep]
  exact reserves_of_alloca hnext hi hstep hhoused

/-- Where a call that is executed next has returned after some more steps. -/
def returned? (t : Task) (steps : Nat) (s : Processor) : Option Processor :=
  match s.next?.map Instruction.operation, (step t).runFrom s with
  | some (.call ..), (.ok .running, u) => do
    guard (∀ k < steps, (after t k u).all (fun w => s.calls.length < w.calls.length) = true)
    let s' ← after t steps u
    guard (s'.calls.length ≤ s.calls.length)
    return s'
  | _, _ => none

theorem returns_of_returned? (h : returned? t steps s = some s') : Returns t s s' := by
  unfold returned? at h
  split at h
  · rename_i dst target arguments u hnext hstep
    obtain ⟨i, hi, hoperation⟩ := Option.map_eq_some_iff.mp hnext
    obtain ⟨_, hdeeper, h⟩ := Option.bind_eq_some_iff.mp h
    obtain ⟨s', hafter, h⟩ := Option.bind_eq_some_iff.mp h
    obtain ⟨_, hback, h⟩ := Option.bind_eq_some_iff.mp h
    cases h
    refine ⟨⟨i, dst, target, arguments, hi, hoperation⟩, ⟨u, steps, hstep, hafter, fun k hk w hw => ?_⟩, of_guard hback⟩
    have hall := of_guard hdeeper k hk
    rw [hw] at hall
    exact of_decide_eq_true hall
  · cases h

end Processor

/-- A function with a slot of three bytes calls one with a slot of two words. -/
def nestsSlots : Program :=
  .ofFunctions [
    .ofCode "main" [] [[.alloca ⟨"x", .pointer⟩ (.integer 8) (.ofWord 3 64), .call none (.direct "inner") [], .ret none]] [],
    .ofCode "inner" [] [[.alloca ⟨"y", .pointer⟩ (.integer 64) (.ofWord 2 64), .ret none]] []]

/-- The inner call has a slot of its own below that of the outer one, and gives it back. -/
theorem stack_slots_disjoint_nested :
    let t : Task := ⟨nestsSlots, .default, Processor.defaultStepLimit⟩
    ∃ m s₀ u v w, Processor.Driven (.ofMachine m) ∧ (Processor.start t "main" []).runFrom (.ofMachine m) = (.ok (), s₀) ∧
      Processor.after t 3 s₀ = some v ∧
      Processor.frames t 3 s₀ [[]] = [[⟨0x700fffe8, .integer 64, 2⟩], [⟨0x700ffffd, .integer 8, 3⟩]] ∧
      Processor.Lodges (Processor.frames t 3 s₀ [[]]).flatten ∧
      Processor.after t 1 s₀ = some u ∧ Processor.Returns t u w ∧ w.stackPointer = u.stackPointer := by
  intro t
  have htest : (t.comes? [] 3).any fun x =>
      Processor.frames t 3 x.1 [[]] = [[⟨0x700fffe8, .integer 64, 2⟩], [⟨0x700ffffd, .integer 8, 3⟩]] ∧
        (Processor.after t 1 x.1).any fun u => (Processor.returned? t 2 u).isSome := by
    decide +kernel
  obtain ⟨⟨s₀, v, a⟩, hcomes, htest⟩ := (Option.any_eq_true ..).mp htest
  obtain ⟨hframes, htest⟩ := of_decide_eq_true htest
  obtain ⟨u, hu, hreturned⟩ := (Option.any_eq_true ..).mp htest
  obtain ⟨w, hw⟩ := Option.isSome_iff_exists.mp hreturned
  obtain ⟨⟨⟨kind, m, -, hstart⟩, hafter⟩, -⟩ := Task.comes_of_comes? hcomes
  have hreturns := Processor.returns_of_returned? hw
  obtain ⟨-, -, hrun⟩ := Processor.stack_slots_disjoint (.fresh m) t "main" []
  exact ⟨m, s₀, u, v, w, .fresh m, hstart, hafter, hframes, (hrun s₀ 3 v hstart hafter).1, hu, hreturns,
    ((hrun s₀ 1 u hstart hu).2.2 w hreturns).1⟩

/-- So many words that their bytes do not fit a word, but for eight of them. -/
def wrapsSlot : Program :=
  .ofFunctions [.ofCode "main" [] [[.alloca ⟨"x", .pointer⟩ (.integer 64) (.ofWord 0x2000000000000001 64), .ret none]] []]

/-- A slot for more than fits the stack is made nevertheless, and only part of it is set aside. -/
theorem stack_slot_wraps :
    let t : Task := ⟨wrapsSlot, .default, Processor.defaultStepLimit⟩
    ∃ s₀ u r, Processor.Comes t "main" [] s₀ 1 u ∧ Processor.frames t 1 s₀ [[]] = [[r]] ∧
      r.bytes = 8 ∧ Machine.stackTop.toNat < r.start.toNat + r.size := by
  intro t
  have htest : (t.comes? [] 1).any fun x =>
      Processor.frames t 1 x.1 [[]] = [[⟨0x700ffff8, .integer 64, 0x2000000000000001⟩]] := by
    decide +kernel
  obtain ⟨⟨s₀, u, a⟩, hcomes, htest⟩ := (Option.any_eq_true ..).mp htest
  exact ⟨s₀, u, _, (Task.comes_of_comes? hcomes).1, of_decide_eq_true htest, by decide +kernel, by decide +kernel⟩

end RegionGuard

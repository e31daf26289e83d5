import RegionGuard.Machine.Processor
import RegionGuard.Proofs.Related
set_option autoImplicit false

namespace RegionGuard

open Stateful

namespace Machine

/-- A relation of machines that have the same storage, which lasts when both are stored to alike. -/
structure Stores (R : Machine → Machine → Prop) : Prop where
  image : ∀ m n, R m n → m.image = n.image
  heap : ∀ m n, R m n → m.monitor.heap = n.monitor.heap
  memory : ∀ m n, R m n → m.memory = n.memory
  withHeap : ∀ m n, R m n → ∀ heap : Heap,
    R { m with monitor := m.monitor.withHeap heap } { n with monitor := n.monitor.withHeap heap }
  withMemory : ∀ m n, R m n → ∀ memory : Memory,
    R { m with monitor := m.monitor.withMemory memory } { n with monitor := n.monitor.withMemory memory }
  withStackPointer : ∀ m n, R m n → ∀ w : Word,
    R { m with monitor := { m.monitor with stackPointer := w } } { n with monitor := { n.monitor with stackPointer := w } }

namespace Stores

variable {R : Machine → Machine → Prop}

theorem onMemory_respects (hR : Stores R) (f : Memory → Outcome Memory) : Respects R (onMemory f) := by
  intro m n h
  unfold onMemory onMonitor
  have hmemory : m.monitor.memory = n.monitor.memory := hR.memory m n h
  rw [runFrom_zoom, runFrom_zoom, runFrom_change, runFrom_change, hmemory]
  cases f n.monitor.memory with
  | error e => exact rfl
  | ok memory => exact ⟨rfl, hR.withMemory m n h memory⟩

theorem malloc_respects (hR : Stores R) (size : Word) : Respects R (malloc size) := by
  intro m n h
  unfold malloc onMonitor
  rw [runFrom_zoom, runFrom_zoom, runFrom_eval, runFrom_eval, hR.heap m n h]
  cases n.monitor.heap.alloc? size with
  | none => exact ⟨rfl, h⟩
  | some found => exact ⟨rfl, hR.withHeap m n h _⟩

theorem calloc_respects (hR : Stores R) (count size : Word) : Respects R (calloc count size) := by
  unfold calloc
  split
  · exact Respects.answer 0
  · refine (hR.malloc_respects _).bind fun address => ?_
    split
    · exact (Respects.answer ()).bind fun _ => Respects.answer address
    · exact (hR.onMemory_respects _).bind fun _ => Respects.answer address

theorem free_respects (hR : Stores R) (address : Word) : Respects R (free address) := by
  unfold free
  split
  · exact Respects.answer ()
  · intro m n h
    refine ⟨rfl, ?_⟩
    change R { m with monitor := m.monitor.withHeap (m.monitor.heap.free address) }
      { n with monitor := n.monitor.withHeap (n.monitor.heap.free address) }
    rw [hR.heap m n h]
    exact hR.withHeap m n h _

theorem moveBlock_respects (hR : Stores R) (old size : Word) : Respects R (moveBlock old size) := by
  refine (hR.malloc_respects size).bind fun address => ?_
  split
  · exact Respects.answer 0
  · refine Respects.inspect fun m n h => ?_
    rw [hR.heap m n h]
    exact ((hR.onMemory_respects _).bind fun _ => (hR.free_respects old).bind fun _ =>
      Respects.answer address) m n h

theorem realloc_respects (hR : Stores R) (old size : Word) : Respects R (realloc old size) := by
  unfold realloc
  split
  · exact hR.malloc_respects size
  · split
    · exact (hR.free_respects old).bind fun _ => Respects.answer 0
    · exact hR.moveBlock_respects old size

theorem argument_respects {σ : Type} (R : σ → σ → Prop) (function : String) (arguments : List Word)
    (index : Nat) : Respects R (argument function arguments index) := Respects.present _ _

theorem allocate_respects (hR : Stores R) (kind : AllocatorKind) (function : String) (arguments : List Word) :
    Respects R (allocate kind (argument function arguments)) := by
  have arg := fun index => argument_respects R function arguments index
  cases kind with
  | malloc => exact (arg 0).bind fun _ => hR.malloc_respects _
  | calloc => exact (arg 0).bind fun _ => (arg 1).bind fun _ => hR.calloc_respects _ _
  | realloc => exact (arg 0).bind fun _ => (arg 1).bind fun _ => hR.realloc_respects _ _

theorem builtin?_respects (hR : Stores R) {c : Configuration} {function : String} {arguments : List Word}
    {x : Stateful Machine (Option Word)} (hx : builtin? c function arguments = some x) :
    Respects R x ∨ ∃ e, (function, e) ∈ entryPoints c.hooks (argument function arguments) ∧
      x = (do
        onMonitor e
        return none) := by
  unfold builtin? at hx
  split at hx
  · rename_i e he
    cases hx
    obtain ⟨l₁, l₂, hl, -⟩ := List.lookup_eq_some_iff.mp he
    refine .inr ⟨e, ?_, rfl⟩
    rw [hl]
    exact List.mem_append_right _ List.mem_cons_self
  · refine .inl ?_
    split at hx
    · cases hx
      exact (hR.allocate_respects _ _ _).bind fun address => Respects.answer (some address)
    · split at hx
      · cases hx
        exact (argument_respects _ _ _ _).bind fun address =>
          (hR.free_respects address).bind fun _ => Respects.answer none
      · cases hx

end Stores

end Machine

namespace Stateful

variable {σ τ α β : Type} {part : σ → τ}

/-- A computation that leaves a part of the state alone, whether it succeeds or fails. -/
def Keeps (part : σ → τ) (x : Stateful σ α) : Prop := ∀ s, part (x.runFrom s).2 = part s

namespace Keeps

theorem answer (a : α) : Keeps part (pure a : Stateful σ α) := fun _ => rfl

theorem raise (e : Error) : Keeps part (Failure.raise e : Stateful σ α) := fun _ => rfl

theorem lift (o : Outcome α) : Keeps part (liftM o : Stateful σ α) := fun _ => rfl

theorem present (x : Option α) (e : Error) : Keeps part (Failure.orRaise x e : Stateful σ α) := by
  cases x with
  | none => exact raise e
  | some a => exact answer a

theorem update {f : σ → σ} (h : ∀ s, part (f s) = part s) : Keeps part (modify f : Stateful σ PUnit) := h

theorem bind {x : Stateful σ α} {f : α → Stateful σ β} (hx : Keeps part x) (hf : ∀ a, Keeps part (f a)) :
    Keeps part (x >>= f) := by
  intro s
  have hs := hx s
  rw [runFrom_bind]
  generalize x.runFrom s = p at hs ⊢
  match p, hs with
  | (.ok a, s'), hs => exact (hf a s').trans hs
  | (.error e, s'), hs => exact hs

theorem inspect {f : σ → Stateful σ α} (hf : ∀ s, part ((f s).runFrom s).2 = part s) : Keeps part (get >>= f) := by
  intro s
  rw [runFrom_bind, runFrom_get]
  exact hf s

theorem read {f : σ → Stateful σ α} (hf : ∀ s, Keeps part (f s)) : Keeps part (get >>= f) := inspect fun s => hf s s

theorem onError {x : Stateful σ α} {f : σ → σ} (hx : Keeps part x) (hf : ∀ s, part (f s) = part s) :
    Keeps part (Stateful.onError x f) := by
  intro s
  have hs := hx s
  rw [runFrom_onError]
  generalize x.runFrom s = p at hs ⊢
  match p, hs with
  | (.ok a, s'), hs => exact hs
  | (.error (.error e), s'), hs => exact (hf s').trans hs
  | (.error (.fatal e), s'), hs => exact hs

end Keeps

end Stateful

open Stateful

namespace Monitor

def storage (m : Monitor) : Heap × Memory := (m.heap, m.memory)

theorem onSpace_keeps {α : Type} (x : Stateful AddressSpace α) : Keeps storage (onSpace x) := fun _ => rfl

theorem count_keeps (f : Counters → Counters) : Keeps storage (count f) := .update fun _ => rfl

theorem track_keeps (start size : Word) (origin : Origin) : Keeps storage (track start size origin) := by
  unfold track
  split
  · exact .answer _
  · exact (onSpace_keeps _).bind fun _ => .update fun _ => rfl

theorem untrack_keeps (start : Word) : Keeps storage (untrack start) := by
  refine .inspect fun m => ?_
  split
  · rfl
  · rename_i a ledger hledger
    obtain ⟨b, -, hsame⟩ := Option.bind_eq_some_iff.mp hledger
    cases hsame
    rw [runFrom_modify_bind]
    have hkeeps : Keeps storage (do
        let _ ← onSpace (AddressSpace.removeRegion (Region.startingAt start) .byStart)) :=
      (onSpace_keeps _).bind fun _ => .answer _
    exact hkeeps _

theorem notifyMalloc_keeps (start size : Word) : Keeps storage (notifyMalloc start size) :=
  (count_keeps _).bind fun _ => track_keeps _ _ _

theorem guardCalleeStack_keeps (frameSize : Word) : Keeps storage (guardCalleeStack frameSize) := by
  refine (count_keeps _).bind fun _ => .read fun m => (Keeps.present _ _).bind fun stack => ?_
  simp only
  generalize (if m.stackPointer = 0 then stack.stop else m.stackPointer) = stackPointer
  split
  · exact onSpace_keeps _
  · exact Keeps.bind (.update fun _ => rfl) fun _ => .raise _

end Monitor

namespace Machine

open Monitor

theorem entryPoint_keeps (h : Hooks) (function : String) (arguments : List Word) {e : String × Stateful Monitor Unit}
    (he : e ∈ entryPoints h (argument function arguments)) : Keeps storage e.2 := by
  have arg : ∀ index, Keeps storage (argument function arguments index : Stateful Monitor Word) :=
    fun _ => .present _ _
  simp only [entryPoints, List.mem_cons, List.not_mem_nil, or_false] at he
  rcases he with rfl | rfl | rfl | rfl | rfl | rfl | rfl | rfl | rfl
  · exact (arg 0).bind fun _ => (arg 1).bind fun _ => notifyMalloc_keeps _ _
  · exact (arg 0).bind fun _ => (arg 1).bind fun _ => (arg 2).bind fun _ =>
      (Keeps.present _ _).bind fun _ => notifyMalloc_keeps _ _
  · refine (arg 0).bind fun _ => (arg 1).bind fun _ => (arg 2).bind fun old => ?_
    unfold notifyRealloc
    split
    · exact (untrack_keeps _).bind fun _ => notifyMalloc_keeps _ _
    · exact notifyMalloc_keeps _ _
  · refine (arg 0).bind fun _ => ?_
    unfold notifyFree
    split
    · exact .answer _
    · exact (count_keeps _).bind fun _ => untrack_keeps _
  · exact (arg 0).bind fun _ => (arg 1).bind fun _ => (arg 2).bind fun _ =>
      (count_keeps _).bind fun _ => track_keeps _ _ _
  · exact (arg 0).bind fun _ => (count_keeps _).bind fun _ => .update fun _ => rfl
  · exact (arg 0).bind fun _ => (arg 1).bind fun _ => (count_keeps _).bind fun _ =>
      (onSpace_keeps _).onError fun _ => rfl
  · exact (arg 0).bind fun _ => guardCalleeStack_keeps _
  · exact (arg 0).bind fun _ => (onSpace_keeps _).bind fun _ => .answer _

/-- Machines with the same image, heap and memory, whatever the runtime knows. -/
structure SameStorage (m n : Machine) : Prop where
  image : m.image = n.image
  storage : m.monitor.storage = n.monitor.storage

namespace SameStorage

variable {l m n : Machine}

theorem refl (m : Machine) : m.SameStorage m := ⟨rfl, rfl⟩

theorem symm (h : m.SameStorage n) : n.SameStorage m := ⟨h.image.symm, h.storage.symm⟩

theorem trans (h : l.SameStorage m) (h' : m.SameStorage n) : l.SameStorage n :=
  ⟨h.image.trans h'.image, h.storage.trans h'.storage⟩

theorem heap (h : m.SameStorage n) : m.monitor.heap = n.monitor.heap := congrArg Prod.fst h.storage

theorem memory (h : m.SameStorage n) : m.memory = n.memory := congrArg Prod.snd h.storage

end SameStorage

theorem stores_sameStorage : Stores SameStorage where
  image _ _ h := h.image
  heap _ _ h := h.heap
  memory _ _ h := h.memory
  withHeap _ _ h heap := ⟨h.image, congrArg (Prod.mk heap) h.memory⟩
  withMemory _ _ h memory := ⟨h.image, congrArg (Prod.mk · memory) h.heap⟩
  withStackPointer _ _ h _ := ⟨h.image, h.storage⟩

theorem sameStorage_of_entryPoint {h : Hooks} {function name : String} {arguments : List Word} {e : Stateful Monitor Unit}
    (he : (name, e) ∈ entryPoints h (argument function arguments)) (m : Machine) :
    m.SameStorage ((onMonitor e).runFrom m).2 :=
  ⟨rfl, (entryPoint_keeps h function arguments he m.monitor).symm⟩

end Machine

namespace Processor

variable (t : Task) (a : Activation) (callers : List Activation)

theorem onMachine_keeps {α : Type} (x : Stateful Machine α) : Keeps steps (onMachine x) := fun _ => rfl

theorem resume_keeps (calls : List Activation) : Keeps steps (resume calls) := fun _ => rfl

theorem deliver_keeps (dst : Option Variable) (result : Option Word) (calls : List Activation) :
    Keeps steps (deliver dst result calls) := by
  cases calls with
  | nil => exact .answer _
  | cons a callers => exact (Keeps.lift _).bind fun _ => resume_keeps _

theorem enter_keeps (f : Function) (constants : List Constant) (receiver : Receiver) :
    Keeps steps (enter f constants receiver) := by
  refine .inspect fun p => ?_
  split
  · rfl
  · rw [runFrom_bind, runFrom_lift]
    cases f.flowGraph with
    | error e => rfl
    | ok body =>
      simp only
      rw [runFrom_bind, runFrom_lift]
      cases body.entryIndex with
      | error e => rfl
      | ok entry =>
        simp only
        rw [runFrom_bind, runFrom_lift]
        cases Activation.enterBlock p.machine ⟨body, entry, [], ∅, constants, p.stackPointer, receiver⟩ none entry with
        | error e => rfl
        | ok a => rfl

theorem leave_keeps (result : Option Constant) : Keeps steps (leave a callers result) := by
  unfold leave
  refine Keeps.bind (.update fun _ => rfl) fun _ => ?_
  split
  · exact .answer _
  · exact deliver_keeps _ _ _

theorem call_keeps (dst : Option Variable) (target : CallTarget) (arguments : List Value) :
    Keeps steps (call t a callers dst target arguments) := by
  refine .read fun p => (Keeps.lift _).bind fun constants => (Keeps.lift _).bind fun name => ?_
  split
  · exact (onMachine_keeps _).bind fun _ => deliver_keeps _ _ _
  · refine (Keeps.lift _).bind fun f => ?_
    split
    · exact deliver_keeps _ _ _
    · exact (resume_keeps _).bind fun _ => (enter_keeps _ _ _).bind fun _ => .answer _

theorem execute_keeps (o : Operation) : Keeps steps (execute t a callers o) := by
  refine .read fun p => ?_
  cases o with
  | alloca dst ty count =>
    exact .read fun p => (Keeps.lift _).bind fun _ => (Keeps.lift _).bind fun _ => (Keeps.lift _).bind fun _ =>
      (Keeps.present _ _).bind fun _ => Keeps.bind (.update fun _ => rfl) fun _ => resume_keeps _
  | load dst pointer => exact (Keeps.lift _).bind fun _ => resume_keeps _
  | store pointer value =>
    exact (Keeps.lift _).bind fun _ => (Keeps.lift _).bind fun _ => (Keeps.lift _).bind fun _ =>
      (onMachine_keeps _).bind fun _ => resume_keeps _
  | phi dst incoming => exact .raise _
  | call dst target arguments => exact call_keeps t a callers dst target arguments
  | ret value => exact (Keeps.lift _).bind fun _ => leave_keeps a callers _
  | cast | elementPtr | binary | compare | select => exact (Keeps.lift _).bind fun _ => resume_keeps _
  | nop => exact resume_keeps _

end Processor

end RegionGuard

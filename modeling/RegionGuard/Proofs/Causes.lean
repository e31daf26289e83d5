import RegionGuard.Proofs.OverlaidCalls
set_option autoImplicit false

namespace RegionGuard

open Stateful

def Failure.undefined (v : Variable) : Failure := .error (.execution (.undefinedVariable v))

/-- A result or a failure for want of nothing but certain variables. -/
def Outcome.Misses {α : Type} (R : Variable → Prop) (x : Outcome α) : Prop := ∀ v, x = .error (.undefined v) → R v

/-- A computation that fails for want of nothing but certain variables. -/
def Stateful.Lacks {σ α : Type} (R : Variable → Prop) (x : Stateful σ α) : Prop :=
  ∀ s v, (x.runFrom s).1 = .error (.undefined v) → R v

variable {R : Variable → Prop}

namespace Outcome.Misses

variable {α β : Type} {x : Outcome α}

theorem answer (y : α) : Misses R (pure y : Outcome α) := by
  rintro v ⟨⟩

theorem raise {e : Error} (he : ∀ v, e ≠ .execution (.undefinedVariable v)) : Misses R (Failure.raise e : Outcome α) := by
  intro v h
  cases h
  exact absurd rfl (he v)

theorem stop (f : Fatal) : Misses R (Failure.stop f : Outcome α) := by
  rintro v ⟨⟩

theorem proceed {f : α → Outcome β} (hx : Misses R x) (hf : ∀ y, x = .ok y → Misses R (f y)) : Misses R (x >>= f) := by
  cases x with
  | error e =>
    intro v h
    exact hx v (congrArg Except.error (Except.error.inj h))
  | ok y => exact hf y rfl

theorem bind {f : α → Outcome β} (hx : Misses R x) (hf : ∀ y, Misses R (f y)) : Misses R (x >>= f) :=
  hx.proceed fun y _ => hf y

theorem orRaise {y : Option α} {e : Error} (he : ∀ v, e ≠ .execution (.undefinedVariable v)) :
    Misses R (Failure.orRaise y e : Outcome α) := by
  cases y with
  | none => exact raise he
  | some y => exact answer y

theorem orStop {y : Option α} {f : Fatal} : Misses R (Failure.orStop y f : Outcome α) := by
  cases y with
  | none => exact stop f
  | some y => exact answer y

theorem mapM {f : α → Outcome β} {l : List α} (h : ∀ y ∈ l, Misses R (f y)) : Misses R (l.mapM f) := by
  induction l with
  | nil => exact answer []
  | cons y rest ih =>
    rw [List.mapM_cons]
    exact (h y List.mem_cons_self).bind fun _ =>
      (ih fun z hz => h z (List.mem_cons_of_mem y hz)).bind fun _ => answer _

end Outcome.Misses

namespace Stateful.Lacks

variable {σ τ α β : Type}

theorem answer (y : α) : Lacks R (pure y : Stateful σ α) := by
  rintro s v ⟨⟩

theorem raise {e : Error} (he : ∀ v, e ≠ .execution (.undefinedVariable v)) :
    Lacks R (Failure.raise e : Stateful σ α) := by
  intro s v h
  cases h
  exact absurd rfl (he v)

theorem lift {o : Outcome α} (ho : Outcome.Misses R o) : Lacks R (liftM o : Stateful σ α) := by
  intro s v h
  rw [runFrom_lift] at h
  exact ho v h

theorem present {y : Option α} {e : Error} (he : ∀ v, e ≠ .execution (.undefinedVariable v)) :
    Lacks R (Failure.orRaise y e : Stateful σ α) := by
  cases y with
  | none => exact raise he
  | some y => exact answer y

theorem update (f : σ → σ) : Lacks R (modify f : Stateful σ PUnit) := by
  rintro s v ⟨⟩

theorem put (s : σ) : Lacks R (set s : Stateful σ PUnit) := by
  rintro s v ⟨⟩

theorem bind {x : Stateful σ α} {f : α → Stateful σ β} (hx : Lacks R x) (hf : ∀ a, Lacks R (f a)) :
    Lacks R (x >>= f) := by
  intro s v h
  rw [runFrom_bind] at h
  split at h
  · exact hf _ _ v h
  · rename_i e s' hrun
    refine hx s v ?_
    rw [hrun]
    exact congrArg Except.error (Except.error.inj h)

theorem read {f : σ → Stateful σ α} (hf : ∀ s, Lacks R (f s)) : Lacks R (get >>= f) := by
  intro s v h
  rw [runFrom_get_bind] at h
  exact hf s s v h

theorem ask {f : σ → Outcome α} (hf : ∀ s, Outcome.Misses R (f s)) : Lacks R (Stateful.ask f) := by
  intro s v h
  rw [runFrom_ask] at h
  exact hf s v h

theorem change {f : σ → Outcome σ} (hf : ∀ s, Outcome.Misses R (f s)) : Lacks R (Stateful.change f) := by
  intro s v h
  rw [runFrom_change] at h
  cases hs : f s with
  | ok s' =>
    rw [hs] at h
    cases h
  | error e =>
    rw [hs] at h
    exact hf s v (hs.trans (congrArg Except.error (Except.error.inj h)))

theorem zoom {part : σ → τ} {put : τ → σ → σ} {x : Stateful τ α} (hx : Lacks R x) :
    Lacks R (Stateful.zoom part put x) := by
  intro s v h
  rw [runFrom_zoom] at h
  exact hx _ v h

theorem onError {x : Stateful σ α} {f : σ → σ} (hx : Lacks R x) : Lacks R (Stateful.onError x f) := by
  intro s v h
  rw [runFrom_onError] at h
  refine hx s v ?_
  generalize x.runFrom s = p at h ⊢
  match p, h with
  | (.error (.error e), s'), h => exact congrArg Except.error (Except.error.inj h)
  | (.error (.fatal e), s'), h => cases h

end Stateful.Lacks

namespace Evaluation

open Outcome

theorem scalarBits_misses (t : Ty) : Misses R (scalarBits t) := .orRaise (by rintro v ⟨⟩)

theorem layout_misses (w : Option Word) : Misses R (layout w) := .orStop

theorem cast_misses (kind : CastKind) (src : Constant) (t : Ty) : Misses R (cast kind src t) := by
  refine (scalarBits_misses t).bind fun bits => ?_
  cases kind with
  | signExtend => exact .answer _
  | _ => exact .answer _

theorem binary_misses (op : BinaryOperator) (lhs rhs : Constant) : Misses R (binary op lhs rhs) := by
  have divisor : ∀ w, Misses R (checkDivisor w) := fun w => by
    unfold checkDivisor
    split
    · exact .raise (by rintro v ⟨⟩)
    · exact .answer _
  have shift : ∀ bits w, Misses R (checkShift bits w) := fun bits w => by
    unfold checkShift
    split
    · exact .raise (by rintro v ⟨⟩)
    · exact .answer _
  have quotient : ∀ a b, Misses R (signedQuotient a b) := fun a b => by
    unfold signedQuotient
    split
    · exact .stop _
    · exact .answer _
  refine Misses.bind ?_ fun _ => .answer _
  cases op with
  | add | sub | mul | and | or | xor => exact .answer _
  | udiv | urem => exact (divisor _).bind fun _ => .answer _
  | sdiv => exact (divisor _).bind fun _ => quotient _ _
  | shl | lshr | ashr => exact (shift _ _).bind fun _ => .answer _

theorem innerOffset_misses (t : Ty) (l : List Constant) : Misses R (innerOffset t l) := by
  induction l generalizing t with
  | nil => exact .answer _
  | cons index rest ih =>
    unfold innerOffset
    split
    · simp only
      split
      · exact (layout_misses _).bind fun _ => (ih _).bind fun _ => .answer _
      · exact .raise (by rintro v ⟨⟩)
    · exact (layout_misses _).bind fun _ => (ih _).bind fun _ => .answer _
    · exact .raise (by rintro v ⟨⟩)

theorem elementOffset_misses (source : Ty) (l : List Constant) : Misses R (elementOffset source l) := by
  cases l with
  | nil => exact .answer _
  | cons index rest =>
    exact (layout_misses _).bind fun _ => (innerOffset_misses source rest).bind fun _ => .answer _

end Evaluation

namespace Memory

open Outcome

theorem check_misses (address : Word) (length : Nat) : Misses R (check address length) := by
  unfold check
  split
  · exact .raise (by rintro v ⟨⟩)
  · exact .answer _

theorem readWord_misses (m : Memory) (address : Word) (bytes : Nat) : Misses R (m.readWord address bytes) :=
  ((check_misses _ _).bind fun _ => .answer _).bind fun _ => .answer _

theorem write_misses (m : Memory) (address : Word) (bytes : List UInt8) : Misses R (m.write address bytes) :=
  (check_misses _ _).bind fun _ => .answer _

theorem copy_misses (m : Memory) (source destination length : Word) : Misses R (m.copy source destination length) := by
  unfold copy
  split
  · exact (Misses.stop _).bind fun _ => ((check_misses _ _).bind fun _ => .answer _).bind fun _ => write_misses _ _ _
  · exact ((check_misses _ _).bind fun _ => .answer _).bind fun _ => write_misses _ _ _

end Memory

namespace AddressSpace

theorem checkShape_misses (r : Region) : Outcome.Misses R (checkShape r) := by
  intro v h
  unfold checkShape at h
  by_cases hmapped : r.isIdentityMapped
  · rw [if_pos hmapped] at h
    by_cases hempty : r.isEmpty
    · rw [if_pos hempty] at h
      cases h
    · rw [if_neg hempty] at h
      by_cases hwraps : (Word.add? r.start r.length).isNone
      · rw [if_pos hwraps] at h
        cases h
      · rw [if_neg hwraps] at h
        cases h
  · rw [if_neg hmapped] at h
    cases h

theorem insert_misses (x : RegionIndex) (r : Region) : Outcome.Misses R (x.insert r) := by
  intro v h
  unfold RegionIndex.insert at h
  split at h
  · split at h <;> cases h
  · simp only at h
    split at h
    · split at h <;> cases h
    · cases h

theorem addRegion_lacks (r : Region) : Lacks R (addRegion r) := by
  refine (Lacks.lift (checkShape_misses r)).bind fun _ => (Lacks.ask fun s => ?_).bind fun _ =>
    (Lacks.change fun s => (insert_misses _ r).bind fun _ => .answer _).bind fun _ => .answer r
  unfold checkRoom
  split
  · exact .raise (by rintro v ⟨⟩)
  · exact .answer _

theorem removeRegion_lacks (query : Region) (m : MatchMask) : Lacks R (removeRegion query m) := by
  have hrest : ∀ (x : Option (Region × RegionIndex)) (s : AddressSpace), Lacks R (do
      let found ← (Failure.orRaise x (.regionNotFound query.start) : Stateful AddressSpace _)
      set { s with regions := found.2 }
      return found.1) := fun x s =>
    (Lacks.present (by rintro v ⟨⟩)).bind fun _ => (Lacks.put _).bind fun _ => .answer _
  refine (Lacks.ask fun s => .orRaise (by rintro v ⟨⟩)).bind fun r => .read fun s => ?_
  split
  · exact Lacks.bind (.raise (by rintro v ⟨⟩)) fun _ => hrest _ s
  · exact hrest _ s

theorem requestPermission_lacks (address : Word) (a : Access) : Lacks R (requestPermission address a) := by
  refine .read fun s => ?_
  split
  · exact .put _
  · split
    · exact .put _
    · split
      · split
        · exact .put _
        · exact .raise (by rintro v ⟨⟩)
      · exact .raise (by rintro v ⟨⟩)

theorem pin_lacks (address : Word) : Lacks R (pin address) :=
  .read fun _ => (Lacks.present (by rintro v ⟨⟩)).bind fun _ => (Lacks.put _).bind fun _ => .answer _

end AddressSpace

namespace Monitor

theorem onSpace_lacks {α : Type} {x : Stateful AddressSpace α} (hx : Lacks R x) : Lacks R (onSpace x) := hx.zoom.zoom

theorem count_lacks (f : Counters → Counters) : Lacks R (count f) := .update _

theorem track_lacks (start size : Word) (origin : Origin) : Lacks R (track start size origin) := by
  unfold track
  split
  · exact .answer _
  · exact (onSpace_lacks (AddressSpace.addRegion_lacks _)).bind fun _ => .update _

theorem untrack_lacks (start : Word) : Lacks R (untrack start) := by
  refine .read fun m => ?_
  split
  · exact .answer _
  · exact Lacks.bind (.update _) fun _ =>
      (onSpace_lacks (AddressSpace.removeRegion_lacks _ _)).bind fun _ => .answer _

theorem notifyMalloc_lacks (start size : Word) : Lacks R (notifyMalloc start size) :=
  (count_lacks _).bind fun _ => track_lacks _ _ _

theorem guardCalleeStack_lacks (frameSize : Word) : Lacks R (guardCalleeStack frameSize) := by
  refine (count_lacks _).bind fun _ => .read fun m => (Lacks.present (by rintro v ⟨⟩)).bind fun stack => ?_
  simp only
  generalize (if m.stackPointer = 0 then stack.stop else m.stackPointer) = stackPointer
  split
  · exact onSpace_lacks (.update _)
  · exact Lacks.bind (.update _) fun _ => .raise (by rintro v ⟨⟩)

end Monitor

namespace Machine

open Monitor

theorem argument_lacks {σ : Type} (function : String) (arguments : List Word) (index : Nat) :
    Lacks R (argument function arguments index : Stateful σ Word) := .present (by rintro v ⟨⟩)

theorem entryPoint_lacks (h : Hooks) (function : String) (arguments : List Word) {e : String × Stateful Monitor Unit}
    (he : e ∈ entryPoints h (argument function arguments)) : Lacks R e.2 := by
  have arg : ∀ index, Lacks R (argument function arguments index : Stateful Monitor Word) :=
    argument_lacks function arguments
  simp only [entryPoints, List.mem_cons, List.not_mem_nil, or_false] at he
  rcases he with rfl | rfl | rfl | rfl | rfl | rfl | rfl | rfl | rfl
  · exact (arg 0).bind fun _ => (arg 1).bind fun _ => notifyMalloc_lacks _ _
  · exact (arg 0).bind fun _ => (arg 1).bind fun _ => (arg 2).bind fun _ =>
      (Lacks.present (by rintro v ⟨⟩)).bind fun _ => notifyMalloc_lacks _ _
  · refine (arg 0).bind fun _ => (arg 1).bind fun _ => (arg 2).bind fun old => ?_
    unfold notifyRealloc
    split
    · exact (untrack_lacks _).bind fun _ => notifyMalloc_lacks _ _
    · exact notifyMalloc_lacks _ _
  · refine (arg 0).bind fun _ => ?_
    unfold notifyFree
    split
    · exact .answer _
    · exact (count_lacks _).bind fun _ => untrack_lacks _
  · exact (arg 0).bind fun _ => (arg 1).bind fun _ => (arg 2).bind fun _ =>
      (count_lacks _).bind fun _ => track_lacks _ _ _
  · exact (arg 0).bind fun _ => (count_lacks _).bind fun _ => .update _
  · exact (arg 0).bind fun _ => (arg 1).bind fun _ => (count_lacks _).bind fun _ =>
      (onSpace_lacks (AddressSpace.requestPermission_lacks _ _)).onError
  · exact (arg 0).bind fun _ => guardCalleeStack_lacks _
  · exact (arg 0).bind fun _ => (onSpace_lacks (AddressSpace.pin_lacks _)).bind fun _ => .answer _

theorem onMonitor_lacks {α : Type} {x : Stateful Monitor α} (hx : Lacks R x) : Lacks R (onMonitor x) := hx.zoom

theorem onMemory_lacks {f : Memory → Outcome Memory} (hf : ∀ m, Outcome.Misses R (f m)) : Lacks R (onMemory f) :=
  onMonitor_lacks (.change fun _ => (hf _).bind fun _ => .answer _)

theorem malloc_lacks (size : Word) : Lacks R (malloc size) := by
  rintro s v ⟨⟩

theorem calloc_lacks (count size : Word) : Lacks R (calloc count size) := by
  unfold calloc
  split
  · exact .answer _
  · refine (malloc_lacks _).bind fun address => ?_
    split
    · exact .answer _
    · exact (onMemory_lacks fun m => Memory.write_misses m _ _).bind fun _ => .answer _

theorem free_lacks (address : Word) : Lacks R (free address) := by
  unfold free
  split
  · exact .answer _
  · exact onMonitor_lacks (.update _)

theorem moveBlock_lacks (old size : Word) : Lacks R (moveBlock old size) := by
  refine (malloc_lacks size).bind fun address => ?_
  split
  · exact .answer _
  · exact .read fun m => (onMemory_lacks fun m => Memory.copy_misses m _ _ _).bind fun _ =>
      (free_lacks old).bind fun _ => .answer _

theorem realloc_lacks (old size : Word) : Lacks R (realloc old size) := by
  unfold realloc
  split
  · exact malloc_lacks size
  · split
    · exact (free_lacks old).bind fun _ => .answer _
    · exact moveBlock_lacks old size

theorem builtin?_lacks {c : Configuration} {function : String} {arguments : List Word}
    {x : Stateful Machine (Option Word)} (hx : builtin? c function arguments = some x) : Lacks R x := by
  unfold builtin? at hx
  split at hx
  · rename_i e he
    cases hx
    have hmem := (List.lookup_eq_some_iff.mp he)
    obtain ⟨front, back, heq, -⟩ := hmem
    exact (onMonitor_lacks (entryPoint_lacks c.hooks function arguments (e := (function, e))
      (heq ▸ List.mem_append_right _ List.mem_cons_self))).bind fun _ => .answer _
  · split at hx
    · rename_i kind hkind
      cases hx
      refine Lacks.bind ?_ fun _ => .answer _
      have arg := argument_lacks (R := R) (σ := Machine) function arguments
      cases kind with
      | malloc => exact (arg 0).bind fun _ => malloc_lacks _
      | calloc => exact (arg 0).bind fun _ => (arg 1).bind fun _ => calloc_lacks _ _
      | realloc => exact (arg 0).bind fun _ => (arg 1).bind fun _ => realloc_lacks _ _
    · split at hx
      · cases hx
        exact (argument_lacks _ _ _).bind fun _ => (free_lacks _).bind fun _ => .answer _
      · cases hx

end Machine

namespace Activation

open Outcome

variable {m : Machine} {a : Activation}

theorem value_misses {x : Value} (hx : ∀ v, x = .variable v → a.scalars.get? v.name = none → R v) :
    Misses R (a.value m x) := by
  unfold value
  match x, hx with
  | .variable u, hx =>
    intro v h
    change Failure.orRaise (a.scalars.get? u.name) _ = _ at h
    cases hu : a.scalars.get? u.name with
    | some c =>
      rw [hu] at h
      cases h
    | none =>
      rw [hu] at h
      cases h
      exact hx u rfl hu
  | .argument _, _ => exact .orRaise (by rintro v ⟨⟩)
  | .constant _, _ => exact .answer _
  | .null, _ => exact .answer _
  | .global _, _ => exact (Misses.orRaise (by rintro v ⟨⟩)).bind fun _ => .answer _
  | .function _, _ => exact (Misses.orRaise (by rintro v ⟨⟩)).bind fun _ => .answer _

theorem word_misses {x : Value} (hx : ∀ v, x = .variable v → a.scalars.get? v.name = none → R v) :
    Misses R (a.word m x) := (value_misses hx).bind fun _ => .answer _

theorem values_misses {l : List Value} (hl : ∀ v, .variable v ∈ l → a.scalars.get? v.name = none → R v) :
    Misses R (a.values m l) := .mapM fun _ hx => value_misses fun v hv => hl v (hv ▸ hx)

theorem byteCount_misses (bits : Nat) : Misses R (byteCount bits) :=
  (Evaluation.layout_misses _).bind fun _ => .answer _

theorem loaded_misses (ty : Ty) {x : Value} (hx : ∀ v, x = .variable v → a.scalars.get? v.name = none → R v) :
    Misses R (a.loaded m ty x) :=
  (word_misses hx).bind fun _ => (Evaluation.scalarBits_misses ty).bind fun _ => (byteCount_misses _).bind fun _ =>
    (Memory.readWord_misses _ _ _).bind fun _ => .answer _

theorem receive_misses (dst : Option Variable) (result : Option Word) : Misses R (a.receive dst result) := by
  cases dst with
  | none => exact .answer _
  | some v => exact (Evaluation.scalarBits_misses v.ty).bind fun _ => .answer _

theorem computed?_misses {o : Operation} (ho : ∀ v, .variable v ∈ o.reads → a.scalars.get? v.name = none → R v)
    {dst : Variable} {x : Outcome Constant} (hx : a.computed? m o = some (dst, x)) : Misses R x := by
  have operand : ∀ y ∈ o.reads, Misses R (a.value m y) := fun y hy => value_misses fun v hv => ho v (hv ▸ hy)
  cases o with
  | cast dst kind src =>
    cases hx
    exact (operand src List.mem_cons_self).bind fun _ => Evaluation.cast_misses _ _ _
  | elementPtr dst base source indices inbounds =>
    cases hx
    refine (word_misses fun v hv => ho v (hv ▸ List.mem_cons_self)).bind fun _ => ?_
    exact (values_misses fun v hv => ho v (List.mem_cons_of_mem _ hv)).bind fun _ =>
      (Evaluation.elementOffset_misses _ _).bind fun _ => .answer _
  | binary dst op lhs rhs =>
    cases hx
    exact (operand lhs List.mem_cons_self).bind fun _ =>
      (operand rhs (List.mem_cons_of_mem _ List.mem_cons_self)).bind fun _ => Evaluation.binary_misses _ _ _
  | compare dst predicate lhs rhs =>
    cases hx
    exact (operand lhs List.mem_cons_self).bind fun _ =>
      (operand rhs (List.mem_cons_of_mem _ List.mem_cons_self)).bind fun _ => .answer _
  | select dst condition onTrue onFalse =>
    cases hx
    refine (operand condition List.mem_cons_self).bind fun c => operand _ ?_
    split
    · exact List.mem_cons_of_mem _ (List.mem_cons_of_mem _ List.mem_cons_self)
    · exact List.mem_cons_of_mem _ List.mem_cons_self
  | _ => cases hx

theorem enterBlock_misses {previous : Option Nat} {block : Nat}
    (ho : ∀ b dst incoming v j, a.body.block block = .ok b → (dst, incoming) ∈ phis b.instructions →
      (.variable v, j) ∈ incoming → previous = some j → a.scalars.get? v.name = none → R v) :
    Misses R (a.enterBlock m previous block) := by
  refine (Misses.orRaise (by rintro v ⟨⟩)).proceed fun b hb => Misses.bind (.mapM fun e he => ?_) fun _ => .answer _
  refine Misses.bind ?_ fun _ => .answer _
  refine (Misses.orRaise (by rintro v ⟨⟩)).proceed fun j hj =>
    (Misses.orRaise (by rintro v ⟨⟩)).proceed fun x hx => value_misses fun v hv hnone => ?_
  have hx := orRaise_eq_ok.mp hx
  have hblock : x.2 = j := by simpa using List.find?_some hx
  refine ho b e.1 e.2 v j hb he ?_ (orRaise_eq_ok.mp hj) hnone
  rw [← hv, ← hblock]
  exact List.mem_of_find?_eq_some hx

theorem follow_misses {es : List Edge}
    (hes : ∀ e ∈ es, ∀ c ∈ e.condition, ∀ v, c.value = .variable v → a.scalars.get? v.name = none → R v) :
    Misses R (a.follow m es) := by
  induction es with
  | nil => exact .raise (by rintro v ⟨⟩)
  | cons e rest ih =>
    unfold follow
    split
    · exact .answer _
    · rename_i c hc
      refine (word_misses (hes e List.mem_cons_self c hc)).bind fun w => ?_
      split
      · exact .answer _
      · exact ih fun e' he' => hes e' (List.mem_cons_of_mem e he')

theorem nextBlock_misses
    (hedges : ∀ es, a.body.graph.edgesOut a.block = .ok es → ∀ e ∈ es,
      (∀ c ∈ e.condition, ∀ v, c.value = .variable v → a.scalars.get? v.name = none → R v) ∧
      ∀ b dst incoming v, a.body.block e.tail = .ok b → (dst, incoming) ∈ phis b.instructions →
        (.variable v, a.block) ∈ incoming → a.scalars.get? v.name = none → R v) :
    Misses R (a.nextBlock m) := by
  rw [nextBlock_eq]
  refine Misses.proceed ?_ fun target htarget => ?_
  · refine Misses.proceed ?_ fun es hes => follow_misses fun e he => (hedges es hes e he).1
    exact (Misses.orRaise (by rintro v ⟨⟩)).bind fun _ => .mapM fun _ _ => .orStop
  · obtain ⟨es, hes, hfollow⟩ := bind_eq_ok.mp htarget
    obtain ⟨e, he, rfl, -⟩ := exists_of_follow hfollow
    refine enterBlock_misses fun b dst incoming v j hb hphi hv hj hnone => ?_
    cases hj
    exact (hedges es hes e he).2 b dst incoming v hb hphi hv hnone

end Activation

namespace Processor

variable {t : Task} {a : Activation} {callers : List Activation}

theorem resume_lacks (calls : List Activation) : Lacks R (resume calls) := .bind (.update _) fun _ => .answer _

theorem deliver_lacks (dst : Option Variable) (result : Option Word) (calls : List Activation) :
    Lacks R (deliver dst result calls) := by
  cases calls with
  | nil => exact .answer _
  | cons a callers => exact (Lacks.lift (Activation.receive_misses dst result)).bind fun _ => resume_lacks _

theorem enter_lacks (f : Function) (constants : List Constant) (receiver : Receiver) :
    Lacks R (enter f constants receiver) := by
  have hrest : ∀ p : Processor, Lacks R (do
      let body ← (f.flowGraph : Outcome FlowGraph)
      let entry ← (body.entryIndex : Outcome Nat)
      let a ← (Activation.enterBlock p.machine ⟨body, entry, [], ∅, constants, p.stackPointer, receiver⟩ none entry :
        Outcome Activation)
      set { p with calls := a :: p.calls } : Stateful Processor Unit) := fun p =>
    (Lacks.lift (.orRaise (by rintro v ⟨⟩))).bind fun body => (Lacks.lift (.orRaise (by rintro v ⟨⟩))).bind fun entry =>
      (Lacks.lift (Activation.enterBlock_misses (by rintro _ _ _ _ _ _ _ _ ⟨⟩))).bind fun _ => .put _
  refine .read fun p => ?_
  split
  · exact Lacks.bind (.raise (by rintro v ⟨⟩)) fun _ => hrest p
  · exact hrest p

theorem leave_lacks (result : Option Constant) : Lacks R (leave a callers result) := by
  refine Lacks.bind (.update _) fun _ => ?_
  split
  · exact .answer _
  · exact deliver_lacks _ _ _

theorem call_lacks {dst : Option Variable} {target : CallTarget} {arguments : List Value}
    (ho : ∀ v, .variable v ∈ (Operation.call dst target arguments).reads → a.scalars.get? v.name = none → R v) :
    Lacks R (call t a callers dst target arguments) := by
  have hvalues : ∀ v, .variable v ∈ arguments → a.scalars.get? v.name = none → R v := fun v hv => ho v (by
    cases target with
    | direct name => exact hv
    | indirect address => exact List.mem_cons_of_mem _ hv)
  have hcallee : ∀ m, Outcome.Misses R (callee m a target) := fun m => by
    cases target with
    | direct name => exact .answer _
    | indirect address =>
      exact (Activation.word_misses fun v hv => ho v (hv ▸ List.mem_cons_self)).bind fun _ =>
        .orRaise (by rintro v ⟨⟩)
  refine .read fun p => (Lacks.lift (Activation.values_misses hvalues)).bind fun constants =>
    (Lacks.lift (hcallee _)).bind fun name => ?_
  split
  · rename_i x hx
    exact (Machine.builtin?_lacks hx).zoom.bind fun _ => deliver_lacks _ _ _
  · refine (Lacks.lift (.orRaise (by rintro v ⟨⟩))).bind fun f => ?_
    split
    · exact deliver_lacks _ _ _
    · exact (resume_lacks _).bind fun _ => (enter_lacks _ _ _).bind fun _ => .answer _

theorem allocate_lacks {dst : Variable} {ty : Ty} {count : Value}
    (hcount : ∀ v, count = .variable v → a.scalars.get? v.name = none → R v) :
    Lacks R (allocate a callers dst ty count) :=
  .read fun _ => (Lacks.lift (Activation.word_misses hcount)).bind fun _ =>
    (Lacks.lift (Evaluation.layout_misses _)).bind fun _ => (Lacks.lift (Evaluation.layout_misses _)).bind fun _ =>
      (Lacks.present (by rintro v ⟨⟩)).bind fun _ => Lacks.bind (.update _) fun _ => resume_lacks _

theorem execute_lacks {o : Operation} (ho : ∀ v, .variable v ∈ o.reads → a.scalars.get? v.name = none → R v) :
    Lacks R (execute t a callers o) := by
  refine .read fun p => ?_
  have computes : ∀ {dst x}, a.computed? p.machine o = some (dst, x) →
      Lacks R (do resume (a.assign dst (← x) :: callers) : Stateful Processor Progress) := fun hx =>
    (Lacks.lift (Activation.computed?_misses ho hx)).bind fun _ => resume_lacks _
  cases o with
  | alloca dst ty count => exact allocate_lacks fun v hv => ho v (hv ▸ List.mem_cons_self)
  | load dst pointer =>
    exact (Lacks.lift (Activation.loaded_misses _ fun v hv => ho v (hv ▸ List.mem_cons_self))).bind fun _ =>
      resume_lacks _
  | store pointer value =>
    exact (Lacks.lift (Activation.word_misses fun v hv => ho v (hv ▸ List.mem_cons_self))).bind fun _ =>
      (Lacks.lift (Activation.value_misses fun v hv => ho v (hv ▸ List.mem_cons_of_mem _ List.mem_cons_self))).bind fun _ =>
        (Lacks.lift (Activation.byteCount_misses _)).bind fun _ =>
          (Machine.onMemory_lacks fun m => Memory.write_misses m _ _).zoom.bind fun _ => resume_lacks _
  | phi dst incoming => exact .raise (by rintro v ⟨⟩)
  | call dst target arguments => exact call_lacks ho
  | ret value =>
    refine (Lacks.lift ?_).bind fun _ => leave_lacks _
    cases value with
    | none => exact .answer _
    | some x => exact (Activation.value_misses fun v hv => ho v (hv ▸ List.mem_cons_self)).bind fun _ => .answer _
  | cast dst kind src => exact computes rfl
  | elementPtr dst base source indices inbounds => exact computes rfl
  | binary dst op lhs rhs => exact computes rfl
  | compare dst predicate lhs rhs => exact computes rfl
  | select dst condition onTrue onFalse => exact computes rfl
  | nop => exact resume_lacks _

end Processor

end RegionGuard

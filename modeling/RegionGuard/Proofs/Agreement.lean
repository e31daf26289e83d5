import RegionGuard.Proofs.Detours
import RegionGuard.Proofs.Vouching
set_option autoImplicit false

namespace RegionGuard

open Stateful

namespace Activation

/-- Two calls that know the same, but for temporaries from a number on. -/
structure Agrees (n : Nat) (a b : Activation) : Prop where
  arguments : a.arguments = b.arguments
  stackPointer : a.stackPointer = b.stackPointer
  receiver : a.receiver = b.receiver
  scalars : ∀ x : Variable, ¬ x.IsUpcoming n → a.scalars.get? x.name = b.scalars.get? x.name

variable {n : Nat} {a b : Activation} {M N : Machine} {v : Value} {o : Operation} {dst : Variable}

theorem values_congr {l : List Value} (h : ∀ v ∈ l, a.value M v = b.value N v) : a.values M l = b.values N l := by
  unfold values
  induction l with
  | nil => rfl
  | cons v rest ih =>
    rw [List.mapM_cons, List.mapM_cons, h v List.mem_cons_self, ih fun u hu => h u (List.mem_cons_of_mem _ hu)]

theorem computed?_congr (h : ∀ v ∈ o.reads, a.value M v = b.value N v) : a.computed? M o = b.computed? N o := by
  cases o with
  | cast dst kind src =>
    have hsrc := h src List.mem_cons_self
    simp only [Activation.computed?, hsrc]
  | elementPtr dst base source indices inbounds =>
    have hbase := h base List.mem_cons_self
    have hindices := values_congr fun v hv => h v (List.mem_cons_of_mem _ hv)
    simp only [Activation.computed?, Activation.word, hbase, hindices]
  | binary dst op lhs rhs =>
    have hlhs := h lhs List.mem_cons_self
    have hrhs := h rhs (List.mem_cons_of_mem _ List.mem_cons_self)
    simp only [Activation.computed?, hlhs, hrhs]
  | compare dst predicate lhs rhs =>
    have hlhs := h lhs List.mem_cons_self
    have hrhs := h rhs (List.mem_cons_of_mem _ List.mem_cons_self)
    simp only [Activation.computed?, hlhs, hrhs]
  | select dst condition onTrue onFalse =>
    have hcondition := h condition List.mem_cons_self
    have hbranches : ∀ z : Bool, a.value M (if z then onFalse else onTrue) =
        b.value N (if z then onFalse else onTrue) := by
      intro z
      cases z
      · exact h onTrue (List.mem_cons_of_mem _ List.mem_cons_self)
      · exact h onFalse (List.mem_cons_of_mem _ (List.mem_cons_of_mem _ List.mem_cons_self))
    simp only [Activation.computed?, hcondition, hbranches]
  | _ => rfl

namespace Agrees

theorem value (h : Agrees n a b) (image : M.image = N.image) (hv : v.Avoids n) :
    a.value M v = b.value N v := by
  unfold Activation.value
  rw [image, h.arguments]
  match v, hv with
  | .variable x, hv =>
    have hx : ¬ x.IsUpcoming n := hv x rfl
    simp only [h.scalars x hx]
  | .argument _, _ | .global _, _ | .function _, _ | .constant _, _ | .null, _ => rfl

theorem word (h : Agrees n a b) (image : M.image = N.image) (hv : v.Avoids n) : a.word M v = b.word N v := by
  unfold Activation.word
  rw [h.value image hv]

theorem values (h : Agrees n a b) (image : M.image = N.image) {l : List Value} (hl : ∀ v ∈ l, v.Avoids n) :
    a.values M l = b.values N l :=
  values_congr fun v hv => h.value image (hl v hv)

theorem returned (h : Agrees n a b) (image : M.image = N.image) {v : Option Value} (hv : ∀ u ∈ v, u.Avoids n) :
    a.returned M v = b.returned N v := by
  cases v with
  | none => rfl
  | some v =>
    unfold Activation.returned
    simp only [h.value image (hv v rfl)]

theorem computed? (h : Agrees n a b) (image : M.image = N.image) (ho : ∀ v ∈ o.reads, v.Avoids n) :
    a.computed? M o = b.computed? N o :=
  computed?_congr fun v hv => h.value image (ho v hv)

/-- The same new value of a variable keeps calls in agreement. -/
theorem assign (h : Agrees n a b) (dst : Variable) (c : Constant) : Agrees n (a.assign dst c) (b.assign dst c) where
  arguments := h.arguments
  stackPointer := h.stackPointer
  receiver := h.receiver
  scalars x hx := by
    change (a.scalars.insert dst.name c).get? x.name = (b.scalars.insert dst.name c).get? x.name
    rw [Table.get?_insert, Table.get?_insert, h.scalars x hx]

theorem assign_left (h : Agrees n a b) (hdst : dst.IsUpcoming n) (c : Constant) : Agrees n (a.assign dst c) b where
  arguments := h.arguments
  stackPointer := h.stackPointer
  receiver := h.receiver
  scalars x hx := by
    change (a.scalars.insert dst.name c).get? x.name = b.scalars.get? x.name
    rw [Table.get?_insert, if_neg, h.scalars x hx]
    intro hname
    obtain ⟨k, hk, hdst⟩ := hdst
    exact hx ⟨k, hk, hname.trans hdst⟩

theorem symm (h : Agrees n a b) : Agrees n b a where
  arguments := h.arguments.symm
  stackPointer := h.stackPointer.symm
  receiver := h.receiver.symm
  scalars x hx := (h.scalars x hx).symm

theorem assign_right (h : Agrees n a b) (hdst : dst.IsUpcoming n) (c : Constant) : Agrees n a (b.assign dst c) :=
  (h.symm.assign_left hdst c).symm

theorem foldl_assign (h : Agrees n a b) (values : List (Variable × Constant)) :
    Agrees n (values.foldl (fun a e => a.assign e.1 e.2) a) (values.foldl (fun a e => a.assign e.1 e.2) b) := by
  induction values generalizing a b with
  | nil => exact h
  | cons e rest ih => exact ih (h.assign e.1 e.2)

theorem follow (h : Agrees n a b) (image : M.image = N.image) {es : List Edge}
    (hes : ∀ e ∈ es, ∀ c ∈ e.condition, c.value.Avoids n) {k : Nat} (hk : a.follow M es = .ok k) :
    b.follow N es = .ok k := by
  induction es with
  | nil => cases hk
  | cons e rest ih =>
    unfold Activation.follow at hk ⊢
    cases hcondition : e.condition with
    | none =>
      rw [hcondition] at hk
      exact hk
    | some c =>
      rw [hcondition] at hk
      simp only at hk ⊢
      rw [← h.word image (hes e List.mem_cons_self c hcondition)]
      obtain ⟨w, hw, hk⟩ := bind_eq_ok.mp hk
      refine bind_eq_ok.mpr ⟨w, hw, ?_⟩
      split at hk
      · rename_i hsatisfied
        rw [if_pos hsatisfied]
        exact hk
      · rename_i hsatisfied
        rw [if_neg hsatisfied]
        exact ih (fun d hd => hes d (List.mem_cons_of_mem _ hd)) hk

end Agrees

theorem receive_eq (a : Activation) (dst : Option Variable) (result : Option Word) :
    a.receive dst result = dst.elim (.ok a) fun v =>
      (Evaluation.scalarBits v.ty).map fun bits => a.assign v (.make (result.getD 0) bits) := by
  cases dst with
  | none => rfl
  | some v =>
    unfold receive
    cases Evaluation.scalarBits v.ty <;> rfl

/-- An operation that computes from operands alone answers with the variable that takes the result. -/
theorem exists_computed? (M : Machine) (a : Activation) (ho : o.computes? = some dst) :
    ∃ x, a.computed? M o = some (dst, x) := by
  cases o with
  | cast | elementPtr | binary | compare | select =>
    cases ho
    exact ⟨_, rfl⟩
  | _ => cases ho

end Activation

namespace Processor

variable {t : Task} {s : Processor} {a : Activation} {callers : List Activation} {o : Operation} {dst : Variable}

/-- An operation that computes from operands alone changes its variable only. -/
theorem execute_computes (t : Task) (s : Processor) (a : Activation) (callers : List Activation)
    (ho : o.computes? = some dst) :
    ∃ x, a.computed? s.machine o = some (dst, x) ∧
      (execute t a callers o).runFrom s =
        match x with
        | .ok c => (.ok .running, { s with calls := a.assign dst c :: callers })
        | .error e => (.error e, s) := by
  have hrun : ∀ x : Outcome Constant, ((do resume (a.assign dst (← x) :: callers) : Stateful Processor Progress)).runFrom s =
      match x with
      | .ok c => (.ok .running, { s with calls := a.assign dst c :: callers })
      | .error e => (.error e, s) := by
    intro x
    cases x <;> rfl
  obtain ⟨x, hx⟩ := Activation.exists_computed? s.machine a ho
  refine ⟨x, hx, ?_⟩
  rw [← hrun x]
  unfold execute
  rw [runFrom_get_bind]
  cases o with
  | cast | elementPtr | binary | compare | select =>
    simp only [hx]
  | _ => cases ho

def called (m : Machine) (a : Activation) (target : CallTarget) (arguments : List Value) :
    Outcome (String × List Constant) := do
  let constants ← a.values m arguments
  let name ← callee m a target
  return (name, constants)

def dispatch (t : Task) (a : Activation) (callers : List Activation) (dst : Option Variable) (name : String)
    (constants : List Constant) : Stateful Processor Progress :=
  match Machine.builtin? t.configuration name (constants.map Constant.value) with
  | some x => do
    let result ← onMachine x
    deliver dst result (a :: callers)
  | none => do
    let f ← t.program.function name
    if f.isDeclaration then deliver dst none (a :: callers)
    else do
      let progress ← resume (a :: callers)
      enter f constants (.caller dst)
      return progress

theorem call_runFrom (t : Task) (s : Processor) (a : Activation) (callers : List Activation) (dst : Option Variable)
    (target : CallTarget) (arguments : List Value) :
    (call t a callers dst target arguments).runFrom s =
      match called s.machine a target arguments with
      | .ok (name, constants) => (dispatch t a callers dst name constants).runFrom s
      | .error e => (.error e, s) := by
  unfold call called
  rw [runFrom_get_bind, runFrom_bind, runFrom_lift]
  cases a.values s.machine arguments with
  | error e => rfl
  | ok constants =>
    simp only
    rw [runFrom_bind, runFrom_lift]
    cases callee s.machine a target with
    | error e => rfl
    | ok name => rfl

end Processor

namespace Activation

variable {n : Nat} {a b : Activation} {M N : Machine} {v : Value} {o : Operation} {dst : Variable}

def Settled (a : Activation) : Prop :=
  ∀ v, a.body.Computes a.block v →
    (∃ i ∈ a.remaining, i.operation.computes? = some v) ∨ (a.scalars.get? v.name).isSome

namespace Settled

variable {i : Instruction} {rest : List Instruction}

theorem withScalars (h : a.Settled) {scalars : Table String Constant}
    (grows : ∀ name, (a.scalars.get? name).isSome → (scalars.get? name).isSome) :
    (a.withScalars scalars).Settled := fun v hv => (h v hv).imp_right (grows v.name)

theorem assign (h : a.Settled) (dst : Variable) (c : Constant) : (a.assign dst c).Settled := by
  refine h.withScalars fun name hname => ?_
  rw [Table.get?_insert]
  split
  · rfl
  · exact hname

theorem pass (h : a.Settled) (hrem : a.remaining = i :: rest) (hi : i.operation.computes? = none) :
    ({ a with remaining := rest } : Activation).Settled := by
  intro v hv
  refine (h v hv).imp_left ?_
  rintro ⟨j, hj, hcomputes⟩
  rw [hrem] at hj
  rcases List.mem_cons.mp hj with rfl | hj
  · rw [hi] at hcomputes
    cases hcomputes
  · exact ⟨j, hj, hcomputes⟩

theorem compute (h : a.Settled) (hrem : a.remaining = i :: rest) (hi : i.operation.computes? = some dst)
    (c : Constant) : (({ a with remaining := rest } : Activation).assign dst c).Settled := by
  intro v hv
  change (∃ j ∈ rest, j.operation.computes? = some v) ∨ ((a.scalars.insert dst.name c).get? v.name).isSome
  rw [Table.get?_insert]
  by_cases hname : v.name = dst.name
  · rw [if_pos hname]
    exact .inr rfl
  · rw [if_neg hname]
    refine (h v hv).imp_left ?_
    rintro ⟨j, hj, hcomputes⟩
    rw [hrem] at hj
    rcases List.mem_cons.mp hj with rfl | hj
    · rw [hi] at hcomputes
      cases hcomputes
      exact absurd rfl hname
    · exact ⟨j, hj, hcomputes⟩

end Settled

end Activation

namespace Failure

def IsViolation (e : Failure) : Prop := ∃ address access, e = .error (.violation address access)

end Failure

def Outcome.Clear {α : Type} (x : Outcome α) : Prop := ∀ e, x = .error e → ¬ e.IsViolation

namespace Outcome.Clear

variable {α β : Type} {x : Outcome α}

theorem answer (y : α) : Clear (pure y : Outcome α) := by
  rintro e ⟨⟩

theorem raise {e : Error} (he : ∀ address access, e ≠ .violation address access) :
    Clear (Failure.raise e : Outcome α) := by
  rintro _ ⟨⟩ ⟨address, access, hviolation⟩
  cases hviolation
  exact he address access rfl

theorem bind {f : α → Outcome β} (hx : x.Clear) (hf : ∀ y, (f y).Clear) : Clear (x >>= f) := by
  cases x with
  | error e =>
    rintro _ ⟨⟩
    exact hx e rfl
  | ok y => exact hf y

theorem orRaise {y : Option α} {e : Error} (he : ∀ address access, e ≠ .violation address access) :
    Clear (Failure.orRaise y e : Outcome α) := by
  cases y with
  | none => exact raise he
  | some y => exact answer y

theorem orStop {y : Option α} {f : Fatal} : Clear (Failure.orStop y f : Outcome α) := by
  cases y with
  | none => rintro _ ⟨⟩ ⟨_, _, ⟨⟩⟩
  | some y => exact answer y

theorem mapM {f : α → Outcome β} {l : List α} (h : ∀ y, (f y).Clear) : Clear (l.mapM f) := by
  induction l with
  | nil => exact answer []
  | cons y rest ih =>
    rw [List.mapM_cons]
    exact (h y).bind fun _ => ih.bind fun _ => answer _

end Outcome.Clear

namespace Activation

open Outcome

variable (M : Machine) (a : Activation)

end Activation

namespace Processor

structure Beside (R : Machine → Machine → Prop) (s u : Processor) : Prop where
  machine : R s.machine u.machine
  stackPointer : s.stackPointer = u.stackPointer

structure Paired (R : Machine → Machine → Prop) (L : Activation → Activation → Prop) (s u : Processor) : Prop
    extends Beside R s u where
  calls : List.Forall₂ L s.calls u.calls

def Same (R : Machine → Machine → Prop) (L : Activation → Activation → Prop) (p p' : Progress) (s u : Processor) :
    Prop := p = p' ∧ Paired R L s u

section Lifting

variable {α β γ : Type} {Q : β → γ → Processor → Processor → Prop} {s u : Processor}

theorem matches_lift {o : Outcome α} {f : α → Stateful Processor β} {g : α → Stateful Processor γ}
    (h : ∀ x, o = .ok x → Matches Q ((f x).runFrom s) ((g x).runFrom u)) :
    Matches Q ((liftM o >>= f : Stateful Processor β).runFrom s) ((liftM o >>= g : Stateful Processor γ).runFrom u) := by
  rw [runFrom_bind, runFrom_bind, runFrom_lift, runFrom_lift]
  cases o with
  | error e => exact rfl
  | ok x => exact h x rfl

theorem matches_present {o : Option α} {e : Error} {f : α → Stateful Processor β} {g : α → Stateful Processor γ}
    (h : ∀ x, o = some x → Matches Q ((f x).runFrom s) ((g x).runFrom u)) :
    Matches Q ((Failure.orRaise o e >>= f : Stateful Processor β).runFrom s)
      ((Failure.orRaise o e >>= g : Stateful Processor γ).runFrom u) := by
  rw [runFrom_bind, runFrom_bind]
  cases o with
  | none => exact rfl
  | some x => exact h x rfl

theorem matches_onMachine {R : Machine → Machine → Prop} {x : Stateful Machine α} (hx : Respects R x)
    {f : α → Stateful Processor β} {g : α → Stateful Processor γ} (beside : Beside R s u)
    (h : ∀ y s' u', Beside R s' u' → Matches Q ((f y).runFrom s') ((g y).runFrom u')) :
    Matches Q ((onMachine x >>= f).runFrom s) ((onMachine x >>= g).runFrom u) := by
  rw [runFrom_bind, runFrom_bind, onMachine_runFrom, onMachine_runFrom]
  have hmachine := hx _ _ beside.machine
  match hs : x.runFrom s.machine, hu : x.runFrom u.machine with
  | (.ok y, m), (.ok y', n) =>
    rw [hs, hu] at hmachine
    obtain ⟨rfl, hrelated⟩ := hmachine
    exact h y _ _ ⟨hrelated, beside.stackPointer⟩
  | (.error e, m), (.error e', n) =>
    rw [hs, hu] at hmachine
    exact hmachine
  | (.ok y, m), (.error e', n) =>
    rw [hs, hu] at hmachine
    exact hmachine.elim
  | (.error e, m), (.ok y', n) =>
    rw [hs, hu] at hmachine
    exact hmachine.elim

end Lifting

theorem called_congr {m n : Machine} (image : m.image = n.image) {a b : Activation} {temps : Nat}
    (agrees : a.Agrees temps b) {dst : Option Variable} {target : CallTarget} {arguments : List Value}
    (ho : (Operation.call dst target arguments).Avoids temps) :
    called m a target arguments = called n b target arguments := by
  have harguments : ∀ v ∈ arguments, v.Avoids temps := by
    intro v hv
    apply ho.reads
    cases target with
    | direct name => exact hv
    | indirect address => exact List.mem_cons_of_mem _ hv
  have hcallee : callee m a target = callee n b target := by
    cases target with
    | direct name => rfl
    | indirect address =>
      have hword := agrees.word image (ho.reads address List.mem_cons_self)
      simp only [callee, Image.functionAt?, image, hword]
  unfold called
  rw [agrees.values image harguments, hcallee]

section Matching

variable {R : Machine → Machine → Prop} {L : Activation → Activation → Prop} {s u : Processor} {a b : Activation}
  {callers others : List Activation}

theorem matches_resume (beside : Beside R s u) {calls calls' : List Activation} (h : List.Forall₂ L calls calls') :
    Matches (Same R L) ((resume calls).runFrom s) ((resume calls').runFrom u) :=
  ⟨rfl, ⟨⟨beside.machine, beside.stackPointer⟩, h⟩⟩

theorem matches_deliver (hL : ∀ a b dst c, L a b → L (a.assign dst c) (b.assign dst c)) (beside : Beside R s u)
    (hab : L a b) (hcallers : List.Forall₂ L callers others) (dst : Option Variable) (result : Option Word) :
    Matches (Same R L) ((deliver dst result (a :: callers)).runFrom s) ((deliver dst result (b :: others)).runFrom u) := by
  unfold deliver
  simp only
  rw [Activation.receive_eq, Activation.receive_eq]
  cases dst with
  | none => exact matches_resume beside (.cons hab hcallers)
  | some v =>
    simp only [Option.elim]
    cases Evaluation.scalarBits v.ty with
    | error e => exact rfl
    | ok bits => exact matches_resume beside (.cons (hL a b v _ hab) hcallers)

theorem beside_withStackPointer (hR : Machine.Stores R) (beside : Beside R s u) (w : Word)
    (calls calls' : List Activation) :
    Beside R (withStackPointer w { s with calls := calls }) (withStackPointer w { u with calls := calls' }) where
  machine := hR.withStackPointer _ _ beside.machine w
  stackPointer := rfl

theorem matches_leave (hR : Machine.Stores R) (hL : ∀ a b dst c, L a b → L (a.assign dst c) (b.assign dst c))
    (beside : Beside R s u) {n : Nat} (agrees : a.Agrees n b) (hcallers : List.Forall₂ L callers others)
    (result : Option Constant) :
    Matches (Same R L) ((leave a callers result).runFrom s) ((leave b others result).runFrom u) := by
  unfold leave
  rw [runFrom_modify_bind, runFrom_modify_bind, agrees.receiver, agrees.stackPointer]
  have hbeside := beside_withStackPointer hR beside b.stackPointer callers others
  cases b.receiver with
  | runner => exact ⟨rfl, hbeside, hcallers⟩
  | caller dst =>
    cases hcallers with
    | nil => exact ⟨rfl, hbeside, .nil⟩
    | cons hab hcallers => exact matches_deliver hL hbeside hab hcallers dst _

theorem matches_allocate (hR : Machine.Stores R) (hL : ∀ a b dst c, L a b → L (a.assign dst c) (b.assign dst c))
    (beside : Beside R s u) (hab : L a b) (hcallers : List.Forall₂ L callers others) {n : Nat} (agrees : a.Agrees n b)
    (dst : Variable) (ty : Ty) {count : Value} (hcount : count.Avoids n) :
    Matches (Same R L) ((allocate a callers dst ty count).runFrom s) ((allocate b others dst ty count).runFrom u) := by
  unfold allocate
  rw [runFrom_get_bind, runFrom_get_bind]
  simp only [agrees.word (hR.image _ _ beside.machine) hcount, beside.stackPointer]
  refine matches_lift fun count _ => matches_lift fun size _ => matches_lift fun alignment _ =>
    matches_present fun place _ => ?_
  rw [runFrom_modify_bind, runFrom_modify_bind]
  exact matches_resume (beside_withStackPointer hR beside place _ _) (.cons (hL a b dst _ hab) hcallers)

theorem execute_matches (hR : Machine.Stores R) (hL : ∀ a b dst c, L a b → L (a.assign dst c) (b.assign dst c))
    (beside : Beside R s u) (hcallers : List.Forall₂ L callers others) {n : Nat} (agrees : a.Agrees n b)
    (t₀ t₁ : Task) {o : Operation} (ho : o.Avoids n) (notCall : ∀ dst target arguments, o ≠ .call dst target arguments)
    (settled : o.computes? = none → L a b)
    (computed : ∀ dst c, o.computes? = some dst → L (a.assign dst c) (b.assign dst c)) :
    Matches (Same R L) ((execute t₀ a callers o).runFrom s) ((execute t₁ b others o).runFrom u) := by
  have image := hR.image _ _ beside.machine
  cases hcomputes : o.computes? with
  | some dst =>
    obtain ⟨x, hx, hrun⟩ := execute_computes t₀ s a callers hcomputes
    obtain ⟨x', hx', hrun'⟩ := execute_computes t₁ u b others hcomputes
    rw [agrees.computed? image ho.reads, hx'] at hx
    cases hx
    rw [hrun, hrun']
    cases x with
    | error e => exact rfl
    | ok c =>
      exact ⟨rfl, ⟨⟨beside.machine, beside.stackPointer⟩, .cons (computed dst c hcomputes) hcallers⟩⟩
  | none =>
    have hab := settled hcomputes
    unfold execute
    rw [runFrom_get_bind, runFrom_get_bind]
    cases o with
    | cast | elementPtr | binary | compare | select => cases hcomputes
    | alloca dst ty count =>
      exact matches_allocate hR hL beside hab hcallers agrees dst ty (ho.reads count List.mem_cons_self)
    | load dst pointer =>
      have hloaded : a.loaded s.machine dst.ty pointer = b.loaded u.machine dst.ty pointer := by
        have hword := agrees.word image (ho.reads pointer List.mem_cons_self)
        simp only [Activation.loaded, hword, hR.memory _ _ beside.machine]
      simp only [hloaded]
      exact matches_lift fun c _ => matches_resume beside (.cons (hL a b dst c hab) hcallers)
    | store pointer value =>
      simp only [agrees.word image (ho.reads pointer List.mem_cons_self),
        agrees.value image (ho.reads value (List.mem_cons_of_mem _ List.mem_cons_self))]
      refine matches_lift fun place _ => matches_lift fun c _ => matches_lift fun bytes _ => ?_
      refine matches_onMachine (hR.onMemory_respects _) beside fun _ s' u' hbeside => ?_
      exact matches_resume hbeside (.cons hab hcallers)
    | phi dst incoming => exact rfl
    | call dst target arguments => exact absurd rfl (notCall dst target arguments)
    | ret value =>
      have hvalue : ∀ v ∈ value, v.Avoids n := fun v hv => ho.reads v (Option.mem_toList.mpr hv)
      simp only [agrees.returned image hvalue]
      exact matches_lift fun result _ => matches_leave hR hL beside agrees hcallers result
    | nop => exact matches_resume beside (.cons hab hcallers)

end Matching

end Processor

end RegionGuard

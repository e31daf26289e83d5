import RegionGuard.Proofs.Approaches
import RegionGuard.Proofs.GroundedPasses
import RegionGuard.Proofs.Leads
import RegionGuard.Proofs.OverlaidRuns
import RegionGuard.Proofs.Reallocations
set_option autoImplicit false

namespace RegionGuard

open Stateful

namespace Monitor

def RecordsWithin (S : Set Word) (m : Monitor) : Prop := ∀ cell ∈ m.ledger.escapes.keys, cell ∈ S

variable {S S' : Set Word} {m : Monitor}

theorem RecordsWithin.mono (h : m.RecordsWithin S) (hS : S ⊆ S') : m.RecordsWithin S' := fun cell hcell => hS (h cell hcell)

theorem onSpace_records {α : Type} (x : Stateful AddressSpace α) : Maintains (RecordsWithin S) (onSpace x) := fun _ hm => hm

theorem count_records (f : Counters → Counters) : Maintains (RecordsWithin S) (count f) := .update fun _ hm => hm

theorem track_records (start size : Word) (origin : Origin) : Maintains (RecordsWithin S) (track start size origin) := by
  unfold track
  exact .branch (fun _ => .answer _) fun _ => (onSpace_records _).bind fun _ => .update fun _ hm => hm

theorem untrack_records (start : Word) : Maintains (RecordsWithin S) (untrack start) := by
  refine .inspect fun m hm => ?_
  split
  · exact .answer _
  · rename_i a ledger hledger
    obtain ⟨b, -, hsame⟩ := Option.bind_eq_some_iff.mp hledger
    cases hsame
    refine .bind (.update fun _ _ cell hcell => ?_) fun _ => (onSpace_records _).bind fun _ => .answer _
    have hcell : cell ∈ (m.ledger.escapes.filter fun cell _ => !a.contains cell).keys := hcell
    rw [Table.keys_filter] at hcell
    exact hm cell (List.mem_of_mem_filter hcell)

theorem notifyMalloc_records (start size : Word) : Maintains (RecordsWithin S) (notifyMalloc start size) :=
  (count_records _).bind fun _ => track_records _ _ _

theorem notifyEscape_records {cell : Word} (hcell : cell ∈ S) : Maintains (RecordsWithin S) (notifyEscape cell) := by
  refine (count_records _).bind fun _ => .update fun m hm other hother => ?_
  rcases KeySet.mem_keys_add.mp hother with rfl | hother
  · exact hcell
  · exact hm other hother

theorem guardCalleeStack_records (frameSize : Word) : Maintains (RecordsWithin S) (guardCalleeStack frameSize) := by
  refine (count_records _).bind fun _ => .inspect fun m _ => (Maintains.present _ _).bind fun stack => ?_
  exact .branch (fun _ => onSpace_records _) fun _ => .bind (.update fun _ hm => hm) fun _ => .raise _

end Monitor

namespace Machine

open Monitor

variable {S : Set Word} {m m' : Machine} {function : String} {arguments : List Word}

theorem entryPoint_records {h : Hooks} {e : Stateful Monitor Unit}
    (he : (function, e) ∈ entryPoints h (argument function arguments))
    (hS : function = h.notifyEscape → ∀ cell, arguments[0]? = some cell → cell ∈ S) : Maintains (RecordsWithin S) e := by
  have arg : ∀ index, Maintains (RecordsWithin S) (argument function arguments index : Stateful Monitor Word) :=
    fun _ => .present _ _
  simp only [entryPoints, List.mem_cons, List.not_mem_nil, or_false, Prod.mk.injEq] at he
  rcases he with ⟨-, rfl⟩ | ⟨-, rfl⟩ | ⟨-, rfl⟩ | ⟨-, rfl⟩ | ⟨-, rfl⟩ | ⟨hname, rfl⟩ | ⟨-, rfl⟩ | ⟨-, rfl⟩ | ⟨-, rfl⟩
  · exact (arg 0).bind fun _ => (arg 1).bind fun _ => notifyMalloc_records _ _
  · exact (arg 0).bind fun _ => (arg 1).bind fun _ => (arg 2).bind fun _ =>
      (Maintains.present _ _).bind fun _ => notifyMalloc_records _ _
  · refine (arg 0).bind fun _ => (arg 1).bind fun _ => (arg 2).bind fun old => ?_
    exact .branch (fun _ => (untrack_records _).bind fun _ => notifyMalloc_records _ _) fun _ => notifyMalloc_records _ _
  · refine (arg 0).bind fun _ => ?_
    exact .branch (fun _ => .answer _) fun _ => (count_records _).bind fun _ => untrack_records _
  · exact (arg 0).bind fun _ => (arg 1).bind fun _ => (arg 2).bind fun _ =>
      (count_records _).bind fun _ => track_records _ _ _
  · unfold argument
    cases hcell : arguments[0]? with
    | none => exact .raise _
    | some cell => exact notifyEscape_records (hS hname cell hcell)
  · exact (arg 0).bind fun _ => (arg 1).bind fun _ => (count_records _).bind fun _ =>
      (onSpace_records _).onError fun _ hm => hm
  · exact (arg 0).bind fun _ => guardCalleeStack_records _
  · exact (arg 0).bind fun _ => (onSpace_records _).bind fun _ => .answer _

theorem stores_records (S : Set Word) : Stores fun m n => m = n ∧ m.monitor.RecordsWithin S where
  image _ _ h := h.1 ▸ rfl
  heap _ _ h := h.1 ▸ rfl
  memory _ _ h := h.1 ▸ rfl
  withHeap _ _ h _ := ⟨h.1 ▸ rfl, h.2⟩
  withMemory _ _ h _ := ⟨h.1 ▸ rfl, h.2⟩
  withStackPointer _ _ h _ := ⟨h.1 ▸ rfl, h.2⟩

theorem records_of_respects {α : Type} {x : Stateful Machine α} {a : α}
    (hx : Respects (fun m n => m = n ∧ m.monitor.RecordsWithin S) x) (hm : m.monitor.RecordsWithin S)
    (hrun : x.runFrom m = (.ok a, m')) : m'.monitor.RecordsWithin S := by
  have hr := hx m m ⟨rfl, hm⟩
  rw [hrun] at hr
  exact hr.2.2

theorem builtin?_records {c : Configuration} {x : Stateful Machine (Option Word)} {result : Option Word}
    (hx : builtin? c function arguments = some x)
    (hS : function = c.hooks.notifyEscape → ∀ cell, arguments[0]? = some cell → cell ∈ S)
    (hm : m.monitor.RecordsWithin S) (hrun : x.runFrom m = (.ok result, m')) : m'.monitor.RecordsWithin S := by
  rcases (stores_records S).builtin?_respects hx with hrespects | ⟨e, he, rfl⟩
  · exact records_of_respects hrespects hm hrun
  · obtain ⟨_, m₁, he', hanswer⟩ := runFrom_bind_ok.mp hrun
    cases hanswer
    obtain ⟨n, hn, rfl⟩ := onMonitor_ok he'
    have hkept := entryPoint_records he hS m.monitor hm
    rw [hn] at hkept
    exact hkept

end Machine

namespace Processor

variable {S : Set Word} {t : Task} {s s' : Processor} {a : Activation} {callers : List Activation} {progress : Progress}

theorem resume_records {calls : List Activation} (hs : s.machine.monitor.RecordsWithin S)
    (hrun : (resume calls).runFrom s = (.ok progress, s')) : s'.machine.monitor.RecordsWithin S := by
  cases hrun
  exact hs

theorem deliver_records {dst : Option Variable} {result : Option Word} {calls : List Activation}
    (hs : s.machine.monitor.RecordsWithin S) (hrun : (deliver dst result calls).runFrom s = (.ok progress, s')) :
    s'.machine.monitor.RecordsWithin S := by
  cases calls with
  | nil =>
    cases hrun
    exact hs
  | cons a callers =>
    obtain ⟨b, -, hrun⟩ := lift_bind_ok.mp hrun
    exact resume_records hs hrun

theorem call_records {dst : Option Variable} {target : CallTarget} {arguments : List Value}
    (hS : ∀ constants, called s.machine a target arguments = .ok (t.configuration.hooks.notifyEscape, constants) →
      ∀ cell, (constants.map Constant.value)[0]? = some cell → cell ∈ S)
    (hs : s.machine.monitor.RecordsWithin S)
    (hrun : (call t a callers dst target arguments).runFrom s = (.ok progress, s')) :
    s'.machine.monitor.RecordsWithin S := by
  rw [call_runFrom] at hrun
  cases hcalled : called s.machine a target arguments with
  | error e =>
    rw [hcalled] at hrun
    cases hrun
  | ok what =>
    obtain ⟨name, constants⟩ := what
    rw [hcalled] at hrun
    unfold dispatch at hrun
    cases hbuiltin : Machine.builtin? t.configuration name (constants.map Constant.value) with
    | some x =>
      simp only [hbuiltin] at hrun
      obtain ⟨result, s₁, hx, hrun⟩ := runFrom_bind_ok.mp hrun
      obtain ⟨m, hm, rfl⟩ := onMachine_ok hx
      refine deliver_records (s := { s with machine := m }) ?_ hrun
      refine Machine.builtin?_records hbuiltin (fun hname => ?_) hs hm
      subst hname
      exact hS constants hcalled
    | none =>
      simp only [hbuiltin] at hrun
      obtain ⟨f, -, hrun⟩ := lift_bind_ok.mp hrun
      split at hrun
      · exact deliver_records hs hrun
      · obtain ⟨going, s₁, hresume, hrun⟩ := runFrom_bind_ok.mp hrun
        obtain ⟨_, s₂, henter, hrun⟩ := runFrom_bind_ok.mp hrun
        cases hrun
        obtain ⟨-, -, -, -, -, -, rfl⟩ := enter_ok henter
        have hs₁ : s₁.machine.monitor.RecordsWithin S := resume_records hs hresume
        exact hs₁

theorem execute_records {o : Operation}
    (hS : ∀ dst target arguments constants, o = .call dst target arguments →
      called s.machine a target arguments = .ok (t.configuration.hooks.notifyEscape, constants) →
        ∀ cell, (constants.map Constant.value)[0]? = some cell → cell ∈ S)
    (hs : s.machine.monitor.RecordsWithin S) (hrun : (execute t a callers o).runFrom s = (.ok progress, s')) :
    s'.machine.monitor.RecordsWithin S := by
  unfold execute at hrun
  rw [runFrom_get_bind] at hrun
  cases o with
  | alloca dst ty count =>
    unfold allocate at hrun
    rw [runFrom_get_bind] at hrun
    obtain ⟨count, -, hrun⟩ := lift_bind_ok.mp hrun
    obtain ⟨size, -, hrun⟩ := lift_bind_ok.mp hrun
    obtain ⟨alignment, -, hrun⟩ := lift_bind_ok.mp hrun
    obtain ⟨place, -, hrun⟩ := present_bind_ok.mp hrun
    rw [runFrom_modify_bind] at hrun
    exact resume_records (s := withStackPointer place s) hs hrun
  | store pointer value =>
    obtain ⟨place, -, hrun⟩ := lift_bind_ok.mp hrun
    obtain ⟨c, -, hrun⟩ := lift_bind_ok.mp hrun
    obtain ⟨bytes, -, hrun⟩ := lift_bind_ok.mp hrun
    obtain ⟨_, s₁, hs₁, hrun⟩ := runFrom_bind_ok.mp hrun
    obtain ⟨m, hm, rfl⟩ := onMachine_ok hs₁
    refine resume_records (s := { s with machine := m }) ?_ hrun
    exact Machine.records_of_respects ((Machine.stores_records S).onMemory_respects _) hs hm
  | phi dst incoming => cases hrun
  | call dst target arguments => exact call_records (fun constants => hS dst target arguments constants rfl) hs hrun
  | ret value =>
    obtain ⟨result, -, hrun⟩ := lift_bind_ok.mp hrun
    unfold leave at hrun
    rw [runFrom_modify_bind] at hrun
    split at hrun
    · cases hrun
      exact hs
    · exact deliver_records (s := withStackPointer a.stackPointer { s with calls := callers }) hs hrun
  | load | cast | elementPtr | binary | compare | select =>
    obtain ⟨c, -, hrun⟩ := lift_bind_ok.mp hrun
    exact resume_records hs hrun
  | nop => exact resume_records hs hrun

end Processor

namespace Activation

/-- The code in front of a call is grounded, and the cells that it begins to report are in a set. -/
def Backed (h : Hooks) (S : Set Word) (m : Machine) (a : Activation) : Prop :=
  ∃ n, a.body.Grounded h n ∧ Grounded h n a.remaining ∧
    ∀ cell, Announces h a.remaining cell → cell.Avoids n ∧ ∃ w ∈ S, a.word m cell = .ok w

variable {h : Hooks} {S S' : Set Word} {m m' : Machine} {a b : Activation} {i : Instruction} {rest : List Instruction}

theorem Backed.of_silent {n : Nat} (hbody : a.body.Grounded h n) (hcode : Grounded h n a.remaining)
    (silent : ∀ cell, ¬ Announces h a.remaining cell) : a.Backed h S m :=
  ⟨n, hbody, hcode, fun cell hcell => absurd hcell (silent cell)⟩

theorem Backed.mono (ha : a.Backed h S m) (hS : S ⊆ S') : a.Backed h S' m := by
  obtain ⟨n, hbody, hcode, hcells⟩ := ha
  refine ⟨n, hbody, hcode, fun cell hcell => ?_⟩
  obtain ⟨havoids, w, hw, hword⟩ := hcells cell hcell
  exact ⟨havoids, w, hS hw, hword⟩

/-- A call that waits has nothing to report, whatever it receives. -/
theorem Backed.resumed (ha : a.Backed h ∅ m) (scalars : Table String Constant) : (a.withScalars scalars).Backed h S m' := by
  obtain ⟨n, hbody, hcode, hcells⟩ := ha
  refine .of_silent hbody hcode fun cell hcell => ?_
  obtain ⟨-, w, hw, -⟩ := hcells cell hcell
  exact hw

theorem backed_of_enterBlock {n : Nat} (hbody : a.body.Grounded h n) {previous : Option Nat} {block : Nat}
    (hb : a.enterBlock m previous block = .ok b) : b.Backed h S m' := by
  obtain ⟨x, scalars, hx, rfl⟩ := enterBlock_ok hb
  obtain ⟨hcode, hstarts⟩ := hbody.blocks block x hx
  obtain ⟨hbehind, hsilent⟩ := hcode.behind hstarts
  exact .of_silent hbody hbehind hsilent

end Activation

namespace Processor

def ownNext? (s : Processor) : Option (Activation × Operation) := do
  let a ← s.calls.head?
  let i ← a.remaining.head?
  if i.isInjected then none else return (a, i.operation)

def StoresPointer (s : Processor) (cell : Word) : Prop :=
  ∃ a o pointer, s.ownNext? = some (a, o) ∧ o.StoresPointer pointer ∧ a.word s.machine pointer = .ok cell

def TellsEscape (h : Hooks) (s : Processor) (cell : Word) : Prop :=
  ∃ a dst target arguments constants, s.ownNext? = some (a, .call dst target arguments) ∧
    called s.machine a target arguments = .ok (h.notifyEscape, constants) ∧
    (constants.map Constant.value)[0]? = some cell

def escaping (h : Hooks) (s : Processor) : Set Word := { cell | s.StoresPointer cell ∨ s.TellsEscape h cell }

structure Backed (h : Hooks) (x : Image) (S : Set Word) (s : Processor) : Prop where
  sound : s.machine.IsSound x
  records : s.machine.monitor.RecordsWithin S
  calls : ∀ a callers, s.calls = a :: callers → a.Backed h S s.machine ∧ ∀ c ∈ callers, c.Backed h ∅ s.machine

variable {h : Hooks} {x : Image} {S S' : Set Word} {t : Task} {s s' : Processor} {a : Activation} {callers : List Activation}
  {i : Instruction} {rest : List Instruction}

theorem ownNext?_eq_some (hcalls : s.calls = a :: callers) (hnext : a.remaining = i :: rest) (own : i.isInjected = false) :
    s.ownNext? = some (a, i.operation) := by
  unfold ownNext?
  rw [hcalls]
  simp [hnext, own]

theorem Backed.mono (hs : s.Backed h x S) (hS : S ⊆ S') : s.Backed h x S' :=
  ⟨hs.sound, hs.records.mono hS, fun a callers hcalls => (hs.calls a callers hcalls).imp_left (·.mono hS)⟩

theorem stores_of_execute {o : Operation} {pointer : Value} (next : s.ownNext? = some (a, o)) (hstores : o.StoresPointer pointer)
    (hrun : (execute t { a with remaining := rest } callers o).runFrom s.countOne = (.ok .running, s')) :
    ∃ w, s.StoresPointer w ∧ a.word s.machine pointer = .ok w ∧ s'.calls = { a with remaining := rest } :: callers := by
  have hstores' := hstores
  obtain ⟨value, rfl, -⟩ := hstores
  unfold execute at hrun
  rw [runFrom_get_bind] at hrun
  obtain ⟨place, hplace, hrun⟩ := lift_bind_ok.mp hrun
  obtain ⟨c, -, hrun⟩ := lift_bind_ok.mp hrun
  obtain ⟨bytes, -, hrun⟩ := lift_bind_ok.mp hrun
  obtain ⟨_, s₁, hs₁, hrun⟩ := runFrom_bind_ok.mp hrun
  obtain ⟨m, -, rfl⟩ := onMachine_ok hs₁
  rw [resume_running hrun]
  exact ⟨place, ⟨a, _, pointer, next, hstores', hplace⟩, hplace, rfl⟩

theorem announces_of_called {n : Nat} (hcode : Grounded h n (i :: rest)) (injected : i.isInjected = true)
    {dst : Option Variable} {target : CallTarget} {arguments : List Value} (ho : i.operation = .call dst target arguments)
    {m : Machine} {constants : List Constant} (hcalled : called m a target arguments = .ok (h.notifyEscape, constants))
    {w : Word} (hw : (constants.map Constant.value)[0]? = some w) :
    ∃ cell, Announces h (i :: rest) cell ∧ a.word m cell = .ok w := by
  obtain ⟨values, hvalues, hcalled⟩ := bind_eq_ok.mp hcalled
  obtain ⟨name, hname, hcalled⟩ := bind_eq_ok.mp hcalled
  cases hcalled
  cases hcode with
  | quiet _ quiet _ =>
    rw [ho] at quiet
    rcases quiet with ⟨dst', hdst', -⟩ | ⟨name, -, hne, arguments', hcall⟩
    · cases hdst'
    · cases hcall
      cases hname
      exact absurd rfl hne
  | @report _ _ cell _ reports _ =>
    refine ⟨cell, (announces_injected injected).mpr (.inl reports), ?_⟩
    cases ho.symm.trans reports
    obtain ⟨c, hc, hvalues⟩ := bind_eq_ok.mp hvalues
    cases hvalues
    cases hw
    exact Activation.word_eq_ok.mpr ⟨c, hc, rfl⟩
  | own own _ _ =>
    rw [injected] at own
    cases own

theorem backed_of_injected (hooks : t.configuration.hooks = h) (hs : s.Backed h x S) (hcalls : s.calls = a :: callers)
    (hnext : a.remaining = i :: rest) (injected : i.isInjected = true)
    (hrun : (execute t { a with remaining := rest } callers i.operation).runFrom s.countOne = (.ok .running, s')) :
    s'.Backed h x S := by
  obtain ⟨⟨n, hbody, hcode, hcells⟩, hwaiting⟩ := hs.calls a callers hcalls
  rw [hnext] at hcode hcells
  have hbehind : Grounded h n rest := by
    cases hcode with
    | quiet _ _ behind => exact behind
    | report _ _ behind => exact behind
    | own _ _ behind => exact behind
  have extra : i.operation.IsExtra h n := by
    cases hcode with
    | quiet _ quiet _ => exact quiet.isExtra
    | report _ reports _ => exact .inr ⟨h.notifyEscape, by simp [Hooks.names], _, reports⟩
    | own own _ _ =>
      rw [injected] at own
      cases own
  obtain ⟨-, hsame, -, scalars, hcalls', hscalars⟩ := execute_extra hooks extra hrun
  refine ⟨(execute_shape hrun).2 x hs.sound, execute_records (s := s.countOne) ?_ hs.records hrun, fun b others hb => ?_⟩
  · intro dst target arguments constants ho hcalled w hw
    rw [hooks] at hcalled
    obtain ⟨cell, hannounces, hword⟩ := announces_of_called hcode injected ho hcalled hw
    obtain ⟨-, w', hw', hword'⟩ := hcells cell hannounces
    cases hword.symm.trans hword'
    exact hw'
  · cases hcalls'.symm.trans hb
    refine ⟨⟨n, hbody, hbehind, fun cell hcell => ?_⟩, fun c hc => (hwaiting c hc).resumed c.scalars⟩
    obtain ⟨havoids, w, hw, hword⟩ := hcells cell ((announces_injected injected).mpr (.inr hcell))
    have agrees : a.Agrees n (({ a with remaining := rest } : Activation).withScalars scalars) :=
      Activation.Agrees.withExtra ⟨rfl, rfl, rfl, fun _ _ => rfl⟩ extra hscalars
    exact ⟨havoids, w, hw, (agrees.word hsame.image havoids).symm.trans hword⟩

theorem backed_of_own (hooks : t.configuration.hooks = h) (hp : t.program.Grounded h) (hs : s.Backed h x S)
    (hcalls : s.calls = a :: callers) (hnext : a.remaining = i :: rest) (own : i.isInjected = false)
    (hrun : (execute t { a with remaining := rest } callers i.operation).runFrom s.countOne = (.ok .running, s')) :
    s'.Backed h x (S ∪ s.escaping h) := by
  obtain ⟨⟨n, hbody, hcode, -⟩, hwaiting⟩ := hs.calls a callers hcalls
  rw [hnext] at hcode
  have hown : (∀ cell, Announces h rest cell → i.operation.StoresPointer cell ∧ cell.Avoids n) ∧ Grounded h n rest := by
    cases hcode with
    | own _ stores behind => exact ⟨stores, behind⟩
    | quiet injected _ _ | report injected _ _ =>
      rw [injected] at own
      cases own
  obtain ⟨stores, behind⟩ := hown
  have next : s.ownNext? = some (a, i.operation) := ownNext?_eq_some hcalls hnext own
  have waiting : ∀ m, ∀ c ∈ callers, c.Backed h ∅ m := fun m c hc => (hwaiting c hc).resumed c.scalars
  obtain ⟨shape, hsound⟩ := execute_shape hrun
  have sound : s'.machine.IsSound x := hsound x hs.sound
  have hrecords : s'.machine.monitor.RecordsWithin (S ∪ s.escaping h) := by
    refine execute_records (s := s.countOne) (fun dst target arguments constants ho hcalled w hw => ?_)
      (hs.records.mono Set.subset_union_left) hrun
    rw [hooks] at hcalled
    exact .inr (.inr ⟨a, dst, target, arguments, constants, ho ▸ next, hcalled, hw⟩)
  refine ⟨sound, hrecords, fun b others hb => ?_⟩
  generalize hcalls' : s'.calls = calls' at shape
  cases shape with
  | stays scalars _ =>
    cases hcalls'.symm.trans hb
    refine ⟨⟨n, hbody, behind, fun cell hcell => ?_⟩, waiting _⟩
    obtain ⟨hstores, havoids⟩ := stores cell hcell
    obtain ⟨w, hstored, hw, hkept⟩ := stores_of_execute next hstores hrun
    refine ⟨havoids, w, .inr (.inl hstored), ?_⟩
    rw [(List.cons.inj (hcalls'.symm.trans hkept)).1]
    have himage : s'.machine.image = s.machine.image :=
      (Machine.isSound_iff.mp sound).1.trans (Machine.isSound_iff.mp hs.sound).1.symm
    exact (Activation.word_image himage _ cell).trans hw
  | enters isCall _ _ _ function defined _ entered =>
    cases hcalls'.symm.trans hb
    obtain ⟨n', hbody'⟩ := hp _ _ (orRaise_eq_ok.mp function) _ defined
    refine ⟨Activation.backed_of_enterBlock hbody' entered, List.forall_mem_cons.mpr ⟨?_, waiting _⟩⟩
    refine .of_silent hbody behind fun cell hcell => ?_
    obtain ⟨⟨value, ho, -⟩, -⟩ := stores cell hcell
    rw [isCall] at ho
    cases ho
  | @leaves c others scalars _ suspended =>
    subst suspended
    cases hcalls'.symm.trans hb
    exact ⟨(waiting s.machine c List.mem_cons_self).resumed scalars, fun d hd => waiting _ d (List.mem_cons_of_mem c hd)⟩
  | ends _ _ => cases hcalls'.symm.trans hb

theorem step_backed (hooks : t.configuration.hooks = h) (hp : t.program.Grounded h) (hs : s.Backed h x S)
    (hstep : (step t).runFrom s = (.ok .running, s')) : s'.Backed h x (S ∪ s.escaping h) := by
  obtain ⟨a, callers, hcalls, hmove⟩ := step_running hstep
  rcases hmove with ⟨-, b, hb, rfl⟩ | ⟨i, rest, hnext, hrun⟩
  · obtain ⟨⟨n, hbody, -, -⟩, hwaiting⟩ := hs.calls a callers hcalls
    rw [Activation.nextBlock_eq] at hb
    obtain ⟨target, -, hb⟩ := bind_eq_ok.mp hb
    refine ⟨hs.sound, hs.records.mono Set.subset_union_left, ?_⟩
    rintro _ _ ⟨⟩
    exact ⟨Activation.backed_of_enterBlock hbody hb, hwaiting⟩
  · cases hi : i.isInjected with
    | true => exact (backed_of_injected hooks hs hcalls hnext hi hrun).mono Set.subset_union_left
    | false => exact backed_of_own hooks hp hs hcalls hnext hi hrun

theorem after_backed (hooks : t.configuration.hooks = h) (hp : t.program.Grounded h) (hs : s.Backed h x S) {steps : Nat}
    (hafter : after t steps s = some s') :
    s'.Backed h x (S ∪ { cell | ∃ k < steps, ∃ u, after t k s = some u ∧ cell ∈ u.escaping h }) := by
  induction steps generalizing s S with
  | zero =>
    cases hafter
    exact hs.mono Set.subset_union_left
  | succ steps ih =>
    obtain ⟨s₁, hstep, hafter⟩ := after_succ hafter
    refine (ih (step_backed hooks hp hs hstep) hafter).mono ?_
    rintro cell ((hcell | hcell) | ⟨k, hk, u, hu, hcell⟩)
    · exact .inl hcell
    · exact .inr ⟨0, Nat.succ_pos steps, s, rfl, hcell⟩
    · refine .inr ⟨k + 1, Nat.succ_lt_succ hk, u, ?_, hcell⟩
      unfold after
      rw [hstep]
      exact hu

/-- In the steps of a run so far the program has stored a pointer to a cell, or told of an escape to it. -/
def Escaped (t : Task) (function : String) (arguments : List Word) (s₀ : Processor) (steps : Nat) (cell : Word) : Prop :=
  ∃ k < steps, ∃ u, Comes t function arguments s₀ k u ∧
    (u.StoresPointer cell ∨ u.TellsEscape t.configuration.hooks cell)

def StoresInto (s : Processor) (cell : Word) : Prop :=
  ∃ a pointer value place c bytes, s.ownNext? = some (a, .store pointer value) ∧ a.word s.machine pointer = .ok place ∧
    a.value s.machine value = .ok c ∧ Activation.byteCount c.bits = .ok bytes ∧
    place.toNat < cell.toNat + 8 ∧ cell.toNat < place.toNat + bytes

/-- In the steps of a run so far the program stored a pointer to a cell, and nothing into the cell since. -/
def KeepsPointer (t : Task) (function : String) (arguments : List Word) (s₀ : Processor) (steps : Nat) (cell : Word) :
    Prop :=
  ∃ k < steps, (∃ u, Comes t function arguments s₀ k u ∧ u.StoresPointer cell) ∧
    ∀ j u, k < j → j < steps → Comes t function arguments s₀ j u → ¬ u.StoresInto cell

end Processor

namespace Program

open Processor

variable {p q : Program} {c : Configuration} {report : InstrumentationReport} {limit : Word} {function : String}
  {arguments : List Word} {s₀ s : Processor} {steps : Nat}

/-- Every recorded cell is one that the program has stored a pointer to, or told of itself. So beside the bytes that a region
brings along, a move changes only bytes of such cells, whatever they hold by then. -/
theorem recorded_cells_were_stored (distinct : c.hooks.names.Nodup) (pristine : p.AllBodies FlowGraph.Pristine)
    (hq : p.Instruments c report q) (hs : Comes ⟨q, c, limit⟩ function arguments s₀ steps s) :
    (∀ cell ∈ s.machine.monitor.ledger.escapes.keys, Escaped ⟨q, c, limit⟩ function arguments s₀ steps cell) ∧
    ∀ (old new : Region) (address : Nat),
      ((Monitor.onTracker (Tracker.moveRegion old new)).runFrom s.machine.monitor).2.memory.byte address ≠
        s.machine.memory.byte address →
      ∃ r, s.machine.monitor.space.findRegion old ⟨true, false, true, false⟩ = .ok r ∧
        (¬ Memory.Outside address new.start r.length.toNat ∨
          ∃ cell, Escaped ⟨q, c, limit⟩ function arguments s₀ steps cell ∧
            ¬ Memory.Outside address (Ledger.moved r.start new.start r.length cell) 8) := by
  obtain ⟨⟨kind, m, hm, hstart⟩, hafter⟩ := hs
  have grounded : q.Grounded c.hooks := grounded_of_instruments distinct pristine hq
  have hfirst : s₀.Backed c.hooks m.image ∅ := by
    obtain ⟨f, hf, henter⟩ := lift_bind_ok.mp hstart
    obtain ⟨body, entry, b, hbody, -, hb, rfl⟩ := enter_ok henter
    refine ⟨Machine.isSound_of_ofProgram hm, ?_, ?_⟩
    · obtain ⟨image, -, hm⟩ := bind_eq_ok.mp hm
      obtain ⟨space, -, hm⟩ := bind_eq_ok.mp hm
      cases hm
      exact fun cell hcell => absurd hcell List.not_mem_nil
    · rintro _ _ ⟨⟩
      obtain ⟨n, hgrounded⟩ := grounded _ f (orRaise_eq_ok.mp hf) body hbody
      exact ⟨Activation.backed_of_enterBlock hgrounded hb, fun c hc => absurd hc List.not_mem_nil⟩
  have hrecorded : ∀ cell ∈ s.machine.monitor.ledger.escapes.keys,
      Escaped ⟨q, c, limit⟩ function arguments s₀ steps cell := by
    intro cell hcell
    have hbacked := after_backed (t := ⟨q, c, limit⟩) rfl grounded hfirst hafter
    rcases hbacked.records cell hcell with hnone | ⟨k, hk, u, hu, hcell⟩
    · exact hnone.elim
    · exact ⟨k, hk, u, ⟨⟨kind, m, hm, hstart⟩, hu⟩, hcell⟩
  refine ⟨hrecorded, fun old new address hchanged => ?_⟩
  by_contra hnone
  refine hchanged (Monitor.moveRegion_spares fun r hr => ⟨?_, fun cell hcell => ?_⟩)
  · by_contra hinside
    exact hnone ⟨r, hr, .inl hinside⟩
  · by_contra hinside
    exact hnone ⟨r, hr, .inr ⟨cell, hrecorded cell hcell, hinside⟩⟩

theorem pristine_of_instrumentable (fit : ∀ f ∈ p.functions.values, ∀ body ∈ f.body, body.Instrumentable)
    (untouched : p.functions.values.all fun f => f.body.all fun body => decide body.Untouched) :
    p.AllBodies FlowGraph.Pristine := by
  intro name f hf body hbody
  have hfit := fit f (Table.mem_values_of_get? hf) body hbody
  exact ⟨hfit.made.numbered, hfit.tidy, allBodies_iff_all.mpr untouched name f hf body hbody⟩

end Program

/-- A program tells of an escape to one cell. In another one it stores a pointer to a block, and then an integer that looks
like one. -/
def overwriting : Program :=
  let block : Variable := ⟨"block", .pointer⟩
  let cell : Value := .variable ⟨"cell", .pointer⟩
  .ofFunctions [
    .ofCode "main" []
      [[.notify Hooks.default.notifyEscape [.ofWord 0x70000010 64],
        .call (some block) (.direct "malloc") [.ofWord 0x10 64],
        .cast ⟨"cell", .pointer⟩ .intToPtr (.ofWord 0x70000000 64),
        .store cell (.variable block),
        .store cell (.ofWord 0x40000008 64),
        .ret none]] [],
    .declaration Hooks.default.notifyEscape [⟨0, "cell", .integer 64⟩] .void,
    .declaration "malloc" [⟨0, "size", .integer 64⟩] .pointer]

namespace Processor

theorem not_keepsPointer_of_storesInto {t : Task} {function : String} {arguments : List Word} {s₀ u : Processor} {k : Nat}
    {cell : Word} (hu : Comes t function arguments s₀ k u) (hinto : u.StoresInto cell) (hnot : ¬ u.StoresPointer cell) :
    ¬ KeepsPointer t function arguments s₀ (k + 1) cell := by
  rintro ⟨j, hj, ⟨u', hu', hstores⟩, hkeeps⟩
  rcases Nat.lt_succ_iff_lt_or_eq.mp hj with hlt | rfl
  · exact hkeeps k u hlt (Nat.lt_succ_self k) hu hinto
  · cases hu.after.symm.trans hu'.after
    exact hnot hstores

theorem not_storesPointer_of_ownNext? {s : Processor} {a : Activation} {o : Operation} (next : s.ownNext? = some (a, o))
    (ho : ∀ pointer, ¬ o.StoresPointer pointer) (cell : Word) : ¬ s.StoresPointer cell := by
  rintro ⟨a', o', pointer, next', hstores, -⟩
  cases next.symm.trans next'
  exact ho pointer hstores

/-- Neither do the steps of a run so far store to a cell, nor do they call. -/
def leavesCell (t : Task) (s₀ : Processor) (steps : Nat) (cell : Word) : Bool :=
  (List.range steps).all fun k => (after t k s₀).all fun u => u.ownNext?.all fun e =>
    match e.2 with
    | .store pointer _ => e.1.word u.machine pointer ≠ .ok cell
    | .call .. => false
    | _ => true

theorem not_escaped_of_leavesCell {t : Task} {function : String} {arguments : List Word} {s₀ : Processor} {steps : Nat}
    {cell : Word} (h : leavesCell t s₀ steps cell) : ¬ Escaped t function arguments s₀ steps cell := by
  rintro ⟨k, hk, u, hu, hescapes⟩
  have hleaves := (Option.all_eq_true ..).mp (List.all_eq_true.mp h k (List.mem_range.mpr hk)) u hu.after
  rcases hescapes with ⟨a, o, pointer, next, ⟨value, rfl, -⟩, hword⟩ | ⟨a, dst, target, operands, constants, next, -⟩
  · exact of_decide_eq_true ((Option.all_eq_true ..).mp hleaves _ next) hword
  · cases (Option.all_eq_true ..).mp hleaves _ next

end Processor

open Processor

/-- After its first step a run has told of one cell, and stored nothing. After the ninth the other cell holds an integer, which
a move of the block redirects. -/
def redirectsInteger (t : Task) : Bool :=
  let cell : Value := .variable ⟨"cell", .pointer⟩
  (t.comes? [] 9).any fun (s₀, s, _) =>
    let moved := (Monitor.onTracker (Tracker.moveRegion (.make 0x40000000 0x10 .readWrite)
      (.make 0x60000000 0x10 .readWrite))).runFrom s.machine.monitor
    s₀.ownNext?.any (fun e => e.2 = .notify Hooks.default.notifyEscape [.ofWord 0x70000010 64]) ∧
    ((after t 1 s₀).any fun s₁ => s₁.ownNext?.isSome ∧ s₁.machine.monitor.ledger.escapes.keys = [0x70000010]) ∧
    ((after t 8 s₀).any fun u => u.ownNext?.any fun e =>
      e.2 = .store cell (.ofWord 0x40000008 64) ∧ e.1.word u.machine cell = .ok 0x70000000) ∧
    s.ownNext?.isSome ∧ s.machine.monitor.ledger.escapes.keys = [0x70000000, 0x70000010] ∧
    s.machine.memory.readWord 0x70000000 8 = .ok 0x40000008 ∧
    moved.1 = .ok (.make 0x60000000 0x10 .readWrite) ∧ moved.2.memory.readWord 0x70000000 8 = .ok 0x60000008 ∧
    moved.2.memory.byte 0x70000003 ≠ s.machine.memory.byte 0x70000003

theorem overwriting_runs : overwriting.isInstrumentable ∧
    (overwriting.functions.values.all fun f => f.body.all fun body => decide body.Untouched) ∧
    (Trial.mk overwriting .default "main" []).instrumented?.any fun x =>
      redirectsInteger ⟨x.2, .default, defaultStepLimit⟩ := by
  decide +kernel

theorem overwriting_pristine : overwriting.AllBodies FlowGraph.Pristine := by
  have made : overwriting.Made := by
    refine Program.made_of_ofFunctions fun f hf => ?_
    rcases List.mem_cons.mp hf with rfl | hf
    · exact Function.made_of_ofCode
    · rcases List.mem_cons.mp hf with rfl | hf
      · rintro _ ⟨⟩
      · cases List.mem_singleton.mp hf
        rintro _ ⟨⟩
  obtain ⟨instrumentable, untouched, -⟩ := overwriting_runs
  exact Program.pristine_of_instrumentable (Program.instrumentable_of_isInstrumentable made instrumentable) untouched

theorem exists_redirectsInteger : ∃ report q, overwriting.Instruments .default report q ∧
    redirectsInteger ⟨q, .default, defaultStepLimit⟩ := by
  obtain ⟨-, -, hall⟩ := overwriting_runs
  obtain ⟨⟨report, q⟩, hq, hall⟩ := (Option.any_eq_true ..).mp hall
  have hinstruments := Trial.instruments_of_instrumented? hq
  exact ⟨report, q, hinstruments, hall⟩

/-- The run has recorded both cells after nine steps, and a move changes a byte in one of them. -/
theorem recorded_cells_were_stored_overwriting :
    Hooks.default.names.Nodup ∧ overwriting.AllBodies FlowGraph.Pristine ∧
      ∃ report q s₀ s, overwriting.Instruments .default report q ∧
        Comes ⟨q, .default, defaultStepLimit⟩ "main" [] s₀ 9 s ∧
        s.machine.monitor.ledger.escapes.keys = [0x70000000, 0x70000010] ∧
        Escaped ⟨q, .default, defaultStepLimit⟩ "main" [] s₀ 9 0x70000000 ∧
        Escaped ⟨q, .default, defaultStepLimit⟩ "main" [] s₀ 9 0x70000010 ∧
        ∃ r, s.machine.monitor.space.findRegion (.make 0x40000000 0x10 .readWrite) ⟨true, false, true, false⟩ = .ok r ∧
          (¬ Memory.Outside 0x70000003 0x60000000 r.length.toNat ∨
            ∃ cell, Escaped ⟨q, .default, defaultStepLimit⟩ "main" [] s₀ 9 cell ∧
              ¬ Memory.Outside 0x70000003 (Ledger.moved r.start 0x60000000 r.length cell) 8) := by
  have distinct : Hooks.default.names.Nodup := by decide
  obtain ⟨report, q, hq, hall⟩ := exists_redirectsInteger
  obtain ⟨⟨s₀, s, a⟩, hcomes, hall⟩ := (Option.any_eq_true ..).mp hall
  obtain ⟨-, -, -, -, hkeys, -, -, -, hchanged⟩ := of_decide_eq_true hall
  obtain ⟨hcomes, -⟩ := Task.comes_of_comes? hcomes
  obtain ⟨hescaped, hmoves⟩ := Program.recorded_cells_were_stored distinct overwriting_pristine hq hcomes
  rw [hkeys] at hescaped
  exact ⟨distinct, overwriting_pristine, report, q, s₀, s, hq, hcomes, hkeys, hescaped _ List.mem_cons_self,
    hescaped _ (List.mem_cons_of_mem _ List.mem_cons_self), hmoves _ (.make 0x60000000 0x10 .readWrite) _ hchanged⟩

/-- After its fifth step a run has told of a cell that it stores to next. -/
def tellsAhead (t : Task) : Bool :=
  (t.comes? [0x70000000, 0x70000010] 5).any fun (s₀, s, _) => s.ownNext?.isSome ∧
    0x70000010 ∈ s.machine.monitor.ledger.escapes.keys ∧ leavesCell t s₀ 5 0x70000010

theorem exists_tellsAhead : ∃ report q, (storesUnder [0, 0, 1]).Instruments .default report q ∧
    tellsAhead ⟨q, .default, defaultStepLimit⟩ := by
  have hall : (Trial.mk (storesUnder [0, 0, 1]) .default "main" []).instrumented?.any fun x =>
      tellsAhead ⟨x.2, .default, defaultStepLimit⟩ := by
    decide +kernel
  obtain ⟨⟨report, q⟩, hq, hall⟩ := (Option.any_eq_true ..).mp hall
  have hinstruments := Trial.instruments_of_instrumented? hq
  exact ⟨report, q, hinstruments, hall⟩

/-- A cell stays recorded when an integer is stored over the pointer in it, and a move redirects the integer. A cell that the
program tells of itself is recorded without any store. And where two stores share a number, a cell is recorded before
anything is stored to it. -/
theorem overwritten_cell_redirected :
    (overwriting.AllBodies FlowGraph.Pristine ∧
      ∃ report q s₀ s₁ s, overwriting.Instruments .default report q ∧
        Comes ⟨q, .default, defaultStepLimit⟩ "main" [] s₀ 1 s₁ ∧ s₁.ownNext?.isSome ∧
        0x70000010 ∈ s₁.machine.monitor.ledger.escapes.keys ∧
        ¬ KeepsPointer ⟨q, .default, defaultStepLimit⟩ "main" [] s₀ 1 0x70000010 ∧
        Comes ⟨q, .default, defaultStepLimit⟩ "main" [] s₀ 9 s ∧ s.ownNext?.isSome ∧
        0x70000000 ∈ s.machine.monitor.ledger.escapes.keys ∧
        ¬ KeepsPointer ⟨q, .default, defaultStepLimit⟩ "main" [] s₀ 9 0x70000000 ∧
        s.machine.memory.readWord 0x70000000 8 = .ok 0x40000008 ∧
        ∃ m, (Monitor.onTracker (Tracker.moveRegion (.make 0x40000000 0x10 .readWrite)
            (.make 0x60000000 0x10 .readWrite))).runFrom s.machine.monitor = (.ok (.make 0x60000000 0x10 .readWrite), m) ∧
          m.memory.readWord 0x70000000 8 = .ok 0x60000008) ∧
    ((storesUnder [0, 0, 1]).Built ∧
      ∃ report q s₀ steps s, (storesUnder [0, 0, 1]).Instruments .default report q ∧
        Comes ⟨q, .default, defaultStepLimit⟩ "main" [0x70000000, 0x70000010] s₀ steps s ∧ s.ownNext?.isSome ∧
        0x70000010 ∈ s.machine.monitor.ledger.escapes.keys ∧
        ¬ Escaped ⟨q, .default, defaultStepLimit⟩ "main" [0x70000000, 0x70000010] s₀ steps 0x70000010) := by
  refine ⟨?_, built_storesUnder _, ?_⟩
  rotate_left
  · obtain ⟨report, q, hq, hall⟩ := exists_tellsAhead
    obtain ⟨⟨s₀, s, a⟩, hcomes, hall⟩ := (Option.any_eq_true ..).mp hall
    obtain ⟨hnext, hkeys, hleaves⟩ := of_decide_eq_true hall
    exact ⟨report, q, s₀, 5, s, hq, (Task.comes_of_comes? hcomes).1, hnext, hkeys, not_escaped_of_leavesCell hleaves⟩
  obtain ⟨report, q, hq, hall⟩ := exists_redirectsInteger
  obtain ⟨⟨s₀, s, a⟩, hcomes, hall⟩ := (Option.any_eq_true ..).mp hall
  obtain ⟨hfirst, hone, height, hnext, hkeys, hread, hmoves, hmoved, -⟩ := of_decide_eq_true hall
  obtain ⟨hcomes, -⟩ := Task.comes_of_comes? hcomes
  obtain ⟨⟨a₀, o₀⟩, hnext₀, ho₀⟩ := (Option.any_eq_true ..).mp hfirst
  obtain ⟨s₁, hs₁, hone⟩ := (Option.any_eq_true ..).mp hone
  obtain ⟨hnext₁, hkeys₁⟩ := of_decide_eq_true hone
  obtain ⟨u, hu, height⟩ := (Option.any_eq_true ..).mp height
  obtain ⟨⟨b, o⟩, hnextᵤ, hstores⟩ := (Option.any_eq_true ..).mp height
  obtain ⟨ho, hword⟩ := of_decide_eq_true hstores
  have ho₀ : o₀ = .notify Hooks.default.notifyEscape [.ofWord 0x70000010 64] := of_decide_eq_true ho₀
  subst ho₀
  have ho : o = .store (.variable ⟨"cell", .pointer⟩) (.ofWord 0x40000008 64) := ho
  subst ho
  have htold : 0x70000010 ∈ s₁.machine.monitor.ledger.escapes.keys := by
    rw [hkeys₁]
    exact List.mem_cons_self
  have hrecorded : 0x70000000 ∈ s.machine.monitor.ledger.escapes.keys := by
    rw [hkeys]
    exact List.mem_cons_self
  refine ⟨overwriting_pristine, report, q, s₀, s₁, s, hq, ⟨hcomes.started, hs₁⟩, hnext₁, htold, ?_, hcomes, hnext, hrecorded,
    ?_, hread, _, Prod.ext hmoves rfl, hmoved⟩
  · rintro ⟨k, hk, ⟨v, hv, hstored⟩, -⟩
    obtain rfl : k = 0 := Nat.lt_one_iff.mp hk
    cases hv.after
    refine not_storesPointer_of_ownNext? hnext₀ ?_ _ hstored
    rintro pointer ⟨value, heq, -⟩
    cases heq
  · refine not_keepsPointer_of_storesInto ⟨hcomes.started, hu⟩ ?_ (not_storesPointer_of_ownNext? hnextᵤ ?_ _)
    · exact ⟨b, _, _, 0x70000000, _, 8, hnextᵤ, hword, rfl, rfl, by decide, by decide⟩
    · rintro pointer ⟨value, heq, hpointer⟩
      cases heq
      cases hpointer

end RegionGuard

import RegionGuard.Proofs.Numbering
import RegionGuard.Proofs.Related
set_option autoImplicit false

namespace RegionGuard

variable {R S : Fatal → Prop}

/-- A result or a failure, which is no stop but one of certain kinds. -/
def Outcome.Stops {α : Type} (R : Fatal → Prop) (x : Outcome α) : Prop := ∀ e, x = .error (.fatal e) → R e

namespace Outcome.Stops

variable {α β : Type} {x : Outcome α}

theorem answer (a : α) : Stops R (pure a : Outcome α) := by
  rintro e ⟨⟩

theorem of_ok {a : α} (h : x = .ok a) : Stops R x := h ▸ answer a

theorem raise (e : Error) : Stops R (Failure.raise e : Outcome α) := by
  rintro e ⟨⟩

theorem stop {e : Fatal} (h : R e) : Stops R (Failure.stop e : Outcome α) := by
  rintro e ⟨⟩
  exact h

theorem mono (h : Stops R x) (hRS : ∀ e, R e → S e) : Stops S x := fun e he => hRS e (h e he)

theorem proceed {f : α → Outcome β} (hx : Stops R x) (hf : ∀ a, x = .ok a → Stops R (f a)) : Stops R (x >>= f) := by
  cases x with
  | error e =>
    intro e' h
    exact hx e' (congrArg Except.error (Except.error.inj h))
  | ok a => exact hf a rfl

theorem bind {f : α → Outcome β} (hx : Stops R x) (hf : ∀ a, Stops R (f a)) : Stops R (x >>= f) :=
  hx.proceed fun a _ => hf a

theorem raised (e : Error) (f : α → Outcome β) : Stops R ((Failure.raise e : Outcome α) >>= f) := by
  rintro e ⟨⟩

theorem orRaise {a? : Option α} {e : Error} : Stops R (Failure.orRaise a? e : Outcome α) := by
  cases a? with
  | none => exact raise e
  | some a => exact answer a

theorem orStop {a? : Option α} {e : Fatal} (h : R e) : Stops R (Failure.orStop a? e : Outcome α) := by
  cases a? with
  | none => exact stop h
  | some a => exact answer a

theorem branch {c : Prop} [Decidable c] {y : Outcome α} (hyes : c → Stops R x) (hno : ¬ c → Stops R y) :
    Stops R (if c then x else y) := by
  split
  · exact hyes ‹_›
  · exact hno ‹_›

theorem require {c : Prop} [Decidable c] {y : Outcome PUnit} {f : PUnit → Outcome α} (hy : Stops R y)
    (h : Stops R (f ⟨⟩)) : Stops R (if c then f ⟨⟩ else y >>= f) :=
  branch (fun _ => h) fun _ => hy.bind fun _ => h

theorem refuse {c : Prop} [Decidable c] {y : Outcome PUnit} {f : PUnit → Outcome α} (hy : Stops R y)
    (h : Stops R (f ⟨⟩)) : Stops R (if c then y >>= f else f ⟨⟩) :=
  branch (fun _ => hy.bind fun _ => h) fun _ => h

section Loops

variable {l : List α}

theorem mapM {f : α → Outcome β} (h : ∀ a ∈ l, Stops R (f a)) : Stops R (l.mapM f) := by
  induction l with
  | nil => exact answer []
  | cons a rest ih =>
    rw [List.mapM_cons]
    exact (h a List.mem_cons_self).bind fun _ =>
      (ih fun b hb => h b (List.mem_cons_of_mem a hb)).bind fun _ => answer _

theorem foldlM {I : β → Prop} {f : β → α → Outcome β} {b : β} (hb : I b)
    (h : ∀ b, I b → ∀ a ∈ l, Stops R (f b a) ∧ ∀ b', f b a = .ok b' → I b') : Stops R (l.foldlM f b) := by
  induction l generalizing b with
  | nil => exact answer b
  | cons a rest ih =>
    rw [List.foldlM_cons]
    obtain ⟨hstops, hkeeps⟩ := h b hb a List.mem_cons_self
    exact hstops.proceed fun b' hb' => ih (hkeeps b' hb') fun c hc a' ha' => h c hc a' (List.mem_cons_of_mem a ha')

theorem fold {f : β → α → Outcome β} {b : β} (h : ∀ b, ∀ a ∈ l, Stops R (f b a)) : Stops R (l.foldlM f b) :=
  foldlM (I := fun _ => True) trivial fun b _ a ha => ⟨h b a ha, fun _ _ => trivial⟩

theorem forM {f : α → Outcome PUnit} (h : ∀ a ∈ l, Stops R (f a)) : Stops R (l.forM f) := by
  induction l with
  | nil => exact answer _
  | cons a rest ih =>
    change Stops R (f a >>= fun _ => rest.forM f)
    exact (h a List.mem_cons_self).bind fun _ => ih fun b hb => h b (List.mem_cons_of_mem a hb)

theorem each {f : α → PUnit → Outcome (ForInStep PUnit)} (h : ∀ a ∈ l, Stops R (f a ⟨⟩)) : Stops R (forIn l ⟨⟩ f) := by
  induction l with
  | nil => exact answer _
  | cons a rest ih =>
    rw [List.forIn_cons]
    refine (h a List.mem_cons_self).bind fun r => ?_
    cases r with
    | done u => exact answer u
    | yield u => exact ih fun b hb => h b (List.mem_cons_of_mem a hb)

theorem allM {f : α → Outcome Bool} (h : ∀ a ∈ l, Stops R (f a)) : Stops R (l.allM f) := by
  induction l with
  | nil => exact answer true
  | cons a rest ih =>
    refine (h a List.mem_cons_self).bind fun b => ?_
    cases b with
    | true => exact ih fun c hc => h c (List.mem_cons_of_mem a hc)
    | false => exact answer false

end Loops

theorem successor {n : Nat} (h : R .overflow) : Stops R (Failure.successor n : Outcome Nat) := by
  unfold Failure.successor
  exact branch (fun _ => answer _) fun _ => stop h

end Outcome.Stops

namespace Edit

variable {α β : Type} {P : FlowGraph → Prop}

theorem stops_bind {x : Edit α} {f : α → Edit β} {c : FlowGraph} (hx : Outcome.Stops R (x.run c))
    (hf : ∀ a c', x.run c = .ok (a, c') → Outcome.Stops R ((f a).run c')) : Outcome.Stops R ((x >>= f).run c) := by
  rw [StateT.run_bind]
  exact hx.proceed fun r hr => hf r.1 r.2 hr

theorem stops_lift {o : Outcome α} (h : Outcome.Stops R o) (c : FlowGraph) : Outcome.Stops R ((liftM o : Edit α).run c) := by
  rw [lift_run]
  intro e he
  cases o with
  | error e' => exact h e (congrArg Except.error (Except.error.inj he))
  | ok a => cases he

theorem stops_ask_bind {x : FlowGraph → Outcome α} {f : α → Edit β} {c : FlowGraph} (hx : Outcome.Stops R (x c))
    (hf : ∀ a, x c = .ok a → Outcome.Stops R ((f a).run c)) : Outcome.Stops R ((ask x >>= f).run c) :=
  stops_bind (stops_lift hx c) fun a c' h => by
    obtain ⟨ha, rfl⟩ := ask_ok.mp h
    exact hf a ha

/-- An edit that keeps a property of graphs, and where the property holds stops in certain ways only. -/
structure Stays (P : FlowGraph → Prop) (R : Fatal → Prop) (e : Edit α) : Prop where
  stops : ∀ c, P c → Outcome.Stops R (e.run c)
  keeps : Keeps P e

namespace Stays

theorem proceed {x : Edit α} {f : α → Edit β} (hx : Stays P R x)
    (hf : ∀ c a c', P c → x.run c = .ok (a, c') → Stays P R (f a)) : Stays P R (x >>= f) where
  stops c hc := stops_bind (hx.stops c hc) fun a c' h => (hf c a c' hc h).stops c' (hx.keeps c a c' hc h)
  keeps c b c' hc h := by
    obtain ⟨a, c₁, h₁, h₂⟩ := bind_ok.mp h
    exact (hf c a c₁ hc h₁).keeps c₁ b c' (hx.keeps c a c₁ hc h₁) h₂

theorem bind {x : Edit α} {f : α → Edit β} (hx : Stays P R x) (hf : ∀ a, Stays P R (f a)) : Stays P R (x >>= f) :=
  hx.proceed fun _ a _ _ _ => hf a

theorem answer (a : α) : Stays P R (pure a : Edit α) := ⟨fun _ _ => .answer _, Keeps.answer a⟩

theorem raise (e : Error) : Stays P R (Failure.raise e : Edit α) := ⟨fun _ _ => .raise e, Keeps.fail _⟩

theorem step {f : FlowGraph → Outcome FlowGraph} (hstops : ∀ c, P c → Outcome.Stops R (f c))
    (hkeeps : ∀ c c', P c → f c = .ok c' → P c') : Stays P R (step f) where
  stops c hc := by
    change Outcome.Stops R (((liftM (f c) : Edit FlowGraph) >>= set).run c)
    exact stops_bind (stops_lift (hstops c hc) c) fun _ _ _ => .answer _
  keeps := Keeps.step hkeeps

theorem eval {f : FlowGraph → Outcome (α × FlowGraph)} (hstops : ∀ c, P c → Outcome.Stops R (f c))
    (hkeeps : ∀ c a c', P c → f c = .ok (a, c') → P c') : Stays P R (eval f) where
  stops c hc := by
    change Outcome.Stops R (((liftM (f c) : Edit (α × FlowGraph)) >>= fun d => set d.2 >>= fun _ => pure d.1).run c)
    exact stops_bind (stops_lift (hstops c hc) c) fun _ _ _ => .answer _
  keeps := Keeps.eval hkeeps

theorem ask {f : FlowGraph → Outcome α} (h : ∀ c, P c → Outcome.Stops R (f c)) : Stays P R (ask f) where
  stops c hc := stops_lift (h c hc) c
  keeps := Keeps.ask f

theorem branch {p : Prop} [Decidable p] {x y : Edit α} (hyes : Stays P R x) (hno : Stays P R y) :
    Stays P R (if p then x else y) := by
  split
  · exact hyes
  · exact hno

theorem forM {l : List α} {e : α → Edit PUnit} (h : ∀ a ∈ l, Stays P R (e a)) : Stays P R (l.forM e) := by
  induction l with
  | nil => exact answer _
  | cons a rest ih =>
    change Stays P R (e a >>= fun _ => rest.forM e)
    exact (h a List.mem_cons_self).bind fun _ => ih fun b hb => h b (List.mem_cons_of_mem a hb)

theorem forIn {l : List α} {e : α → Edit PUnit} (h : ∀ a ∈ l, Stays P R (e a)) :
    Stays P R (ForIn.forIn l PUnit.unit fun a _ => do
      e a
      pure (ForInStep.yield PUnit.unit)) := by
  rw [forIn_eq_forM]
  exact forM h

end Stays

end Edit

namespace Drafting

variable {α β : Type} {P : FlowGraph → Prop}

/-- Putting operations together keeps a property of the graph that temporaries are taken from. -/
def Stays (P : FlowGraph → Prop) (R : Fatal → Prop) (x : Drafting α) : Prop :=
  ∀ before, Edit.Stays P R (x.run before)

namespace Stays

theorem bind {x : Drafting α} {f : α → Drafting β} (hx : Stays P R x) (hf : ∀ a, Stays P R (f a)) :
    Stays P R (x >>= f) := by
  intro before
  rw [StateT.run_bind]
  exact (hx before).bind fun r => hf r.1 r.2

theorem answer (a : α) : Stays P R (pure a : Drafting α) := fun _ => .answer _

theorem orRaise {a? : Option α} {e : Error} : Stays P R (Failure.orRaise a? e : Drafting α) := by
  cases a? with
  | none => exact fun _ => .raise e
  | some a => exact answer a

theorem perform (o : Operation) : Stays P R (perform o) := fun _ => .answer _

theorem compute {ty : Ty} (htemp : Edit.Stays P R (Edit.eval (·.temp ty))) (operation : Variable → Operation) :
    Stays P R (compute ty operation) := by
  have hlift : Stays P R (StateT.lift (Edit.eval (·.temp ty)) : Drafting Variable) := fun before => by
    rw [StateT.run_lift]
    exact htemp.bind fun _ => .answer _
  exact hlift.bind fun dst => (perform _).bind fun _ => answer _

theorem collect {x : Drafting α} (hx : Stays P R x) : Edit.Stays P R x.collect := hx []

end Stays

end Drafting

namespace Stateful

variable {σ α β : Type} {Q : α → Prop} {Q' : β → Prop}

/-- A computation that stops in certain ways only, and whose results have a property. -/
def Ends (R : Fatal → Prop) (Q : α → Prop) (x : Stateful σ α) : Prop :=
  ∀ s, Outcome.Stops R (x.runFrom s).1 ∧ ∀ a s', x.runFrom s = (.ok a, s') → Q a

namespace Ends

theorem bind {x : Stateful σ α} {f : α → Stateful σ β} (hx : Ends R Q x) (hf : ∀ a, Q a → Ends R Q' (f a)) :
    Ends R Q' (x >>= f) := by
  intro s
  obtain ⟨hstops, hgives⟩ := hx s
  rw [runFrom_bind]
  split
  · rename_i a s' hrun
    exact hf a (hgives a s' hrun) s'
  · rename_i e s' hrun
    rw [hrun] at hstops
    exact ⟨fun e' he => hstops e' (congrArg Except.error (Except.error.inj he)), fun a s'' h => by cases h⟩

theorem answer {a : α} (h : Q a) : Ends R Q (pure a : Stateful σ α) := fun _ =>
  ⟨.answer a, fun b s' hb => by
    cases hb
    exact h⟩

theorem raise (e : Error) : Ends R Q (Failure.raise e : Stateful σ α) := fun _ => ⟨.raise e, fun _ _ hb => by cases hb⟩

theorem lift {o : Outcome α} (hstops : Outcome.Stops R o) (h : ∀ a, o = .ok a → Q a) :
    Ends R Q (liftM o : Stateful σ α) := fun _ => ⟨hstops, fun b _ hb => h b (congrArg Prod.fst hb)⟩

theorem present {a? : Option α} {e : Error} (h : ∀ a ∈ a?, Q a) :
    Ends R Q (Failure.orRaise a? e : Stateful σ α) := by
  cases a? with
  | none => exact raise e
  | some a => exact answer (h a rfl)

theorem update (f : σ → σ) : Ends R (fun _ => True) (modify f : Stateful σ PUnit) := fun _ =>
  ⟨.answer _, fun _ _ _ => trivial⟩

theorem branch {c : Prop} [Decidable c] {x y : Stateful σ α} (hyes : c → Ends R Q x) (hno : ¬ c → Ends R Q y) :
    Ends R Q (if c then x else y) := by
  split
  · exact hyes ‹_›
  · exact hno ‹_›

end Ends

end Stateful

variable {E : Prop}

/-- A computation that comes to a result with a property. A counter may overflow instead, if a condition holds. -/
def Outcome.Delivers {α : Type} (E : Prop) (Q : α → Prop) (x : Outcome α) : Prop :=
  (∃ a, x = .ok a ∧ Q a) ∨ x = .error (.fatal .overflow) ∧ E

namespace Outcome.Delivers

variable {α β : Type} {P Q : α → Prop} {Q' : β → Prop} {x : Outcome α}

theorem of_ok {a : α} (h : x = .ok a) (ha : Q a) : Delivers E Q x := .inl ⟨a, h, ha⟩

theorem answer {a : α} (ha : Q a) : Delivers E Q (pure a : Outcome α) := of_ok rfl ha

theorem proceed {f : α → Outcome β} (hx : Delivers E Q x) (hf : ∀ a, x = .ok a → Q a → Delivers E Q' (f a)) :
    Delivers E Q' (x >>= f) := by
  rcases hx with ⟨a, rfl, ha⟩ | ⟨rfl, hE⟩
  · exact hf a rfl ha
  · exact .inr ⟨rfl, hE⟩

theorem mono (hx : Delivers E P x) (h : ∀ a, x = .ok a → P a → Q a) : Delivers E Q x := by
  rcases hx with ⟨a, hx, ha⟩ | hE
  · exact of_ok hx (h a hx ha)
  · exact .inr hE

theorem successor {n : Nat} (h : Word.modulus ≤ n + 1 → E) :
    Delivers E (· = n + 1) (Failure.successor n : Outcome Nat) := by
  unfold Failure.successor
  split
  · exact answer rfl
  · rename_i hlt
    exact .inr ⟨rfl, h (Nat.le_of_not_lt hlt)⟩

end Outcome.Delivers

namespace Edit

variable {α β : Type} {c : FlowGraph} {Q : α × FlowGraph → Prop} {Q' : β × FlowGraph → Prop}

theorem delivers_bind {x : Edit α} {f : α → Edit β} (hx : Outcome.Delivers E Q (x.run c))
    (hf : ∀ a c', x.run c = .ok (a, c') → Q (a, c') → Outcome.Delivers E Q' ((f a).run c')) :
    Outcome.Delivers E Q' ((x >>= f).run c) := by
  rw [StateT.run_bind]
  exact hx.proceed fun r hr h => hf r.1 r.2 hr h

theorem delivers_ask_bind {x : FlowGraph → Outcome α} {f : α → Edit β} {a : α} (hx : x c = .ok a)
    (hf : Outcome.Delivers E Q' ((f a).run c)) : Outcome.Delivers E Q' ((ask x >>= f).run c) :=
  delivers_bind (Q := fun r => r = (a, c)) (.of_ok (ask_ok.mpr ⟨hx, rfl⟩) rfl) fun b c' _ h => by
    cases h
    exact hf

theorem delivers_eval {f : FlowGraph → Outcome (α × FlowGraph)} (h : Outcome.Delivers E Q (f c)) :
    Outcome.Delivers E Q ((eval f).run c) := by
  rcases h with ⟨r, hr, h⟩ | ⟨hf, hE⟩
  · exact .of_ok (eval_ok.mpr hr) h
  · refine .inr ⟨?_, hE⟩
    change ((liftM (f c) : Edit (α × FlowGraph)) >>= fun d => set d.2 >>= fun _ => pure d.1).run c = _
    rw [StateT.run_bind, lift_run, hf]
    rfl

theorem delivers_step {f : FlowGraph → Outcome FlowGraph} {P : FlowGraph → Prop} (h : Outcome.Delivers E P (f c)) :
    Outcome.Delivers E (fun r => P r.2) ((step f).run c) := by
  rcases h with ⟨c', hc', h⟩ | ⟨hf, hE⟩
  · exact .of_ok (a := ((), c')) (step_ok.mpr hc') h
  · refine .inr ⟨?_, hE⟩
    change ((liftM (f c) : Edit FlowGraph) >>= set).run c = _
    rw [StateT.run_bind, lift_run, hf]
    rfl

theorem delivers_forM {I : List α → FlowGraph → Prop} {e : α → Edit PUnit}
    (he : ∀ a rest c, I (a :: rest) c → Outcome.Delivers E (fun r => I rest r.2) ((e a).run c)) {l : List α} (hc : I l c) :
    Outcome.Delivers E (fun r => I [] r.2) ((l.forM e).run c) := by
  induction l generalizing c with
  | nil => exact .answer hc
  | cons a rest ih =>
    change Outcome.Delivers E _ ((e a >>= fun _ => rest.forM e).run c)
    exact delivers_bind (he a rest c hc) fun _ c' _ h => ih h

end Edit

end RegionGuard

import RegionGuard.Proofs.Related
set_option autoImplicit false

namespace RegionGuard

namespace Stateful

variable {σ τ α β : Type}

/-- From a state, a computation that succeeds ends in `Q`, and one that fails ends in `E`. -/
def Leads (x : Stateful σ α) (s : σ) (Q : α → σ → Prop) (E : Failure → σ → Prop) : Prop :=
  match x.runFrom s with
  | (.ok a, s') => Q a s'
  | (.error e, s') => E e s'

namespace Leads

variable {x : Stateful σ α} {f : α → Stateful σ β} {s : σ} {Q Q' : α → σ → Prop} {E E' : Failure → σ → Prop}
  {R : β → σ → Prop}

theorem ok (h : x.Leads s Q E) {a : α} {s' : σ} (hrun : x.runFrom s = (.ok a, s')) : Q a s' := by
  unfold Leads at h
  rw [hrun] at h
  exact h

theorem error (h : x.Leads s Q E) {e : Failure} {s' : σ} (hrun : x.runFrom s = (.error e, s')) : E e s' := by
  unfold Leads at h
  rw [hrun] at h
  exact h

theorem of_ok {a : α} {s' : σ} (hrun : x.runFrom s = (.ok a, s')) (h : Q a s') : x.Leads s Q E := by
  unfold Leads
  rw [hrun]
  exact h

theorem of_error {e : Failure} {s' : σ} (hrun : x.runFrom s = (.error e, s')) (h : E e s') : x.Leads s Q E := by
  unfold Leads
  rw [hrun]
  exact h

/-- What holds in both cases holds of the state that is left behind. -/
theorem state {I : σ → Prop} (h : x.Leads s (fun _ => I) fun _ => I) : I (x.runFrom s).2 := by
  unfold Leads at h
  generalize x.runFrom s = p at h ⊢
  match p, h with
  | (.ok a, s'), h => exact h
  | (.error e, s'), h => exact h

/-- What holds exactly of the computations that succeed says whether this one does. -/
theorem succeeds_iff {P : Prop} (h : x.Leads s (fun _ _ => P) fun _ _ => ¬ P) : (∃ a s', x.runFrom s = (.ok a, s')) ↔ P := by
  refine ⟨fun ⟨_, _, hrun⟩ => h.ok hrun, fun hP => ?_⟩
  cases hrun : x.runFrom s with
  | mk o s' =>
    cases o with
    | ok a => exact ⟨a, s', rfl⟩
    | error e => exact absurd hP (h.error hrun)

theorem mono (h : x.Leads s Q E) (hQ : ∀ a s', Q a s' → Q' a s') (hE : ∀ e s', E e s' → E' e s') :
    x.Leads s Q' E' := by
  unfold Leads at h ⊢
  generalize x.runFrom s = p at h ⊢
  match p, h with
  | (.ok a, s'), h => exact hQ a s' h
  | (.error e, s'), h => exact hE e s' h

/-- What two readings of a computation say holds together. -/
theorem and (h : x.Leads s Q E) (h' : x.Leads s Q' E') :
    x.Leads s (fun a s' => Q a s' ∧ Q' a s') fun e s' => E e s' ∧ E' e s' := by
  unfold Leads at h h' ⊢
  generalize x.runFrom s = p at h h' ⊢
  match p, h, h' with
  | (.ok a, s'), h, h' => exact ⟨h, h'⟩
  | (.error e, s'), h, h' => exact ⟨h, h'⟩

theorem bind (h : x.Leads s (fun a s' => (f a).Leads s' R E) E) : (x >>= f).Leads s R E := by
  unfold Leads at h ⊢
  rw [runFrom_bind]
  generalize x.runFrom s = p at h ⊢
  match p, h with
  | (.ok a, s'), h => exact h
  | (.error e, s'), h => exact h

theorem answer {a : α} (h : Q a s) : (pure a : Stateful σ α).Leads s Q E := h

theorem raise {e : Error} (h : E (.error e) s) : (Failure.raise e : Stateful σ α).Leads s Q E := h

theorem stop {e : Fatal} (h : E (.fatal e) s) : (Failure.stop e : Stateful σ α).Leads s Q E := h

theorem refuse {c : Prop} [Decidable c] {e : Error} {g : PUnit → Stateful σ β} (herror : c → E (.error e) s)
    (hgo : ¬ c → (g ⟨⟩).Leads s R E) : (if c then (Failure.raise e : Stateful σ PUnit) >>= g else g ⟨⟩).Leads s R E := by
  by_cases hc : c
  · rw [if_pos hc]
    exact .bind (.raise (herror hc))
  · rw [if_neg hc]
    exact hgo hc

theorem require {c : Prop} [Decidable c] {e : Error} {g : PUnit → Stateful σ β} (herror : ¬ c → E (.error e) s)
    (hgo : c → (g ⟨⟩).Leads s R E) : (if c then g ⟨⟩ else (Failure.raise e : Stateful σ PUnit) >>= g).Leads s R E := by
  by_cases hc : c
  · rw [if_pos hc]
    exact hgo hc
  · rw [if_neg hc]
    exact .bind (.raise (herror hc))

theorem branch {c : Prop} [Decidable c] {x y : Stateful σ α} (hyes : c → x.Leads s Q E) (hno : ¬ c → y.Leads s Q E) :
    (if c then x else y).Leads s Q E := by
  by_cases hc : c
  · rw [if_pos hc]
    exact hyes hc
  · rw [if_neg hc]
    exact hno hc

theorem lift {o : Outcome α} (hok : ∀ a, o = .ok a → Q a s) (herror : ∀ e, o = .error e → E e s) :
    (liftM o : Stateful σ α).Leads s Q E := by
  unfold Leads
  rw [runFrom_lift]
  cases o with
  | ok a => exact hok a rfl
  | error e => exact herror e rfl

theorem present {o : Option α} {e : Error} (hsome : ∀ a, o = some a → Q a s) (hnone : o = none → E (.error e) s) :
    (Failure.orRaise o e : Stateful σ α).Leads s Q E := by
  cases o with
  | some a => exact hsome a rfl
  | none => exact hnone rfl

theorem read {R : σ → σ → Prop} (h : R s s) : (get : Stateful σ σ).Leads s R E := h

theorem update {g : σ → σ} {R : PUnit → σ → Prop} (h : R ⟨⟩ (g s)) :
    (modify g : Stateful σ PUnit).Leads s R E := h

theorem put {s' : σ} {R : PUnit → σ → Prop} (h : R ⟨⟩ s') : (set s' : Stateful σ PUnit).Leads s R E := h

theorem inquire {g : σ → Outcome α} (hok : ∀ a, g s = .ok a → Q a s) (herror : ∀ e, g s = .error e → E e s) :
    (ask g).Leads s Q E := by
  unfold Leads
  rw [runFrom_ask]
  cases h : g s with
  | ok a => exact hok a h
  | error e => exact herror e h

theorem change {g : σ → Outcome σ} {R : Unit → σ → Prop} (hok : ∀ s', g s = .ok s' → R () s')
    (herror : ∀ e, g s = .error e → E e s) : (change g).Leads s R E := by
  unfold Leads
  rw [runFrom_change]
  cases h : g s with
  | ok s' => exact hok s' h
  | error e => exact herror e h

theorem each_holds {P : τ → Prop} {l : List τ} {f : τ → PUnit → Stateful σ (ForInStep PUnit)}
    (h : ∀ a ∈ l, (f a ⟨⟩).Leads s (fun r s' => r = .yield ⟨⟩ ∧ s' = s ∧ P a) E) :
    (forIn l ⟨⟩ f).Leads s (fun _ s' => s' = s ∧ ∀ a ∈ l, P a) E := by
  induction l with
  | nil => exact .answer ⟨rfl, fun _ ha => (List.not_mem_nil ha).elim⟩
  | cons a rest ih =>
    rw [List.forIn_cons]
    refine .bind ((h a List.mem_cons_self).mono (fun r s' hr => ?_) fun _ _ he => he)
    obtain ⟨rfl, rfl, ha⟩ := hr
    exact (ih fun b hb => h b (List.mem_cons_of_mem _ hb)).mono
      (fun _ _ hrest => ⟨hrest.1, List.forall_mem_cons.mpr ⟨ha, hrest.2⟩⟩) fun _ _ he => he

theorem each {l : List τ} {f : τ → PUnit → Stateful σ (ForInStep PUnit)}
    (h : ∀ a ∈ l, (f a ⟨⟩).Leads s (fun r s' => r = .yield ⟨⟩ ∧ s' = s) E) :
    (forIn l ⟨⟩ f).Leads s (fun _ s' => s' = s) E :=
  (each_holds (P := fun _ => True) fun a ha => (h a ha).mono (fun _ _ hr => ⟨hr.1, hr.2, trivial⟩) fun _ _ he => he).mono
    (fun _ _ hr => hr.1) fun _ _ he => he

theorem zoom {part : σ → τ} {put : τ → σ → σ} {x : Stateful τ α}
    (h : x.Leads (part s) (fun a t => Q a (put t s)) fun e t => E e (put t s)) :
    (zoom part put x).Leads s Q E := by
  unfold Leads at h ⊢
  rw [runFrom_zoom]
  generalize x.runFrom (part s) = p at h ⊢
  match p, h with
  | (.ok a, t), h => exact h
  | (.error e, t), h => exact h

/-- After an error, but not after a stop, the state is put right. -/
theorem onError {g : σ → σ}
    (h : x.Leads s Q fun e s' => match e with
      | .error _ => E e (g s')
      | .fatal _ => E e s') : (onError x g).Leads s Q E := by
  unfold Leads at h ⊢
  rw [runFrom_onError]
  generalize x.runFrom s = p at h ⊢
  match p, h with
  | (.ok a, s'), h => exact h
  | (.error (.error e), s'), h => exact h
  | (.error (.fatal e), s'), h => exact h

end Leads

/-- From a state with a property, a computation leads to one that has it too, also when it fails. -/
def Maintains (I : σ → Prop) (x : Stateful σ α) : Prop := ∀ s, I s → I (x.runFrom s).2

namespace Maintains

variable {I : σ → Prop} {x : Stateful σ α} {f : α → Stateful σ β}

theorem leads (h : Maintains I x) {s : σ} (hs : I s) : x.Leads s (fun _ => I) fun _ => I := by
  have hkept := h s hs
  cases hrun : x.runFrom s with
  | mk o s' =>
    rw [hrun] at hkept
    cases o with
    | ok a => exact .of_ok hrun hkept
    | error e => exact .of_error hrun hkept

theorem of_leads (h : ∀ s, I s → x.Leads s (fun _ => I) fun _ => I) : Maintains I x := fun s hs => (h s hs).state

theorem bind (h : Maintains I x) (hf : ∀ a, Maintains I (f a)) : Maintains I (x >>= f) :=
  of_leads fun _ hs => .bind ((h.leads hs).mono (fun a _ hs' => (hf a).leads hs') fun _ _ hs' => hs')

theorem answer (a : α) : Maintains I (pure a : Stateful σ α) := fun _ hs => hs

theorem raise (e : Error) : Maintains I (Failure.raise e : Stateful σ α) := fun _ hs => hs

theorem stop (e : Fatal) : Maintains I (Failure.stop e : Stateful σ α) := fun _ hs => hs

theorem lift (o : Outcome α) : Maintains I (liftM o : Stateful σ α) := fun _ hs => hs

theorem present (o : Option α) (e : Error) : Maintains I (Failure.orRaise o e : Stateful σ α) := by
  cases o with
  | none => exact raise e
  | some a => exact answer a

theorem ask (g : σ → Outcome α) : Maintains I (ask g) := fun _ hs => hs

theorem update {g : σ → σ} (h : ∀ s, I s → I (g s)) : Maintains I (modify g : Stateful σ PUnit) := h

theorem put {s : σ} (h : I s) : Maintains I (set s : Stateful σ PUnit) := fun _ _ => h

theorem change {g : σ → Outcome σ} (h : ∀ s s', I s → g s = .ok s' → I s') : Maintains I (change g) :=
  of_leads fun s hs => .change (fun s' hs' => h s s' hs hs') fun _ _ => hs

theorem inspect {f : σ → Stateful σ α} (h : ∀ s, I s → Maintains I (f s)) : Maintains I (get >>= f) := by
  intro s hs
  rw [runFrom_get_bind]
  exact h s hs s hs

theorem branch {c : Prop} [Decidable c] {x y : Stateful σ α} (hyes : c → Maintains I x) (hno : ¬ c → Maintains I y) :
    Maintains I (if c then x else y) := by
  split
  · exact hyes ‹_›
  · exact hno ‹_›

theorem refuse {c : Prop} [Decidable c] {e : Error} {g : PUnit → Stateful σ β} (h : ¬ c → Maintains I (g ⟨⟩)) :
    Maintains I (if c then (Failure.raise e : Stateful σ PUnit) >>= g else g ⟨⟩) :=
  of_leads fun _ hs => .refuse (fun _ => hs) fun hc => (h hc).leads hs

theorem require {c : Prop} [Decidable c] {e : Error} {g : PUnit → Stateful σ β} (h : c → Maintains I (g ⟨⟩)) :
    Maintains I (if c then g ⟨⟩ else (Failure.raise e : Stateful σ PUnit) >>= g) :=
  of_leads fun _ hs => .require (fun _ => hs) fun hc => (h hc).leads hs

theorem each {l : List τ} {f : τ → PUnit → Stateful σ (ForInStep PUnit)} (h : ∀ a ∈ l, Maintains I (f a ⟨⟩)) :
    Maintains I (forIn l ⟨⟩ f) := by
  induction l with
  | nil => exact answer _
  | cons a rest ih =>
    rw [List.forIn_cons]
    refine (h a List.mem_cons_self).bind fun r => ?_
    cases r with
    | done b => exact answer b
    | yield b => exact ih fun b hb => h b (List.mem_cons_of_mem _ hb)

theorem zoom {J : τ → Prop} {part : σ → τ} {put : τ → σ → σ} {x : Stateful τ α} (hx : Maintains J x)
    (hpart : ∀ s, I s → J (part s)) (hput : ∀ s t, I s → J t → I (put t s)) : Maintains I (zoom part put x) :=
  fun s hs => hput s _ hs (hx _ (hpart s hs))

theorem onError {g : σ → σ} (h : Maintains I x) (hg : ∀ s, I s → I (g s)) : Maintains I (onError x g) := by
  refine of_leads fun s hs => .onError ((h.leads hs).mono (fun _ _ hs' => hs') fun e s' hs' => ?_)
  cases e with
  | error e => exact hg s' hs'
  | fatal e => exact hs'

end Maintains

end Stateful

end RegionGuard

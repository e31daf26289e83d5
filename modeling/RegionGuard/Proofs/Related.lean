import RegionGuard.Stateful
set_option autoImplicit false

namespace RegionGuard.Stateful

variable {σ τ α β γ δ : Type}

@[simp] theorem runFrom_pure (a : α) (s : σ) :
    runFrom (pure a : Stateful σ α) s = (.ok a, s) := rfl

theorem runFrom_bind (x : Stateful σ α) (f : α → Stateful σ β) (s : σ) :
    runFrom (x >>= f) s =
      match runFrom x s with
      | (.ok a, s') => runFrom (f a) s'
      | (.error e, s') => (.error e, s') := by
  change (ExceptT.bindCont f (x s).1 (x s).2) = _
  cases h : x s with
  | mk o t =>
    have e : runFrom x s = (o, t) := h
    rw [e]
    cases o <;> rfl

theorem runFrom_bind_ok {x : Stateful σ α} {f : α → Stateful σ β} {s s' : σ} {b : β} :
    runFrom (x >>= f) s = (.ok b, s') ↔
      ∃ a t, runFrom x s = (.ok a, t) ∧ runFrom (f a) t = (.ok b, s') := by
  rw [runFrom_bind]
  constructor
  · intro h
    match hx : runFrom x s with
    | (.ok a, t) =>
      rw [hx] at h
      exact ⟨a, t, rfl, h⟩
    | (.error e, t) =>
      rw [hx] at h
      cases h
  · rintro ⟨a, t, hx, hf⟩
    rw [hx]
    exact hf

@[simp] theorem runFrom_get (s : σ) : runFrom (get : Stateful σ σ) s = (.ok s, s) := rfl

@[simp] theorem runFrom_set (s t : σ) : runFrom (set t : Stateful σ PUnit) s = (.ok ⟨⟩, t) := rfl

@[simp] theorem runFrom_modify (f : σ → σ) (s : σ) :
    runFrom (modify f : Stateful σ PUnit) s = (.ok ⟨⟩, f s) := rfl

@[simp] theorem runFrom_raise (e : Error) (s : σ) :
    runFrom (Failure.raise e : Stateful σ α) s = (.error (.error e), s) := rfl

@[simp] theorem runFrom_stop (f : Fatal) (s : σ) :
    runFrom (Failure.stop f : Stateful σ α) s = (.error (.fatal f), s) := rfl

@[simp] theorem runFrom_lift (o : Outcome α) (s : σ) :
    runFrom (liftM o : Stateful σ α) s = (o, s) := rfl

@[simp] theorem runFrom_zoom (part : σ → τ) (put : τ → σ → σ) (x : Stateful τ α) (s : σ) :
    runFrom (zoom part put x) s = ((runFrom x (part s)).1, put (runFrom x (part s)).2 s) := rfl

@[simp] theorem runFrom_ask (f : σ → Outcome α) (s : σ) : runFrom (ask f) s = (f s, s) := rfl

theorem runFrom_get_bind (f : σ → Stateful σ β) (s : σ) : runFrom (get >>= f) s = runFrom (f s) s := by
  rw [runFrom_bind, runFrom_get]

theorem runFrom_modify_bind (g : σ → σ) (f : PUnit → Stateful σ β) (s : σ) :
    runFrom (modify g >>= f) s = runFrom (f ⟨⟩) (g s) := by
  rw [runFrom_bind, runFrom_modify]

theorem lift_bind_ok {o : Outcome α} {f : α → Stateful σ β} {s s' : σ} {b : β} :
    runFrom (liftM o >>= f) s = (.ok b, s') ↔ ∃ a, o = .ok a ∧ runFrom (f a) s = (.ok b, s') := by
  rw [runFrom_bind, runFrom_lift]
  cases o <;> simp

theorem present_bind_ok {x : Option α} {e : Error} {f : α → Stateful σ β} {s s' : σ} {b : β} :
    runFrom (Failure.orRaise x e >>= f) s = (.ok b, s') ↔
      ∃ a, x = some a ∧ runFrom (f a) s = (.ok b, s') := by
  rw [runFrom_bind]
  cases x with
  | none => simp [Failure.orRaise]
  | some a => simp [Failure.orRaise]

theorem runFrom_change (f : σ → Outcome σ) (s : σ) :
    runFrom (change f) s =
      match f s with
      | .ok t => (.ok (), t)
      | .error e => (.error e, s) := by
  unfold change
  rw [runFrom_bind, runFrom_get]
  change runFrom (liftM (f s) >>= fun t => (set t : Stateful σ PUnit)) s = _
  rw [runFrom_bind, runFrom_lift]
  cases f s <;> rfl

theorem runFrom_eval (f : σ → Outcome (α × σ)) (s : σ) :
    runFrom (eval f) s =
      match f s with
      | .ok (a, t) => (.ok a, t)
      | .error e => (.error e, s) := by
  unfold eval
  rw [runFrom_bind, runFrom_get]
  change runFrom (liftM (f s) >>= fun p => (set p.2 >>= fun _ => pure p.1 : Stateful σ α)) s = _
  rw [runFrom_bind, runFrom_lift]
  cases f s with
  | error e => rfl
  | ok p => rfl

theorem runFrom_onError (x : Stateful σ α) (f : σ → σ) (s : σ) :
    runFrom (onError x f) s =
      match runFrom x s with
      | (.ok a, t) => (.ok a, t)
      | (.error (.error e), t) => (.error (.error e), f t)
      | (.error (.fatal e), t) => (.error (.fatal e), t) := by
  cases h : x s with
  | mk o t =>
    have hx : runFrom x s = (o, t) := h
    rw [hx]
    simp only [onError, runFrom, ExceptT.run, StateT.run, Id.run, tryCatch, tryCatchThe,
      MonadExceptOf.tryCatch, ExceptT.tryCatch, ExceptT.mk, bind, StateT.bind, h]
    cases o with
    | ok a => rfl
    | error failure => cases failure <;> rfl

/-- What a computation answers and leaves behind from two related states: the same failure, or results
and states that `Q` relates. -/
def Matches (Q : α → β → σ → τ → Prop) : Outcome α × σ → Outcome β × τ → Prop
  | (.ok a, s), (.ok b, t) => Q a b s t
  | (.error e, _), (.error e', _) => e = e'
  | _, _ => False

/-- Two computations that fail alike from states related by `R`, or succeed with `Q`. -/
def Related (R : σ → τ → Prop) (Q : α → β → σ → τ → Prop) (x : Stateful σ α) (y : Stateful τ β) : Prop :=
  ∀ s t, R s t → Matches Q (x.runFrom s) (y.runFrom t)

namespace Related

variable {R : σ → τ → Prop} {Q : α → β → σ → τ → Prop} {Q' : γ → δ → σ → τ → Prop}

theorem bind {x : Stateful σ α} {y : Stateful τ β} {f : α → Stateful σ γ} {g : β → Stateful τ δ}
    (h : Related R Q x y) (hf : ∀ a b, Related (Q a b) Q' (f a) (g b)) :
    Related R Q' (x >>= f) (y >>= g) := by
  intro s t hst
  have hxy := h s t hst
  rw [runFrom_bind, runFrom_bind]
  match hx : runFrom x s, hy : runFrom y t with
  | (.ok a, s'), (.ok b, t') =>
    rw [hx, hy] at hxy
    exact hf a b s' t' hxy
  | (.error e, s'), (.error e', t') =>
    rw [hx, hy] at hxy
    exact hxy
  | (.ok a, s'), (.error e', t') =>
    rw [hx, hy] at hxy
    exact hxy.elim
  | (.error e, s'), (.ok b, t') =>
    rw [hx, hy] at hxy
    exact hxy.elim

theorem answer {a : α} {b : β} (h : ∀ s t, R s t → Q a b s t) : Related R Q (pure a) (pure b) := h

theorem raise (e : Error) : Related R Q (Failure.raise e) (Failure.raise e) := fun _ _ _ => rfl

theorem stop (f : Fatal) : Related R Q (Failure.stop f) (Failure.stop f) := fun _ _ _ => rfl

theorem lift (o : Outcome α) :
    Related R (fun a b s t => a = b ∧ R s t) (liftM o : Stateful σ α) (liftM o : Stateful τ α) := by
  intro s t h
  rw [runFrom_lift, runFrom_lift]
  cases o with
  | ok a => exact ⟨rfl, h⟩
  | error e => exact rfl

theorem read : Related R (fun a b s t => a = s ∧ b = t ∧ R s t) get get :=
  fun _ _ h => ⟨rfl, rfl, h⟩

theorem update {f : σ → σ} {g : τ → τ} {P : σ → τ → Prop} (h : ∀ s t, R s t → P (f s) (g t)) :
    Related R (fun _ _ s t => P s t) (modify f : Stateful σ PUnit) (modify g : Stateful τ PUnit) := h

theorem zoom {S : γ → δ → Prop} {T : α → β → γ → δ → Prop} {part : σ → γ} {put : γ → σ → σ}
    {part' : τ → δ} {put' : δ → τ → τ} {x : Stateful γ α} {y : Stateful δ β} (h : Related S T x y)
    (hpart : ∀ s t, R s t → S (part s) (part' t))
    (hput : ∀ s t u v a b, R s t → T a b u v → Q a b (put u s) (put' v t)) :
    Related R Q (Stateful.zoom part put x) (Stateful.zoom part' put' y) := by
  intro s t hst
  have hxy := h (part s) (part' t) (hpart s t hst)
  rw [runFrom_zoom, runFrom_zoom]
  match hs : runFrom x (part s), ht : runFrom y (part' t) with
  | (.ok a, u), (.ok b, v) =>
    rw [hs, ht] at hxy
    exact hput s t u v a b hst hxy
  | (.error e, u), (.error e', v) =>
    rw [hs, ht] at hxy
    exact hxy
  | (.ok a, u), (.error e', v) =>
    rw [hs, ht] at hxy
    exact hxy.elim
  | (.error e, u), (.ok b, v) =>
    rw [hs, ht] at hxy
    exact hxy.elim

end Related

/-- A computation that answers alike from states related by `R`, and leaves such states behind. -/
def Respects (R : σ → σ → Prop) (x : Stateful σ α) : Prop :=
  Related R (fun a b s t => a = b ∧ R s t) x x

namespace Respects

variable {R : σ → σ → Prop}

theorem bind {x : Stateful σ α} {f : α → Stateful σ β} (h : Respects R x)
    (hf : ∀ a, Respects R (f a)) : Respects R (x >>= f) := by
  apply Related.bind h
  intro a b s t hab
  obtain ⟨rfl, hst⟩ := hab
  exact hf a s t hst

theorem answer (a : α) : Respects R (pure a : Stateful σ α) := fun _ _ h => ⟨rfl, h⟩

theorem raise (e : Error) : Respects R (Failure.raise e : Stateful σ α) := Related.raise e

theorem stop (f : Fatal) : Respects R (Failure.stop f : Stateful σ α) := Related.stop f

theorem lift (o : Outcome α) : Respects R (liftM o : Stateful σ α) := Related.lift o

theorem update {f : σ → σ} (h : ∀ s t, R s t → R (f s) (f t)) :
    Respects R (modify f : Stateful σ PUnit) := fun s t hst => ⟨rfl, h s t hst⟩

/-- After reading the state, the rest has to answer alike from the two states that were read. -/
theorem inspect {f : σ → Stateful σ α}
    (h : ∀ s t, R s t → Matches (fun a b s t => a = b ∧ R s t) ((f s).runFrom s) ((f t).runFrom t)) :
    Respects R (get >>= f) := by
  intro s t hst
  rw [runFrom_bind, runFrom_bind, runFrom_get, runFrom_get]
  exact h s t hst

theorem ask {f : σ → Outcome α} (h : ∀ s t, R s t → f s = f t) : Respects R (ask f) := by
  intro s t hst
  rw [runFrom_ask, runFrom_ask, h s t hst]
  cases f t with
  | ok a => exact ⟨rfl, hst⟩
  | error e => exact rfl

theorem change {f : σ → Outcome σ}
    (h : ∀ s t, R s t →
      (∃ e, f s = .error e ∧ f t = .error e) ∨ ∃ u v, f s = .ok u ∧ f t = .ok v ∧ R u v) :
    Respects R (change f) := by
  intro s t hst
  rw [runFrom_change, runFrom_change]
  rcases h s t hst with ⟨e, hs, ht⟩ | ⟨u, v, hs, ht, huv⟩
  · rw [hs, ht]
    exact rfl
  · rw [hs, ht]
    exact ⟨rfl, huv⟩

theorem zoom {S : τ → τ → Prop} {part : σ → τ} {put : τ → σ → σ} {x : Stateful τ α}
    (hx : Respects S x) (hpart : ∀ s t, R s t → S (part s) (part t))
    (hput : ∀ s t u v, R s t → S u v → R (put u s) (put v t)) : Respects R (zoom part put x) :=
  Related.zoom hx hpart fun s t u v _ _ hst huv => ⟨huv.1, hput s t u v hst huv.2⟩

theorem present (x : Option α) (e : Error) : Respects R (Failure.orRaise x e : Stateful σ α) := by
  cases x with
  | none => exact raise e
  | some a => exact answer a

/-- What fails alike still does when the state is changed after an error. -/
theorem onError {x : Stateful σ α} {f : σ → σ} (h : Respects R x) : Respects R (onError x f) := by
  intro s t hst
  have hxt := h s t hst
  rw [runFrom_onError, runFrom_onError]
  match hs : runFrom x s, ht : runFrom x t with
  | (.ok a, u), (.ok b, v) =>
    rw [hs, ht] at hxt
    exact hxt
  | (.error e, u), (.error e', v) =>
    rw [hs, ht] at hxt
    have he : e = e' := hxt
    subst he
    cases e <;> exact rfl
  | (.ok a, u), (.error e', v) =>
    rw [hs, ht] at hxt
    exact hxt.elim
  | (.error e, u), (.ok b, v) =>
    rw [hs, ht] at hxt
    exact hxt.elim

end Respects

end RegionGuard.Stateful

import RegionGuard.Proofs.HoistedRuns
import RegionGuard.Proofs.RelayedRuns
set_option autoImplicit false

namespace RegionGuard

open Stateful

namespace Processor

variable {t t' t'' : Task} {s s' u u' v v' : Processor} {log : List (String × List Word)} {function : String}
  {arguments : List Word}

section Ends

variable {r : Outcome (Option Constant)} {e : Failure}

theorem gets_unique (h : Gets t s v) (hv : ∃ e, ((step t).runFrom v).1 = .error e) (h' : Gets t s v')
    (hv' : ∃ e, ((step t).runFrom v').1 = .error e) : v = v' := by
  obtain ⟨steps, h⟩ := h
  obtain ⟨steps', h'⟩ := h'
  induction steps generalizing s steps' with
  | zero =>
    cases h
    cases steps' with
    | zero =>
      cases h'
      rfl
    | succ steps' =>
      obtain ⟨s₁, hstep, -⟩ := after_succ h'
      rw [hstep] at hv
      obtain ⟨e, he⟩ := hv
      cases he
  | succ steps ih =>
    obtain ⟨s₁, hstep, hafter⟩ := after_succ h
    cases steps' with
    | zero =>
      cases h'
      rw [hstep] at hv'
      obtain ⟨e, he⟩ := hv'
      cases he
    | succ steps' =>
      obtain ⟨s₂, hstep', hafter'⟩ := after_succ h'
      cases hstep.symm.trans hstep'
      exact ih hafter steps' hafter'

theorem Yields.error_of_gets (h : Yields t s log r s') (hv : Gets t s v) (he : ((step t).runFrom v).1 = .error e) :
    r = .error e := by
  obtain ⟨steps, hv⟩ := hv
  induction h generalizing steps with
  | finishes hstep =>
    cases steps with
    | zero =>
      cases hv
      rw [hstep] at he
      cases he
    | succ steps =>
      obtain ⟨s₁, hstep', -⟩ := after_succ hv
      cases hstep.symm.trans hstep'
  | fails hstep =>
    cases steps with
    | zero =>
      cases hv
      rw [hstep] at he
      cases he
      rfl
    | succ steps =>
      obtain ⟨s₁, hstep', -⟩ := after_succ hv
      cases hstep.symm.trans hstep'
  | goesOn hstep _ ih =>
    cases steps with
    | zero =>
      cases hv
      rw [hstep] at he
      cases he
    | succ steps =>
      obtain ⟨s₁, hstep', hafter⟩ := after_succ hv
      cases hstep.symm.trans hstep'
      exact ih steps hafter

/-- A run that is given enough moves ends as it does without a bound. -/
theorem yields_of_proceed {n : Nat} (h : (proceed t n).runFrom s = (r, s')) :
    (∃ log, Yields t s log r s') ∨ r = .error (.fatal .unbounded) := by
  induction n generalizing s with
  | zero =>
    cases h
    exact .inr rfl
  | succ n ih =>
    rw [proceed_succ] at h
    match hstep : (step t).runFrom s with
    | (.ok .running, s₁) =>
      rw [hstep] at h
      refine (ih h).imp_left ?_
      rintro ⟨log, hyields⟩
      exact ⟨_, .goesOn hstep hyields⟩
    | (.ok (.finished result), s₁) =>
      rw [hstep] at h
      cases h
      exact .inl ⟨_, .finishes hstep⟩
    | (.error e, s₁) =>
      rw [hstep] at h
      cases h
      exact .inl ⟨_, .fails hstep⟩

theorem proceed_of_yields (h : Yields t s log r s') : ∃ n, ∀ m, n ≤ m → (proceed t m).runFrom s = (r, s') := by
  induction h with
  | finishes hstep =>
    refine ⟨1, fun m hm => ?_⟩
    obtain ⟨m, rfl⟩ : ∃ k, m = k + 1 := ⟨m - 1, by omega⟩
    rw [proceed_succ, hstep]
  | fails hstep =>
    refine ⟨1, fun m hm => ?_⟩
    obtain ⟨m, rfl⟩ : ∃ k, m = k + 1 := ⟨m - 1, by omega⟩
    rw [proceed_succ, hstep]
  | goesOn hstep _ ih =>
    obtain ⟨n, hn⟩ := ih
    refine ⟨n + 1, fun m hm => ?_⟩
    obtain ⟨m, rfl⟩ : ∃ k, m = k + 1 := ⟨m - 1, by omega⟩
    rw [proceed_succ, hstep]
    exact hn m (by omega)

end Ends

def runWithin (t : Task) (moves : Nat) (function : String) (arguments : List Word) :
    Stateful Processor (Option Word) := do
  let f ← t.program.function function
  let constants := List.zipWith (fun (x : Argument) w => Constant.make w (x.ty.bits.getD pointerBits))
    f.arguments arguments
  let before ← get
  let result ← Stateful.onError
    (do
      enter f constants .runner
      proceed t moves)
    (fun p => withStackPointer before.stackPointer { p with calls := before.calls })
  return result.map Constant.value

theorem run_eq (t : Task) : run t = runWithin t patience := rfl

/-- What a run leaves behind: an error gives the stack back and ends all calls. -/
def released {α : Type} (before : Processor) : Outcome α → Processor → Processor
  | .error (.error _), s => withStackPointer before.stackPointer { s with calls := before.calls }
  | _, s => s

theorem runWithin_runFrom (t : Task) (moves : Nat) (function : String) (arguments : List Word) (s : Processor) :
    (runWithin t moves function arguments).runFrom s =
      match t.program.function function with
      | .error e => (.error e, s)
      | .ok _ =>
        match (start t function arguments).runFrom s with
        | (.error e, s₁) => (.error e, released s (.error e : Outcome Unit) s₁)
        | (.ok _, s₁) =>
          (((proceed t moves).runFrom s₁).1.map (Option.map Constant.value),
            released s ((proceed t moves).runFrom s₁).1 ((proceed t moves).runFrom s₁).2) := by
  unfold runWithin start
  rw [runFrom_bind, runFrom_bind, runFrom_lift]
  cases t.program.function function with
  | error e => rfl
  | ok f =>
    simp only [runFrom_get_bind]
    rw [runFrom_bind, runFrom_onError, runFrom_bind]
    match (enter f (List.zipWith (fun (x : Argument) w =>
        Constant.make w (x.ty.bits.getD pointerBits)) f.arguments arguments) .runner).runFrom s with
    | (.error (.error e), s₁) => rfl
    | (.error (.fatal e), s₁) => rfl
    | (.ok _, s₁) =>
      simp only
      match (proceed t moves).runFrom s₁ with
      | (.ok r, s₂) => rfl
      | (.error (.error e), s₂) => rfl
      | (.error (.fatal e), s₂) => rfl

/-- What a run answers when it is given enough moves, what it leaves behind, and what it asks of the machine
until then. -/
inductive Concludes (t : Task) (function : String) (arguments : List Word) (s : Processor) :
    List (String × List Word) → Outcome (Option Word) → Processor → Prop
  | unknown {e : Failure} (missing : t.program.function function = .error e) :
      Concludes t function arguments s [] (.error e) s
  | refused {e : Failure} {s₁ : Processor} (known : ∃ f, t.program.function function = .ok f)
      (start : (start t function arguments).runFrom s = (.error e, s₁)) :
      Concludes t function arguments s [] (.error e) (released s (.error e : Outcome Unit) s₁)
  | ends {s₁ s₂ : Processor} {log : List (String × List Word)} {r : Outcome (Option Constant)}
      (known : ∃ f, t.program.function function = .ok f)
      (start : (start t function arguments).runFrom s = (.ok (), s₁)) (yields : Yields t s₁ log r s₂) :
      Concludes t function arguments s log (r.map (Option.map Constant.value)) (released s r s₂)

section Within

variable {r : Outcome (Option Word)}

theorem concludes_of_runWithin {moves : Nat} (h : (runWithin t moves function arguments).runFrom s = (r, s')) :
    (∃ log, Concludes t function arguments s log r s') ∨ r = .error (.fatal .unbounded) := by
  rw [runWithin_runFrom] at h
  cases hf : t.program.function function with
  | error e =>
    rw [hf] at h
    cases h
    exact .inl ⟨_, .unknown hf⟩
  | ok f =>
    rw [hf] at h
    match hstart : (start t function arguments).runFrom s with
    | (.error e, s₁) =>
      rw [hstart] at h
      cases h
      exact .inl ⟨_, .refused ⟨f, hf⟩ hstart⟩
    | (.ok _, s₁) =>
      rw [hstart] at h
      cases h
      match hproceed : (proceed t moves).runFrom s₁ with
      | (r', s₂) =>
        rcases yields_of_proceed hproceed with ⟨log, hyields⟩ | rfl
        · exact .inl ⟨log, .ends ⟨f, hf⟩ hstart hyields⟩
        · exact .inr rfl

theorem runWithin_of_concludes (h : Concludes t function arguments s log r s') :
    ∃ n, ∀ moves, n ≤ moves → (runWithin t moves function arguments).runFrom s = (r, s') := by
  cases h with
  | unknown hf =>
    refine ⟨0, fun moves _ => ?_⟩
    rw [runWithin_runFrom, hf]
  | refused hknown hstart =>
    obtain ⟨f, hf⟩ := hknown
    refine ⟨0, fun moves _ => ?_⟩
    rw [runWithin_runFrom, hf]
    simp only [hstart]
  | ends hknown hstart hyields =>
    obtain ⟨f, hf⟩ := hknown
    obtain ⟨n, hn⟩ := proceed_of_yields hyields
    refine ⟨n, fun moves hmoves => ?_⟩
    rw [runWithin_runFrom, hf]
    simp only [hstart, hn moves hmoves]

end Within

/-- An answer instead of another one: the same, or a failure over another value that the phis of the same block
take. -/
def Replaces (t : Task) (function : String) (arguments : List Word) (s : Processor) (r r' : Outcome (Option Word)) :
    Prop :=
  r' = r ∨ ∃ s₁ e e', (start t function arguments).runFrom s = (.ok (), s₁) ∧ r = .error e ∧ r' = .error e' ∧
    StopsAt t (fun v => v.Misses e ∧ v.Misses e') s₁ e

/-- Two tasks whose runs of a function end alike, and miss the same. -/
structure Alike (t t' : Task) (function : String) (arguments : List Word) (s : Processor) : Prop where
  concludes : ∀ {log r s'}, Concludes t function arguments s log r s' →
    ∃ r' u', Concludes t' function arguments s log r' u' ∧ s'.Even u' ∧ Replaces t function arguments s r r'
  concluded : ∀ {log r' u'}, Concludes t' function arguments s log r' u' →
    ∃ r s', Concludes t function arguments s log r s' ∧ s'.Even u' ∧ Replaces t function arguments s r r'
  misses : ∀ {u₁ v'}, (start t' function arguments).runFrom s = (.ok (), u₁) → Gets t' u₁ v' →
    (∃ e, v'.Misses e) → ∃ s₁ v, (start t function arguments).runFrom s = (.ok (), s₁) ∧ Gets t s₁ v ∧
      (∀ e, v'.Misses e → v.Misses e) ∧ ∃ e, ((step t).runFrom v).1 = .error e

section Runs

variable {r r' r'' : Outcome (Option Word)}

theorem Misses.not_fatal {e : Fatal} : ¬ s.Misses (.fatal e) := by
  rintro ⟨a, callers, -, hmisses⟩
  obtain ⟨_, ⟨⟩⟩ := hmisses.error

theorem Concludes.error_of_gets (h : Concludes t function arguments s log r s') {s₁ : Processor}
    (hstart : (start t function arguments).runFrom s = (.ok (), s₁)) (hv : Gets t s₁ v) {e : Failure}
    (he : ((step t).runFrom v).1 = .error e) : r = .error e := by
  cases h with
  | unknown hf =>
    unfold start at hstart
    obtain ⟨f, hf', -⟩ := lift_bind_ok.mp hstart
    cases hf.symm.trans hf'
  | refused _ hstart' => cases hstart.symm.trans hstart'
  | ends _ hstart' hyields =>
    cases hstart.symm.trans hstart'
    rw [hyields.error_of_gets hv he]
    rfl

namespace Alike

theorem replaces (h : Alike t t' function arguments s) (hr : Concludes t function arguments s log r s')
    (hrr : Replaces t function arguments s r r') (hrr' : Replaces t' function arguments s r' r'') :
    Replaces t function arguments s r r'' := by
  rcases hrr' with rfl | ⟨u₁, e', e'', hstart', rfl, rfl, v', hgets', ⟨hmiss', hmiss''⟩, -⟩
  · exact hrr
  obtain ⟨s₁, v, hstart, hgets, hmisses, e₀, he₀⟩ := h.misses hstart' hgets' ⟨e', hmiss'⟩
  cases hr.error_of_gets hstart hgets he₀
  refine .inr ⟨s₁, e₀, e'', hstart, rfl, rfl, v, hgets, ⟨?_, hmisses e'' hmiss''⟩, he₀⟩
  rcases hrr with heq | ⟨s₂, e, _, hstart₂, ⟨⟩, ⟨⟩, w, hw, ⟨hmiss, -⟩, he⟩
  · cases heq
    exact hmisses _ hmiss'
  · cases hstart.symm.trans hstart₂
    cases gets_unique hgets ⟨_, he₀⟩ hw ⟨_, he⟩
    exact hmiss

theorem trans (h : Alike t t' function arguments s) (h' : Alike t' t'' function arguments s) :
    Alike t t'' function arguments s where
  concludes hr := by
    obtain ⟨r', u', hr', heven, hrr⟩ := h.concludes hr
    obtain ⟨r'', w', hr'', heven', hrr'⟩ := h'.concludes hr'
    exact ⟨r'', w', hr'', heven.trans heven', h.replaces hr hrr hrr'⟩
  concluded hr'' := by
    obtain ⟨r', u', hr', heven', hrr'⟩ := h'.concluded hr''
    obtain ⟨r, s', hr, heven, hrr⟩ := h.concluded hr'
    exact ⟨r, s', hr, heven.trans heven', h.replaces hr hrr hrr'⟩
  misses hstart'' hgets'' hmiss'' := by
    obtain ⟨u₁, v', hstart', hgets', hmisses', e', he'⟩ := h'.misses hstart'' hgets'' hmiss''
    obtain ⟨e, he⟩ := hmiss''
    obtain ⟨s₁, v, hstart, hgets, hmisses, hfails⟩ := h.misses hstart' hgets' ⟨e, hmisses' e he⟩
    exact ⟨s₁, v, hstart, hgets, fun e he => hmisses e (hmisses' e he), hfails⟩

end Alike

end Runs

section Relayed

theorem Even.released {α : Type} (before : Processor) (h : s.Even u) (r : Outcome α) :
    (released before r s).Even (released before r u) := by
  match r with
  | .ok _ => exact h
  | .error (.error _) => exact (h.withCalls before.calls before.calls).withStackPointer _
  | .error (.fatal _) => exact h

theorem Even.released_error {α : Type} (before : Processor) (h : s.Even u) (e e' : Error) :
    (Processor.released before (.error (.error e) : Outcome α) s).Even
      (Processor.released before (.error (.error e') : Outcome α) u) :=
  (h.withCalls before.calls before.calls).withStackPointer _

theorem exists_relays (relays : t.Relays t') (function : String) :
    (∃ e, t.program.function function = .error e ∧ t'.program.function function = .error e) ∨
      ∃ f g, t.program.function function = .ok f ∧ t'.program.function function = .ok g ∧ f.Relays g := by
  have hfunctions := relays.program function
  unfold Program.function
  generalize t.program.function? function = f at hfunctions
  generalize t'.program.function? function = g at hfunctions
  cases hfunctions with
  | none => exact .inl ⟨_, rfl, rfl⟩
  | some hfg => exact .inr ⟨_, _, rfl, rfl, hfg⟩

theorem missing_iff (relays : t.Relays t') {e : Failure} :
    t.program.function function = .error e ↔ t'.program.function function = .error e := by
  rcases exists_relays relays function with ⟨e', hf, hg⟩ | ⟨f, g, hf, hg, -⟩
  · rw [hf, hg]
  · simp only [hf, hg, reduceCtorEq]

theorem known_iff (relays : t.Relays t') :
    (∃ f, t.program.function function = .ok f) ↔ ∃ g, t'.program.function function = .ok g := by
  rcases exists_relays relays function with ⟨e, hf, hg⟩ | ⟨f, g, hf, hg, -⟩
  · simp only [hf, hg, reduceCtorEq, exists_false]
  · simp only [hf, hg, Except.ok.injEq, exists_eq']

theorem likewise_start (relays : t.Relays t') (idle : s.calls = []) (function : String) (arguments : List Word) :
    Likewise Activation.Alongside ((start t function arguments).runFrom s) ((start t' function arguments).runFrom s) := by
  unfold start
  rcases exists_relays relays function with ⟨e, hf, hg⟩ | ⟨f, g, hf, hg, hfg⟩
  · rw [hf, hg]
    exact likewise_error (.refl s) e
  · rw [hf, hg]
    change Likewise _ ((enter f _ _).runFrom s) ((enter g _ _).runFrom s)
    rw [hfg.arguments]
    exact likewise_enter hfg ⟨.refl s, by rw [idle]; exact .nil⟩

theorem Stands.replaces {s₁ : Processor} {r r' : Outcome (Option Constant)}
    (hstart : (start t function arguments).runFrom s = (.ok (), s₁)) (h : Stands t s₁ r r') :
    Replaces t function arguments s (r.map (Option.map Constant.value)) (r'.map (Option.map Constant.value)) := by
  rcases h with rfl | ⟨e, e', rfl, rfl, hstops⟩
  · exact .inl rfl
  · exact .inr ⟨s₁, e, e', hstart, rfl, rfl, hstops⟩

theorem Stands.released {s₁ s₂ u₂ : Processor} {r r' : Outcome (Option Constant)} (h : Stands t s₁ r r')
    (heven : s₂.Even u₂) : (Processor.released s r s₂).Even (Processor.released s r' u₂) := by
  rcases h with rfl | ⟨e, e', rfl, rfl, v, -, ⟨hmiss, hmiss'⟩, -⟩
  · exact heven.released s _
  · cases e with
    | fatal => exact absurd hmiss Misses.not_fatal
    | error e =>
      cases e' with
      | fatal => exact absurd hmiss' Misses.not_fatal
      | error e' => exact heven.released_error s e e'

theorem alike_of_relays (relays : t.Relays t') (idle : s.calls = []) (function : String) (arguments : List Word) :
    Alike t t' function arguments s := by
  have hlikewise := likewise_start relays idle function arguments
  match hstart : (start t function arguments).runFrom s, hstart' : (start t' function arguments).runFrom s with
  | (.error e, s₁), (o, u₁) =>
    rw [hstart, hstart'] at hlikewise
    cases hlikewise.outcome
    refine ⟨fun hr => ?_, fun hr' => ?_, fun hbegun _ _ => by cases hstart'.symm.trans hbegun⟩
    · cases hr with
      | unknown missing => exact ⟨_, _, .unknown ((missing_iff relays).mp missing), .refl s, .inl rfl⟩
      | refused known begun =>
        cases hstart.symm.trans begun
        exact ⟨_, _, .refused ((known_iff relays).mp known) hstart', hlikewise.even.released s _, .inl rfl⟩
      | ends _ begun => cases hstart.symm.trans begun
    · cases hr' with
      | unknown missing => exact ⟨_, _, .unknown ((missing_iff relays).mpr missing), .refl s, .inl rfl⟩
      | refused known begun =>
        cases hstart'.symm.trans begun
        exact ⟨_, _, .refused ((known_iff relays).mpr known) hstart, hlikewise.even.released s _, .inl rfl⟩
      | ends _ begun => cases hstart'.symm.trans begun
  | (.ok _, s₁), (o, u₁) =>
    rw [hstart, hstart'] at hlikewise
    cases hlikewise.outcome
    have haccompanies : s₁.Accompanies u₁ := .inl ⟨hlikewise.even, hlikewise.calls () rfl⟩
    refine ⟨fun hr => ?_, fun hr' => ?_, fun hbegun hgets' hmiss' => ?_⟩
    · cases hr with
      | unknown missing => exact ⟨_, _, .unknown ((missing_iff relays).mp missing), .refl s, .inl rfl⟩
      | refused _ begun => cases hstart.symm.trans begun
      | ends known begun hyields =>
        cases hstart.symm.trans begun
        obtain ⟨r', u₂, hyields', heven, hstands⟩ := haccompanies.yields relays hyields
        exact ⟨_, _, .ends ((known_iff relays).mp known) hstart' hyields', hstands.released heven,
          hstands.replaces hstart⟩
    · cases hr' with
      | unknown missing => exact ⟨_, _, .unknown ((missing_iff relays).mpr missing), .refl s, .inl rfl⟩
      | refused _ begun => cases hstart'.symm.trans begun
      | ends known begun hyields' =>
        cases hstart'.symm.trans begun
        obtain ⟨r, s₂, hyields, heven, hstands⟩ := haccompanies.yielded relays hyields'
        exact ⟨_, _, .ends ((known_iff relays).mpr known) hstart hyields, hstands.released heven,
          hstands.replaces hstart⟩
    · cases hstart'.symm.trans hbegun
      obtain ⟨v, hgets, hbeside⟩ := haccompanies.gets relays hgets'
      obtain ⟨e, he⟩ := hmiss'
      exact ⟨s₁, v, hstart, hgets, fun e he => hbeside.misses he, (hbeside.stops he).2⟩

end Relayed

end Processor

structure Function.Simplifies (f g : Function) : Prop where
  name : g.name = f.name
  arguments : g.arguments = f.arguments
  bodies : f.body = none ∧ g.body = none ∨ ∃ c c', f.body = some c ∧ g.body = some c' ∧ Preheader.Chained c c'

namespace Program

variable {p q : Program} {f g : Function} {name : String}

def Plain (p : Program) : Prop := ∀ name f, p.function? name = some f → ∀ c ∈ f.body, c.Plain ∧ c.Ordered

theorem Plain.relays_self (plain : p.Plain) (hf : p.function? name = some f) : f.Relays f where
  name := rfl
  arguments := rfl
  bodies := by
    cases hbody : f.body with
    | none => exact .inl ⟨rfl, rfl⟩
    | some c =>
      obtain ⟨hplain, hordered⟩ := plain name f hf c hbody
      exact .inr ⟨c, c, rfl, rfl, .refl hplain hordered⟩

theorem Plain.relays_of_same (plain : p.Plain) (h : ∀ name, q.function? name = p.function? name) : p.Relays q := by
  intro name
  rw [h]
  cases hf : p.function? name with
  | none => exact .none
  | some f => exact .some (plain.relays_self hf)

theorem function?_setFunction (p : Program) (name n : String) (f : Function) :
    (p.setFunction name f).function? n = if n = name then some f else p.function? n :=
  Table.get?_insert p.functions name n f

theorem Plain.relays_setFunction (plain : p.Plain) (hfg : f.Relays g) :
    (p.setFunction name f).Relays (p.setFunction name g) := by
  intro n
  rw [function?_setFunction, function?_setFunction]
  split
  · exact .some hfg
  · exact plain.relays_of_same (fun _ => rfl) n

theorem Plain.setFunction (plain : p.Plain) (hfg : f.Simplifies g) : (p.setFunction name g).Plain := by
  intro n h hn c hc
  rw [function?_setFunction] at hn
  split at hn
  · cases hn
    rcases hfg.bodies with ⟨-, hnone⟩ | ⟨c₀, c₁, -, hc₁, chained⟩
    · cases hnone.symm.trans hc
    · cases hc₁.symm.trans hc
      exact ⟨chained.plain, chained.ordered⟩
  · exact plain n h hn c hc

theorem Plain.chain_setFunction (plain : p.Plain) (hf : p.function? name = some f) (hfg : f.Simplifies g) :
    Relation.ReflTransGen Relays p (p.setFunction name g) := by
  have hself : Relation.ReflTransGen Relays p (p.setFunction name f) := .single <| plain.relays_of_same fun n => by
    rw [function?_setFunction]
    split
    · rename_i heq
      rw [heq, hf]
    · rfl
  rcases hfg.bodies with ⟨hnone, hnone'⟩ | ⟨c, c', hc, hc', chained⟩
  · exact hself.tail (plain.relays_setFunction ⟨hfg.name, hfg.arguments, .inl ⟨hnone, hnone'⟩⟩)
  · have hsteps : ∀ d, Relation.ReflTransGen FlowGraph.Linked c d →
        Relation.ReflTransGen Relays p (p.setFunction name { g with body := some d }) := by
      intro d hd
      induction hd with
      | refl =>
        obtain ⟨hplain, hordered⟩ := plain name f hf c hc
        exact hself.tail (plain.relays_setFunction ⟨hfg.name, hfg.arguments, .inr ⟨c, c, hc, rfl, .refl hplain hordered⟩⟩)
      | tail _ hlinked ih =>
        exact ih.tail (plain.relays_setFunction ⟨rfl, rfl, .inr ⟨_, _, rfl, rfl, hlinked⟩⟩)
    have hlast := hsteps c' chained.chain
    rwa [show { g with body := some c' } = g by rw [← hc']] at hlast

theorem chain_of_simplifies (names : List String) (plain : p.Plain)
    (h : ∀ name, Option.Rel Function.Simplifies (p.function? name) (q.function? name))
    (others : ∀ name, name ∉ names → q.function? name = p.function? name) : Relation.ReflTransGen Relays p q := by
  induction names generalizing p with
  | nil => exact .single (plain.relays_of_same fun name => others name List.not_mem_nil)
  | cons name rest ih =>
    have hname := h name
    generalize hf : p.function? name = o at hname
    generalize hg : q.function? name = o' at hname
    cases hname with
    | none =>
      refine ih plain h fun n hn => ?_
      by_cases heq : n = name
      · rw [heq, hf, hg]
      · exact others n (by simp [heq, hn])
    | @some f g hfg =>
      refine (plain.chain_setFunction hf hfg).trans (ih (plain.setFunction hfg) (fun n => ?_) fun n hn => ?_)
      · rw [function?_setFunction]
        split
        · rename_i heq
          rw [heq, hg]
          refine .some ⟨rfl, rfl, ?_⟩
          rcases hfg.bodies with ⟨-, hnone⟩ | ⟨c, c', -, hc', chained⟩
          · exact .inl ⟨hnone, hnone⟩
          · exact .inr ⟨c', c', hc', hc', chained.plain, chained.ordered, .refl⟩
        · exact h n
      · rw [function?_setFunction]
        split
        · rename_i heq
          rw [heq, hg]
        · rename_i hne
          exact others n (by simp [hne, hn])

end Program

namespace Processor

variable {p q : Program} {s : Processor}

theorem alike_of_chain (plain : p.Plain) (h : Relation.ReflTransGen Program.Relays p q) (c : Configuration)
    (limit : Word) (idle : s.calls = []) (function : String) (arguments : List Word) :
    Alike ⟨p, c, limit⟩ ⟨q, c, limit⟩ function arguments s := by
  induction h with
  | refl => exact alike_of_relays ⟨plain.relays_of_same fun _ => rfl, rfl, rfl⟩ idle function arguments
  | @tail q q' _ hrelays ih =>
    have relays : Task.Relays ⟨q, c, limit⟩ ⟨q', c, limit⟩ := ⟨hrelays, rfl, rfl⟩
    exact ih.trans (alike_of_relays relays idle function arguments)

end Processor

namespace Program

open Processor

variable {p q : Program}

/-- Every function of a program or some of them are given their preheaders. -/
def Simplified (chosen : Function → Bool) (p q : Program) : Prop :=
  ∃ counts, p.editFunctions (fun f => if chosen f then f.simplifyLoops else pure (0, f)) = .ok (counts, q)

theorem plain_of_verify (made : p.Made) (verified : p.verify = .ok ())
    (instrumentable : ∀ f ∈ p.functions.values, ∀ body ∈ f.body, body.Instrumentable) : p.Plain := by
  intro name f hf c hbody
  obtain ⟨_, _, hverified⟩ := verified_of_verify made verified hf hbody
  exact ⟨(instrumentable f (Table.mem_values_of_get? hf) c hbody).plain, hverified.ordered⟩

theorem Simplified.simplifies {chosen : Function → Bool} (plain : p.Plain) (h : p.Simplified chosen q) (name : String) :
    Option.Rel Function.Simplifies (p.function? name) (q.function? name) := by
  obtain ⟨counts, hedit⟩ := h
  obtain ⟨hnone, hsome⟩ := (editFunctions_ok hedit).2 name
  cases hf : p.function? name with
  | none =>
    rw [hnone hf]
    exact .none
  | some f =>
    obtain ⟨n, g, hg, hq⟩ := hsome f hf
    rw [hq]
    refine .some ?_
    split at hg
    · obtain ⟨c, c', hc, hrun, rfl⟩ := Function.edit_ok hg
      obtain ⟨hplain, hordered⟩ := plain name f hf c hc
      exact ⟨rfl, rfl, .inr ⟨c, c', hc, rfl, Preheader.chained_simplify c n c' ⟨hplain, hordered, .refl⟩ hrun⟩⟩
    · cases hg
      refine ⟨rfl, rfl, ?_⟩
      cases hbody : f.body with
      | none => exact .inl ⟨rfl, rfl⟩
      | some c =>
        obtain ⟨hplain, hordered⟩ := plain name f hf c hbody
        exact .inr ⟨c, c, rfl, rfl, hplain, hordered, .refl⟩

theorem Simplified.image {chosen : Function → Bool} (made : p.Made) (plain : p.Plain) (h : p.Simplified chosen q) :
    Image.ofProgram q = Image.ofProgram p := by
  have named : ∀ name f, p.function? name = some f → f.name = name := fun name f hf =>
    (numbered_iff.mp made.numbered name f hf).1
  refine image_congr named (fun name g hg => ?_) (fun name => ?_) ?_
  · have hrel := h.simplifies plain name
    rw [hg] at hrel
    generalize hf : p.function? name = o at hrel
    cases hrel with
    | some hfg => exact hfg.name.trans (named name _ hf)
  · have hrel := h.simplifies plain name
    generalize p.function? name = o at hrel
    generalize q.function? name = o' at hrel
    cases hrel <;> rfl
  · obtain ⟨counts, hedit⟩ := h
    exact (editFunctions_ok hedit).1

/-- Giving the loops of some functions their preheaders leaves every run as it is: one ends just when the other one
does, with the same answer, machine and number of steps, and having asked the same of the runtime. Only a run that
fails where the phis of the next block take several values that are not to be had may fail over another one of
these. -/
theorem runs_of_simplified (made : p.Made) (verified : p.verify = .ok ())
    (instrumentable : ∀ f ∈ p.functions.values, ∀ body ∈ f.body, body.Instrumentable) {chosen : Function → Bool}
    (simplified : p.Simplified chosen q) :
    (∀ kind, Machine.ofProgram q kind = Machine.ofProgram p kind) ∧
      ∀ (c : Configuration) (limit : Word) (function : String) (arguments : List Word) (s : Processor), s.calls = [] →
        (∀ r s' r' u', (run ⟨p, c, limit⟩ function arguments).runFrom s = (r, s') →
          (run ⟨q, c, limit⟩ function arguments).runFrom s = (r', u') →
          r ≠ .error (.fatal .unbounded) → r' ≠ .error (.fatal .unbounded) →
          s'.Even u' ∧ Replaces ⟨p, c, limit⟩ function arguments s r r') ∧
        (∀ log r s', Concludes ⟨p, c, limit⟩ function arguments s log r s' →
          ∃ r' u', Concludes ⟨q, c, limit⟩ function arguments s log r' u' ∧ s'.Even u' ∧
            Replaces ⟨p, c, limit⟩ function arguments s r r') ∧
        ∀ log r' u', Concludes ⟨q, c, limit⟩ function arguments s log r' u' →
          ∃ r s', Concludes ⟨p, c, limit⟩ function arguments s log r s' ∧ s'.Even u' ∧
            Replaces ⟨p, c, limit⟩ function arguments s r r' := by
  have plain := plain_of_verify made verified instrumentable
  have chain : Relation.ReflTransGen Relays p q :=
    chain_of_simplifies p.functions.keys plain (simplified.simplifies plain) fun name hname => by
      have hnone : p.function? name = none := by
        rw [Table.mem_keys_iff, Option.not_isSome_iff_eq_none] at hname
        exact hname
      obtain ⟨counts, hedit⟩ := simplified
      rw [((editFunctions_ok hedit).2 name).1 hnone, hnone]
  refine ⟨fun kind => ?_, fun c limit function arguments s idle => ?_⟩
  · unfold Machine.ofProgram
    rw [simplified.image made plain]
  · have alike := alike_of_chain plain chain c limit idle function arguments
    refine ⟨fun r s' r' u' hp hq hr hr' => ?_, fun log r s' h => alike.concludes h, fun log r' u' h => alike.concluded h⟩
    obtain ⟨log, hp⟩ := (concludes_of_runWithin hp).resolve_right hr
    obtain ⟨log', hq⟩ := (concludes_of_runWithin hq).resolve_right hr'
    obtain ⟨r₂, u₂, hq₂, heven, hreplaces⟩ := alike.concludes hp
    obtain ⟨n, hn⟩ := runWithin_of_concludes hq
    obtain ⟨n₂, hn₂⟩ := runWithin_of_concludes hq₂
    cases (hn (max n n₂) (Nat.le_max_left ..)).symm.trans (hn₂ (max n n₂) (Nat.le_max_right ..))
    exact ⟨heven, hreplaces⟩

end Program

/-- A loop that is entered from two blocks, which bring the same value for one phi and different ones for the
other. -/
def entersTwice : Program :=
  let word (v : String) : Variable := ⟨v, .integer 64⟩
  let a : Argument := ⟨0, "a", .integer 64⟩
  let b : Argument := ⟨1, "b", .integer 64⟩
  .ofFunctions [
    .ofCode "main" [a, b]
      [[.compare ⟨"c", .integer 1⟩ .eq (.ofWord 0 64) (.ofWord 0 64)],
        [],
        [.phi (word "x") [(.argument a, 0), (.argument a, 1), (.variable (word "next"), 2)],
          .phi (word "y") [(.argument b, 0), (.ofWord 0 64, 1), (.variable (word "y"), 2)],
          .binary (word "next") .add (.variable (word "x")) (.ofWord 1 64),
          .compare ⟨"d", .integer 1⟩ .ult (.variable (word "next")) (.ofWord 3 64)],
        [.ret (some (.variable (word "y")))]]
      ([(0, 2, some (.isTrue (.variable ⟨"c", .integer 1⟩))), (0, 1, some (.isFalse (.variable ⟨"c", .integer 1⟩))),
        (1, 2, none), (2, 2, some (.isTrue (.variable ⟨"d", .integer 1⟩))),
        (2, 3, some (.isFalse (.variable ⟨"d", .integer 1⟩)))])]

theorem made_entersTwice : entersTwice.Made := Program.made_of_ofFunctions fun f hf => by
  cases List.mem_singleton.mp hf
  exact Function.made_of_ofCode

def Program.simplified? (p : Program) : Option Program :=
  (p.editFunctions fun f => if true then f.simplifyLoops else pure (0, f)).toOption.map (·.2)

/-- How a call of `main` ends on a fresh machine. -/
def Program.answer? (p : Program) (arguments : List Word) : Option (Outcome (Option Word)) :=
  (Machine.ofProgram p .keyed).toOption.map fun m =>
    ((Processor.run ⟨p, .default, Processor.defaultStepLimit⟩ "main" arguments).runFrom (.ofMachine m)).1

theorem Program.exists_run_of_answer? {p : Program} {arguments : List Word} {r : Outcome (Option Word)}
    (h : p.answer? arguments = some r) : ∃ m s, Machine.ofProgram p .keyed = .ok m ∧
      (Processor.run ⟨p, .default, Processor.defaultStepLimit⟩ "main" arguments).runFrom (.ofMachine m) = (r, s) := by
  obtain ⟨m, hm, hrun⟩ := Option.map_eq_some_iff.mp h
  exact ⟨m, _, toOption_eq_some.mp hm, Prod.ext hrun rfl⟩

theorem Program.simplified_of_simplified? {p q : Program} (h : p.simplified? = some q) : p.Simplified (fun _ => true) q := by
  obtain ⟨⟨counts, _⟩, hedit, rfl⟩ := Option.map_eq_some_iff.mp h
  exact ⟨counts, toOption_eq_some.mp hedit⟩

/-- With and without a preheader, in which the values for one phi meet, three rounds of a loop end alike. -/
theorem runs_of_simplified_three_rounds :
    ∃ q m s' u', entersTwice.Made ∧ entersTwice.verify = .ok () ∧
      (∀ f ∈ entersTwice.functions.values, ∀ body ∈ f.body, body.Instrumentable) ∧
      entersTwice.Simplified (fun _ => true) q ∧ Machine.ofProgram entersTwice .keyed = .ok m ∧
      Machine.ofProgram q .keyed = .ok m ∧
      (Processor.run ⟨entersTwice, .default, Processor.defaultStepLimit⟩ "main" [0, 7]).runFrom (.ofMachine m) =
        (.ok (some 7), s') ∧
      (Processor.run ⟨q, .default, Processor.defaultStepLimit⟩ "main" [0, 7]).runFrom (.ofMachine m) =
        (.ok (some 7), u') ∧
      s'.Even u' := by
  have made := made_entersTwice
  have verified : entersTwice.verify = .ok () := by decide +kernel
  have instrumentable := Program.instrumentable_of_isInstrumentable made (by decide +kernel)
  have hall : entersTwice.simplified?.any fun q => q.answer? [0, 7] = some (.ok (some 7)) := by decide +kernel
  have hbare : entersTwice.answer? [0, 7] = some (.ok (some 7)) := by decide +kernel
  obtain ⟨q, hq, hanswer⟩ := (Option.any_eq_true ..).mp hall
  obtain ⟨m, s', hm, hrun⟩ := Program.exists_run_of_answer? hbare
  obtain ⟨m', u', hm', hrun'⟩ := Program.exists_run_of_answer? (of_decide_eq_true hanswer)
  have simplified := Program.simplified_of_simplified? hq
  obtain ⟨machines, runs⟩ := Program.runs_of_simplified made verified instrumentable simplified
  cases ((machines .keyed).trans hm).symm.trans hm'
  obtain ⟨heven, -⟩ :=
    (runs .default Processor.defaultStepLimit "main" [0, 7] (.ofMachine m) rfl).1 _ _ _ _ hrun hrun' nofun nofun
  exact ⟨q, m, s', u', made, verified, instrumentable, simplified, hm, hm', hrun, hrun', heven⟩

/-- Without its arguments the loop is not entered: its header misses the value for its first phi, a preheader the one
for its second phi. -/
theorem missed_value_depends_on_preheader :
    entersTwice.Made ∧ (∀ f ∈ entersTwice.functions.values, ∀ body ∈ f.body, body.Instrumentable) ∧
      (∀ f ∈ entersTwice.functions.values, (WrittenNames.written f).Nodup) ∧ entersTwice.verify = .ok () ∧
      ∃ q, entersTwice.Simplified (fun _ => true) q ∧
        entersTwice.answer? [] = some (.error (.error (.execution (.missingArgument ⟨0, "a", .integer 64⟩)))) ∧
        q.answer? [] = some (.error (.error (.execution (.missingArgument ⟨1, "b", .integer 64⟩)))) := by
  have hall : entersTwice.simplified?.any fun q =>
      q.answer? [] = some (.error (.error (.execution (.missingArgument ⟨1, "b", .integer 64⟩)))) := by
    decide +kernel
  obtain ⟨q, hq, hanswer⟩ := (Option.any_eq_true ..).mp hall
  exact ⟨made_entersTwice, Program.instrumentable_of_isInstrumentable made_entersTwice (by decide +kernel),
    by decide +kernel, by decide +kernel, q, Program.simplified_of_simplified? hq, by decide +kernel,
    of_decide_eq_true hanswer⟩

end RegionGuard

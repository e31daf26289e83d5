import RegionGuard.Proofs.OverlaidCalls
import RegionGuard.Proofs.Sparing
set_option autoImplicit false

namespace RegionGuard

open Stateful

/-- Two tasks alike but for the program, of which the second one overlays the first. -/
structure Task.Underlies (h : Hooks) (t₀ t₁ : Task) : Prop where
  configuration : t₀.configuration = t₁.configuration
  hooks : t₁.configuration.hooks = h
  limit : t₀.stepLimit = t₁.stepLimit
  functions : t₀.program.Overlays h t₁.program

namespace Machine

theorem entryPoints_names (h : Hooks) (argument : Nat → Stateful Monitor Word) :
    (entryPoints h argument).map (·.1) = h.names := rfl

theorem builtin?_of_name {c : Configuration} {name : String} (hname : name ∈ c.hooks.names) (arguments : List Word) :
    ∃ e, (name, e) ∈ entryPoints c.hooks (argument name arguments) ∧
      builtin? c name arguments = some (do
        onMonitor e
        return none) := by
  rw [← entryPoints_names c.hooks (argument name arguments)] at hname
  unfold builtin?
  cases hlookup : (entryPoints c.hooks (argument name arguments)).lookup name with
  | none =>
    obtain ⟨x, hx, rfl⟩ := List.mem_map.mp hname
    have := List.lookup_eq_none_iff.mp hlookup x hx
    simp at this
  | some e =>
    obtain ⟨l₁, l₂, hl, -⟩ := List.lookup_eq_some_iff.mp hlookup
    refine ⟨e, ?_, rfl⟩
    rw [hl]
    exact List.mem_append_right _ List.mem_cons_self

end Machine

/-- A call that agrees with another one still does when that has run extra code. -/
theorem Activation.Agrees.withExtra {h : Hooks} {n : Nat} {a b : Activation} (hab : a.Agrees n b) {o : Operation}
    (ho : o.IsExtra h n) {scalars : Table String Constant} {rest : List Instruction}
    (hscalars : ∀ x : Variable, (∀ dst, o.computes? = some dst → x.name ≠ dst.name) →
      scalars.get? x.name = b.scalars.get? x.name) :
    a.Agrees n (({ b with remaining := rest } : Activation).withScalars scalars) where
  arguments := hab.arguments
  stackPointer := hab.stackPointer
  receiver := hab.receiver
  scalars x hx := by
    refine (hab.scalars x hx).trans (hscalars x fun dst hdst hname => ?_).symm
    rcases ho with ⟨dst', hdst', hup⟩ | ⟨name, -, arguments, rfl⟩
    · cases hdst.symm.trans hdst'
      obtain ⟨k, hk, hdst⟩ := hup
      exact hx ⟨k, hk, hname.trans hdst⟩
    · cases hdst

namespace Processor

variable {h : Hooks} {t₀ t₁ : Task} {s s' u u' : Processor} {a b : Activation} {callers others : List Activation}
  {progress : Progress}

/-- Two calls of overlaid functions at the same place. -/
def At (h : Hooks) (a b : Activation) : Prop := ∃ r, Activation.Together h r a b

def CallsEntryPoint (h : Hooks) (s : Processor) : Prop :=
  ∃ a callers i rest dst target arguments name, s.calls = a :: callers ∧ a.remaining = i :: rest ∧
    i.operation = .call dst target arguments ∧ callee s.machine a target = .ok name ∧ name ∈ h.names

theorem At.assign (a b : Activation) (dst : Variable) (c : Constant) (hab : At h a b) :
    At h (a.assign dst c) (b.assign dst c) := by
  obtain ⟨r, hab⟩ := hab
  exact ⟨r, ⟨hab.carries, hab.plain, hab.agrees.assign dst c⟩, hab.block, hab.known, hab.woven⟩

theorem ok_of_matches {R : Machine → Machine → Prop} {L : Activation → Activation → Prop}
    {x y : Outcome Progress × Processor} (hxy : Matches (Same R L) x y) (hy : y = (.ok progress, u')) :
    ∃ s', x = (.ok progress, s') ∧ Paired R L s' u' := by
  subst hy
  obtain ⟨x, s'⟩ := x
  cases x with
  | error e => exact hxy.elim
  | ok p =>
    obtain ⟨rfl, hpaired⟩ := hxy
    exact ⟨s', rfl, hpaired⟩

section Calls

variable {f g : Function} {constants : List Constant} {receiver : Receiver}

/-- An entry point fails, or leaves the storage alone and answers nothing. -/
theorem entryPoint_runFrom {β : Type} {name : String} {arguments : List Word} {e : Stateful Monitor Unit}
    (he : (name, e) ∈ Machine.entryPoints h (Machine.argument name arguments)) (s : Processor)
    (k : Option Word → Stateful Processor β) :
    (∃ m, s.machine.SameStorage m ∧
      (onMachine (do
        Machine.onMonitor e
        return none) >>= k).runFrom s = (k none).runFrom { s with machine := m }) ∨
    ∃ failure, ((onMachine (do
        Machine.onMonitor e
        return none) >>= k).runFrom s).1 = .error failure := by
  have hsame := Machine.sameStorage_of_entryPoint he s.machine
  rw [runFrom_bind, onMachine_runFrom, runFrom_bind]
  generalize (Machine.onMonitor e).runFrom s.machine = x at hsame ⊢
  obtain ⟨x, m⟩ := x
  cases x with
  | error failure => exact .inr ⟨failure, rfl⟩
  | ok _ => exact .inl ⟨m, hsame, rfl⟩

theorem enter_under (hfg : f.Overlays h g) (beside : Beside Machine.SameStorage s u)
    (hcalls : List.Forall₂ (At h) s.calls u.calls) (hu : (enter g constants receiver).runFrom u = (.ok (), u')) :
    ∃ s', (enter f constants receiver).runFrom s = (.ok (), s') ∧ Paired Machine.SameStorage (At h) s' u' := by
  have hdepth : ¬ maxDepth ≤ s.calls.length := by
    rw [hcalls.length_eq]
    unfold enter at hu
    rw [runFrom_get_bind] at hu
    split at hu
    · cases hu
    · assumption
  obtain ⟨body', entry, b, hbody', hentry, hb, rfl⟩ := enter_ok hu
  rcases hfg.bodies with ⟨-, hnone⟩ | ⟨body, _, hbody, hsome, plain, r, hcarries⟩
  · rw [hbody'] at hnone
    cases hnone
  cases hbody'.symm.trans hsome
  have hentry₀ : body.entry = some entry := hcarries.entry.symm.trans hentry
  have hab : Activation.Overlaid h r ⟨body, entry, [], ∅, constants, s.stackPointer, receiver⟩
      ⟨body', entry, [], ∅, constants, u.stackPointer, receiver⟩ :=
    ⟨hcarries, plain, rfl, beside.stackPointer, rfl, fun _ _ => rfl⟩
  obtain ⟨a, ha, htogether⟩ := hab.starts (M := s.machine) hentry₀ hb
  refine ⟨{ s with calls := a :: s.calls }, ?_, ⟨⟨beside.machine, beside.stackPointer⟩, .cons ⟨r, htogether⟩ hcalls⟩⟩
  unfold enter
  rw [runFrom_get_bind, if_neg hdepth]
  refine lift_bind_ok.mpr ⟨body, orRaise_eq_ok.mpr hbody, lift_bind_ok.mpr ⟨entry, orRaise_eq_ok.mpr hentry₀, ?_⟩⟩
  exact lift_bind_ok.mpr ⟨a, ha, rfl⟩

/-- What both call is the same, unless it is an entry point that fails in the first. -/
theorem dispatch_under (under : t₀.Underlies h t₁) (beside : Beside Machine.SameStorage s u) (hab : At h a b)
    (hcallers : List.Forall₂ (At h) callers others) {dst : Option Variable} {name : String}
    (hu : (dispatch t₁ b others dst name constants).runFrom u = (.ok progress, u')) :
    (∃ s', (dispatch t₀ a callers dst name constants).runFrom s = (.ok progress, s') ∧
      Paired Machine.SameStorage (At h) s' u') ∨
    name ∈ h.names ∧ ∃ e, ((dispatch t₀ a callers dst name constants).runFrom s).1 = .error e := by
  have hdeliver : ∀ result s' u', Beside Machine.SameStorage s' u' →
      Matches (Same Machine.SameStorage (At h)) ((deliver dst result (a :: callers)).runFrom s')
        ((deliver dst result (b :: others)).runFrom u') := fun result s' u' hbeside =>
    matches_deliver At.assign hbeside hab hcallers dst result
  unfold dispatch at hu ⊢
  rw [under.configuration]
  cases hx : Machine.builtin? t₁.configuration name (constants.map Constant.value) with
  | some x =>
    rw [hx] at hu
    simp only at hu ⊢
    rcases Machine.stores_sameStorage.builtin?_respects hx with hrespects | ⟨e, he, rfl⟩
    · exact .inl (ok_of_matches (matches_onMachine hrespects beside fun y s' u' hbeside => hdeliver y s' u' hbeside) hu)
    · -- An entry point leaves the storage alone, here and there.
      have hname : name ∈ h.names := by
        rw [← under.hooks, ← Machine.entryPoints_names]
        exact List.mem_map.mpr ⟨_, he, rfl⟩
      rcases entryPoint_runFrom he s fun result => deliver dst result (a :: callers) with ⟨m, hm, hs⟩ | hfails
      · rcases entryPoint_runFrom he u fun result => deliver dst result (b :: others) with ⟨n, hn, hu'⟩ | ⟨failure, hfails⟩
        · have hbeside : Beside Machine.SameStorage { s with machine := m } { u with machine := n } :=
            ⟨hm.symm.trans (beside.machine.trans hn), beside.stackPointer⟩
          obtain ⟨s', hs', hpaired⟩ := ok_of_matches (hdeliver none _ _ hbeside) (hu'.symm.trans hu)
          exact .inl ⟨s', hs.trans hs', hpaired⟩
        · rw [hu] at hfails
          cases hfails
      · exact .inr ⟨hname, hfails⟩
  | none =>
    rw [hx] at hu
    simp only at hu ⊢
    have hfunctions := under.functions.functions name
    obtain ⟨g, hg, hu⟩ := lift_bind_ok.mp hu
    rw [orRaise_eq_ok.mp hg] at hfunctions
    generalize hf : t₀.program.function? name = f at hfunctions
    cases hfunctions with
    | @some f _ hfg =>
      have hdeclared : f.isDeclaration = g.isDeclaration := by
        unfold Function.isDeclaration
        rcases hfg.bodies with ⟨hf, hg⟩ | ⟨_, _, hf, hg, -⟩
        · rw [hf, hg]
        · rw [hf, hg]
          rfl
      have hfound : t₀.program.function name = .ok f := orRaise_eq_ok.mpr hf
      rw [hfound]
      change (∃ s', runFrom (if f.isDeclaration then _ else _) s = _ ∧ _) ∨ _
      rw [hdeclared]
      refine .inl ?_
      cases hdeclaration : g.isDeclaration with
      | true =>
        rw [hdeclaration, if_pos rfl] at hu
        exact ok_of_matches (hdeliver none s u beside) hu
      | false =>
        rw [hdeclaration, if_neg Bool.false_ne_true] at hu
        rw [if_neg Bool.false_ne_true]
        obtain ⟨p, u₁, hresume, hu⟩ := runFrom_bind_ok.mp hu
        cases hresume
        obtain ⟨_, u₂, henter, hu⟩ := runFrom_bind_ok.mp hu
        cases hu
        obtain ⟨s', hs', hpaired⟩ := enter_under (s := { s with calls := a :: callers })
          (u := { u with calls := b :: others }) hfg ⟨beside.machine, beside.stackPointer⟩ (.cons hab hcallers) henter
        refine ⟨s', ?_, hpaired⟩
        refine runFrom_bind_ok.mpr ⟨.running, _, rfl, runFrom_bind_ok.mpr ⟨(), s', hs', rfl⟩⟩

/-- What both execute does the same, unless it calls an entry point that fails in the first. -/
theorem execute_under (under : t₀.Underlies h t₁) (beside : Beside Machine.SameStorage s u) (hab : At h a b)
    (hcallers : List.Forall₂ (At h) callers others) {n : Nat} (agrees : a.Agrees n b) {o : Operation} (ho : o.Avoids n)
    (hu : (execute t₁ b others o).runFrom u = (.ok progress, u')) :
    (∃ s', (execute t₀ a callers o).runFrom s = (.ok progress, s') ∧ Paired Machine.SameStorage (At h) s' u') ∨
      (∃ dst target arguments name, o = .call dst target arguments ∧ callee s.machine a target = .ok name ∧
        name ∈ h.names) ∧ ∃ e, ((execute t₀ a callers o).runFrom s).1 = .error e := by
  cases hcall : o with
  | call dst target arguments =>
    rw [hcall] at ho hu
    change (call t₁ b others dst target arguments).runFrom u = _ at hu
    change (∃ s', (call t₀ a callers dst target arguments).runFrom s = _ ∧ _) ∨
      _ ∧ ∃ e, ((call t₀ a callers dst target arguments).runFrom s).1 = _
    rw [call_runFrom, called_congr beside.machine.image agrees ho]
    rw [call_runFrom] at hu
    cases hcalled : called u.machine b target arguments with
    | error e =>
      rw [hcalled] at hu
      cases hu
    | ok what =>
      obtain ⟨name, constants⟩ := what
      rw [hcalled] at hu
      refine (dispatch_under under beside hab hcallers hu).imp_right fun ⟨hname, hfails⟩ => ⟨?_, hfails⟩
      have hcalled₀ := (called_congr beside.machine.image agrees ho).trans hcalled
      obtain ⟨_, -, hcalled₀⟩ := bind_eq_ok.mp hcalled₀
      obtain ⟨name', hcallee, hcalled₀⟩ := bind_eq_ok.mp hcalled₀
      cases hcalled₀
      exact ⟨dst, target, arguments, _, rfl, hcallee, hname⟩
  | _ =>
    rw [← hcall]
    exact .inl (ok_of_matches (execute_matches Machine.stores_sameStorage At.assign beside hcallers agrees t₀ t₁ ho
      (by simp [hcall]) (fun _ => hab) fun dst c _ => At.assign a b dst c hab) hu)

theorem execute_extra (hooks : t₁.configuration.hooks = h) {n : Nat} {o : Operation} (ho : o.IsExtra h n)
    (hu : (execute t₁ b others o).runFrom u = (.ok progress, u')) :
    progress = .running ∧ u.machine.SameStorage u'.machine ∧ u'.stackPointer = u.stackPointer ∧
      ∃ scalars, u'.calls = b.withScalars scalars :: others ∧
        ∀ x : Variable, (∀ dst, o.computes? = some dst → x.name ≠ dst.name) →
          scalars.get? x.name = b.scalars.get? x.name := by
  rcases ho with ⟨dst, hdst, -⟩ | ⟨name, hname, arguments, rfl⟩
  · obtain ⟨x, -, hrun⟩ := execute_computes t₁ u b others hdst
    rw [hrun] at hu
    cases x with
    | error e => cases hu
    | ok c =>
      cases hu
      refine ⟨rfl, .refl _, rfl, b.scalars.insert dst.name c, rfl, fun x hx => ?_⟩
      rw [Table.get?_insert, if_neg (hx dst hdst)]
  · change (call t₁ b others none (.direct name) arguments).runFrom u = _ at hu
    rw [call_runFrom] at hu
    cases hcalled : called u.machine b (.direct name) arguments with
    | error e =>
      rw [hcalled] at hu
      cases hu
    | ok what =>
      rw [hcalled] at hu
      obtain ⟨constants, -, hwhat⟩ := bind_eq_ok.mp hcalled
      cases hwhat
      obtain ⟨e, he, hbuiltin⟩ := Machine.builtin?_of_name (hooks ▸ hname) (constants.map Constant.value)
      unfold dispatch at hu
      simp only [hbuiltin] at hu
      rcases entryPoint_runFrom he u fun result => deliver none result (b :: others) with ⟨m, hm, hs⟩ | ⟨failure, hfails⟩
      · cases hs.symm.trans hu
        exact ⟨rfl, hm, rfl, b.scalars, rfl, fun _ _ => rfl⟩
      · rw [hu] at hfails
        cases hfails

end Calls

/-- Two processors of which the second one has executed all that the first one has, and extra code. It may be on
its way to where the first one goes next. -/
structure Covers (h : Hooks) (s u : Processor) : Prop extends Beside Machine.SameStorage s u where
  steps : s.steps ≤ u.steps
  calls : List.Forall₂ (At h) s.calls u.calls ∨ ∃ a callers b others r t vs, s.calls = a :: callers ∧
    u.calls = b :: others ∧ List.Forall₂ (At h) callers others ∧ Activation.Ahead h r s.machine t vs a b

/-- What a step of the second of two processors means for the first one: nothing, the same step, or a failure
where it calls an entry point. -/
inductive Answers (h : Hooks) (t : Task) (s : Processor) (progress : Progress) (u' : Processor) : Prop where
  | stays (running : progress = .running) (covers : Covers h s u')
  | steps {s' : Processor} (step : (step t).runFrom s = (.ok progress, s')) (covers : Covers h s' u')
  | fails {e : Failure} (calls : CallsEntryPoint h s) (step : ((step t).runFrom s).1 = .error e)

theorem execute_of_step {t : Task} {i : Instruction} {rest : List Instruction} (hcalls : u.calls = b :: others)
    (hrem : b.remaining = i :: rest) (hstep : (step t).runFrom u = (.ok progress, u')) :
    u.steps + 1 ≤ t.stepLimit.toNat ∧
      (execute t { b with remaining := rest } others i.operation).runFrom u.countOne = (.ok progress, u') ∧
      u'.steps = u.steps + 1 := by
  rw [step_instruction hcalls hrem] at hstep
  split at hstep
  · cases hstep
  · refine ⟨by omega, hstep, ?_⟩
    have hkeeps := execute_keeps t { b with remaining := rest } others i.operation u.countOne
    rw [hstep] at hkeeps
    exact hkeeps

theorem step_extra (under : t₀.Underlies h t₁) {j : Instruction} {rest : List Instruction} {n : Nat}
    (beside : Beside Machine.SameStorage s u) (steps : s.steps ≤ u.steps) (hcalls : u.calls = b :: others)
    (hrem : b.remaining = j :: rest) (hj : j.operation.IsExtra h n)
    (hstep : (step t₁).runFrom u = (.ok progress, u')) :
    progress = .running ∧ Beside Machine.SameStorage s u' ∧ s.steps ≤ u'.steps ∧
      ∃ scalars, u'.calls = ({ b with remaining := rest } : Activation).withScalars scalars :: others ∧
        ∀ x : Variable, (∀ dst, j.operation.computes? = some dst → x.name ≠ dst.name) →
          scalars.get? x.name = b.scalars.get? x.name := by
  obtain ⟨-, hexecute, hcount⟩ := execute_of_step hcalls hrem hstep
  obtain ⟨hrunning, hmachine, hstack, scalars, hcalls', hscalars⟩ := execute_extra under.hooks hj hexecute
  refine ⟨hrunning, ⟨beside.machine.trans hmachine, beside.stackPointer.trans hstack.symm⟩, by omega, scalars, hcalls', ?_⟩
  exact hscalars

theorem step_both (under : t₀.Underlies h t₁) (beside : Beside Machine.SameStorage s u) (steps : s.steps ≤ u.steps)
    {i : Instruction} {rest rest' : List Instruction} (hs : s.calls = a :: callers)
    (ha : a.remaining = i :: rest) (hab : At h { a with remaining := rest } { b with remaining := rest' })
    (hcallers : List.Forall₂ (At h) callers others) {n : Nat} (agrees : a.Agrees n b) (avoids : i.operation.Avoids n)
    (limit : u.steps + 1 ≤ t₁.stepLimit.toNat) (hcount : u'.steps = u.steps + 1)
    (hexecute : (execute t₁ { b with remaining := rest' } others i.operation).runFrom u.countOne = (.ok progress, u')) :
    Answers h t₀ s progress u' := by
  have hstep : (step t₀).runFrom s = (execute t₀ { a with remaining := rest } callers i.operation).runFrom s.countOne := by
    rw [step_instruction hs ha, if_neg]
    rw [under.limit]
    omega
  have hbeside : Beside Machine.SameStorage s.countOne u.countOne := ⟨beside.machine, beside.stackPointer⟩
  have hagrees : Activation.Agrees n { a with remaining := rest } { b with remaining := rest' } :=
    ⟨agrees.arguments, agrees.stackPointer, agrees.receiver, agrees.scalars⟩
  rcases execute_under under hbeside hab hcallers hagrees avoids hexecute with ⟨s', hs', hpaired⟩ | ⟨hcall, e, he⟩
  · refine .steps (hstep.trans hs') ⟨hpaired.toBeside, ?_, .inl hpaired.calls⟩
    have hkeeps := execute_keeps t₀ { a with remaining := rest } callers i.operation s.countOne
    rw [hs'] at hkeeps
    change s'.steps = s.steps + 1 at hkeeps
    omega
  · obtain ⟨dst, target, arguments, name, ho, hcallee, hname⟩ := hcall
    refine .fails ⟨a, callers, i, rest, dst, target, arguments, name, hs, ha, ho, ?_, hname⟩ (by rw [hstep]; exact he)
    exact hcallee

/-- What the end of a block of the second function means for the first processor. -/
theorem step_proceeds {r : Routes} (beside : Beside Machine.SameStorage s u) (steps : s.steps ≤ u.steps)
    (hs : s.calls = a :: callers) (hu : u.calls = b :: others) (ha : a.remaining = []) (hb : b.remaining = [])
    (hcallers : List.Forall₂ (At h) callers others)
    (proceeds : ∀ b', b.nextBlock u.machine = .ok b' → Activation.Proceeds h r s.machine a b')
    (hstep : (step t₁).runFrom u = (.ok progress, u')) : Answers h t₀ s progress u' := by
  rw [step_blockEnd hu hb] at hstep
  cases hb' : b.nextBlock u.machine with
  | error e =>
    rw [hb'] at hstep
    cases hstep
  | ok b' =>
    rw [hb'] at hstep
    cases hstep
    rcases proceeds b' hb' with ⟨a', ha', htogether⟩ | ⟨t, vs, hahead⟩
    · have hs' : (step t₀).runFrom s = (.ok .running, { s with calls := a' :: callers }) := by
        rw [step_blockEnd hs ha, ha']
      exact .steps hs' ⟨⟨beside.machine, beside.stackPointer⟩, steps, .inl (.cons ⟨r, htogether⟩ hcallers)⟩
    · exact .stays rfl ⟨⟨beside.machine, beside.stackPointer⟩, steps,
        .inr ⟨a, callers, b', others, r, t, vs, hs, rfl, hcallers, hahead⟩⟩

/-- Where both are at the same place, a step of the second is one of the first, or is extra. -/
theorem step_together (under : t₀.Underlies h t₁) {r : Routes} (beside : Beside Machine.SameStorage s u)
    (steps : s.steps ≤ u.steps) (hs : s.calls = a :: callers) (hu : u.calls = b :: others)
    (hcallers : List.Forall₂ (At h) callers others) (hab : Activation.Together h r a b)
    (hstep : (step t₁).runFrom u = (.ok progress, u')) : Answers h t₀ s progress u' := by
  have hwoven := hab.woven
  generalize ha : a.remaining = is at hwoven
  generalize hb : b.remaining = js at hwoven
  cases hwoven with
  | nil =>
    exact step_proceeds beside steps hs hu ha hb hcallers
      (fun b' hb' => hab.proceeds beside.machine.image hb hb') hstep
  | @both i j is js same avoids rest =>
    obtain ⟨limit, hexecute, hcount⟩ := execute_of_step hu hb hstep
    rcases same with same | hphi
    · rw [same] at hexecute
      refine step_both under beside steps hs ha ⟨r, ?_⟩ hcallers hab.agrees avoids limit hcount hexecute
      exact ⟨⟨hab.carries, hab.plain, hab.agrees.arguments, hab.agrees.stackPointer, hab.agrees.receiver,
        hab.agrees.scalars⟩, hab.block, hab.known, rest⟩
    · obtain ⟨dst, incoming, ho⟩ := Activation.exists_phi hphi
      rw [ho] at hexecute
      cases hexecute
  | @extra j _ js right rest =>
    obtain ⟨hrunning, hbeside, hsteps, scalars, hcalls, hscalars⟩ := step_extra under beside steps hu hb right hstep
    refine .stays hrunning ⟨hbeside, hsteps, .inl ?_⟩
    rw [hs, hcalls]
    refine .cons ⟨r, ⟨hab.carries, hab.plain, hab.agrees.withExtra right hscalars⟩, hab.block, hab.known, ?_⟩ hcallers
    exact ha ▸ rest

/-- On its way, no step of the second is one of the first until it gets there. -/
theorem step_ahead (under : t₀.Underlies h t₁) {r : Routes} {t : Nat} {vs : List Value}
    (beside : Beside Machine.SameStorage s u) (steps : s.steps ≤ u.steps) (hs : s.calls = a :: callers)
    (hu : u.calls = b :: others) (hcallers : List.Forall₂ (At h) callers others)
    (hab : Activation.Ahead h r s.machine t vs a b) (hstep : (step t₁).runFrom u = (.ok progress, u')) :
    Answers h t₀ s progress u' := by
  cases hb : b.remaining with
  | nil =>
    exact step_proceeds beside steps hs hu hab.ended hb hcallers
      (fun b' hb' => hab.proceeds beside.machine.image hb') hstep
  | cons j rest =>
    have hj : j ∈ b.remaining := hb ▸ List.mem_cons_self
    obtain ⟨hrunning, hbeside, hsteps, scalars, hcalls, hscalars⟩ :=
      step_extra under beside steps hu hb (hab.extra j hj) hstep
    refine .stays hrunning ⟨hbeside, hsteps, .inr ⟨a, callers, _, others, r, t, vs, hs, hcalls, hcallers, ?_⟩⟩
    refine ⟨⟨hab.carries, hab.plain, hab.agrees.withExtra (hab.extra j hj) hscalars⟩, hab.ended, hab.old, hab.next,
      hab.toward, hab.offers, ?_, fun z hz => hab.extra z (hb ▸ List.mem_cons_of_mem j hz),
      fun z hz => hab.spares z (hb ▸ List.mem_cons_of_mem j hz)⟩
    have hbrings : ∀ w ∈ r.brings b.block,
        (({ b with remaining := rest } : Activation).withScalars scalars).value s.machine w = b.value s.machine w := by
      intro w hw
      refine Activation.value_congr (a := b) (fun x hx => hscalars x fun dst hdst => ?_) rfl
      exact hab.spares j hj dst hdst x (hx ▸ hw)
    have hsame : List.Forall₂ (fun w w' => (({ b with remaining := rest } : Activation).withScalars scalars).value
        s.machine w' = b.value s.machine w) (r.brings b.block) (r.brings b.block) := List.forall₂_same.mpr hbrings
    exact forall₂_of_common hab.brought.flip hsame fun w _ v w' hvw hw' => hvw.trans hw'.symm

theorem step_covers (under : t₀.Underlies h t₁) (hsu : Covers h s u) (hstep : (step t₁).runFrom u = (.ok progress, u')) :
    Answers h t₀ s progress u' := by
  rcases hsu.calls with hcalls | ⟨a, callers, b, others, r, t, vs, hs, hu, hcallers, hahead⟩
  · generalize hs : s.calls = cs at hcalls
    generalize hu : u.calls = ds at hcalls
    cases hcalls with
    | nil =>
      have hdone : ∀ {t : Task} {s : Processor}, s.calls = [] → (step t).runFrom s = (.ok (.finished none), s) := by
        intro t s hs
        unfold step
        rw [runFrom_get_bind]
        simp only [hs]
        rfl
      cases (hdone hu).symm.trans hstep
      exact .steps (hdone hs) hsu
    | cons hab hcallers =>
      obtain ⟨r, hab⟩ := hab
      exact step_together under hsu.toBeside hsu.steps hs hu hcallers hab hstep
  · exact step_ahead under hsu.toBeside hsu.steps hs hu hcallers hahead hstep

/-- When the second of two processors comes to a result, so does the first one, with the same storage, or it
fails where it calls an entry point. -/
theorem proceed_under (under : t₀.Underlies h t₁) {n m : Nat} (hsu : Covers h s u) {result : Option Constant}
    (hu : (proceed t₁ n).runFrom u = (.ok result, u')) (hnm : n ≤ m) :
    (∃ s', (proceed t₀ m).runFrom s = (.ok result, s') ∧ s'.machine.SameStorage u'.machine) ∨
      ∃ e, ((proceed t₀ m).runFrom s).1 = .error e ∧ StopsAt t₀ (CallsEntryPoint h) s e := by
  induction n generalizing m s u with
  | zero => cases hu
  | succ n ih =>
    obtain ⟨m, rfl⟩ : ∃ k, m = k + 1 := ⟨m - 1, by omega⟩
    have hnm : n ≤ m := by omega
    rw [proceed_succ] at hu
    match hstep : (step t₁).runFrom u with
    | (.error e, u₁) =>
      rw [hstep] at hu
      cases hu
    | (.ok .running, u₁) =>
      rw [hstep] at hu
      cases step_covers under hsu hstep with
      | stays _ covers => exact ih covers hu (by omega)
      | fails calls he =>
        refine .inr ⟨_, ?_, s, .refl t₀ s, calls, he⟩
        rw [proceed_succ]
        generalize (step t₀).runFrom s = x at he
        obtain ⟨x, s'⟩ := x
        cases he
        rfl
      | @steps s₁ step covers =>
        rw [proceed_succ, step]
        refine (ih covers hu hnm).imp_right ?_
        rintro ⟨e, he, hstops⟩
        exact ⟨e, he, hstops.step step⟩
    | (.ok (.finished found), u₁) =>
      rw [hstep] at hu
      cases hu
      cases step_covers under hsu hstep with
      | stays running => cases running
      | fails calls he =>
        refine .inr ⟨_, ?_, s, .refl t₀ s, calls, he⟩
        rw [proceed_succ]
        generalize (step t₀).runFrom s = x at he
        obtain ⟨x, s'⟩ := x
        cases he
        rfl
      | @steps s₁ step covers =>
        rw [proceed_succ, step]
        exact .inl ⟨s₁, rfl, covers.machine⟩

end Processor

end RegionGuard

import RegionGuard.Proofs.RelayedOperations
set_option autoImplicit false

/-!
# Runs of relayed programs

Step by step a program runs beside another one whose functions have stops on some ways. Both ask the same of the
machine and end alike, with the same machine and after as many steps; only a run that fails because values which
the phis of the next block take are not to be had may fail over another of these.
-/

namespace RegionGuard

open Stateful

/-- Two versions of a function, the second one with stops on some ways. -/
structure Function.Relays (f g : Function) : Prop where
  name : g.name = f.name
  arguments : g.arguments = f.arguments
  bodies : f.body = none ∧ g.body = none ∨ ∃ c c', f.body = some c ∧ g.body = some c' ∧ c.Linked c'

def Program.Relays (p q : Program) : Prop := ∀ name, Option.Rel Function.Relays (p.function? name) (q.function? name)

structure Task.Relays (t t' : Task) : Prop where
  program : t.program.Relays t'.program
  configuration : t'.configuration = t.configuration
  limit : t'.stepLimit = t.stepLimit

namespace Processor

variable {t t' : Task} {s s' u u' : Processor} {a b : Activation} {callers others : List Activation}
  {log : List (String × List Word)}

def asks (t : Task) (s : Processor) (a : Activation) : Operation → Option (String × List Word)
  | .call _ target arguments =>
    match called s.machine a target arguments with
    | .ok (name, constants) =>
      if (Machine.builtin? t.configuration name (constants.map Constant.value)).isSome then
        some (name, constants.map Constant.value)
      else none
    | .error _ => none
  | _ => none

/-- What the next step asks of the machine, if it is within the limit. -/
def request? (t : Task) (s : Processor) : Option (String × List Word) :=
  match s.calls with
  | [] => none
  | a :: _ =>
    match a.remaining with
    | [] => none
    | i :: _ => if s.steps < t.stepLimit.toNat then s.asks t a i.operation else none

theorem request?_of_ended (hcalls : s.calls = a :: callers) (hrem : a.remaining = []) : s.request? t = none := by
  unfold request?
  rw [hcalls]
  simp only [hrem]

theorem request?_of_next (hcalls : s.calls = a :: callers) {i : Instruction} {rest : List Instruction}
    (hrem : a.remaining = i :: rest) :
    s.request? t = if s.steps < t.stepLimit.toNat then s.asks t a i.operation else none := by
  unfold request?
  rw [hcalls]
  simp only [hrem]

inductive Yields (t : Task) : Processor → List (String × List Word) → Outcome (Option Constant) → Processor → Prop
  | finishes {s s' : Processor} {result : Option Constant} (step : (step t).runFrom s = (.ok (.finished result), s')) :
      Yields t s (s.request? t).toList (.ok result) s'
  | fails {s s' : Processor} {e : Failure} (step : (step t).runFrom s = (.error e, s')) :
      Yields t s (s.request? t).toList (.error e) s'
  | goesOn {s s₁ s' : Processor} {log : List (String × List Word)} {r : Outcome (Option Constant)}
      (step : (step t).runFrom s = (.ok .running, s₁)) (rest : Yields t s₁ log r s') :
      Yields t s ((s.request? t).toList ++ log) r s'

/-- A value that a phi of the next block takes is not to be had. -/
def Misses (s : Processor) (e : Failure) : Prop :=
  ∃ a callers, s.calls = a :: callers ∧ a.Misses s.machine e

/-- An answer instead of another one: the same, or a failure over another value that the phis of the same block
take. -/
def Stands (t : Task) (s : Processor) (r r' : Outcome (Option Constant)) : Prop :=
  r' = r ∨ ∃ e e', r = .error e ∧ r' = .error e' ∧ StopsAt t (fun v => v.Misses e ∧ v.Misses e') s e

structure Together (s u : Processor) : Prop extends Even s u where
  calls : List.Forall₂ Activation.Alongside s.calls u.calls

structure Expects (s u : Processor) : Prop extends Even s u where
  calls : ∃ x a callers b others, s.calls = a :: callers ∧ u.calls = b :: others ∧
    List.Forall₂ Activation.Alongside callers others ∧ Activation.Waits s.machine x a b

/-- Two processors, the second one at the place of the first one, or at a stop on the way from there. -/
def Accompanies (s u : Processor) : Prop := s.Together u ∨ s.Expects u

inductive Tracks (t t' : Task) (s u : Processor) : Prop
  | goesOn {progress : Progress} {s' u' : Processor} (first : (step t).runFrom s = (.ok progress, s'))
      (second : (step t').runFrom u = (.ok progress, u')) (together : s'.Together u')
  | fails {e : Failure} {s' u' : Processor} (first : (step t).runFrom s = (.error e, s'))
      (second : (step t').runFrom u = (.error e, u')) (even : s'.Even u')
  | misses {e e' : Failure} {s' u' : Processor} (first : (step t).runFrom s = (.error e, s'))
      (second : (step t').runFrom u = (.error e', u')) (even : s'.Even u') (misses : s.Misses e) (misses' : s.Misses e')

section Steps

variable {f g : Function} {constants : List Constant} {receiver : Receiver}

theorem Tracks.of_likewise (h : Likewise Activation.Alongside ((step t).runFrom s) ((step t').runFrom u)) :
    Tracks t t' s u := by
  match hs : (step t).runFrom s, hu : (step t').runFrom u with
  | (.ok p, s'), (o, u') =>
    rw [hs, hu] at h
    cases h.outcome
    exact .goesOn hs hu ⟨h.even, h.calls p rfl⟩
  | (.error e, s'), (o, u') =>
    rw [hs, hu] at h
    cases h.outcome
    exact .fails hs hu h.even

theorem likewise_enter (relays : f.Relays g) (hsu : s.Together u) :
    Likewise Activation.Alongside ((enter f constants receiver).runFrom s) ((enter g constants receiver).runFrom u) := by
  unfold enter
  rw [runFrom_get_bind, runFrom_get_bind, hsu.calls.length_eq, relays.name]
  by_cases hdepth : maxDepth ≤ u.calls.length
  · rw [if_pos hdepth, if_pos hdepth]
    exact likewise_error hsu.toEven _
  · rw [if_neg hdepth, if_neg hdepth]
    rcases relays.bodies with ⟨hf, hg⟩ | ⟨c, c', hf, hg, hlinked⟩
    · rw [show f.flowGraph = g.flowGraph by unfold Function.flowGraph; rw [hf, hg, relays.name],
        show g.flowGraph = .error (.error (.bodyMissing g.name)) by unfold Function.flowGraph; rw [hg]; rfl]
      exact likewise_error hsu.toEven _
    · rw [show f.flowGraph = .ok c by unfold Function.flowGraph; rw [hf]; rfl,
        show g.flowGraph = .ok c' by unfold Function.flowGraph; rw [hg]; rfl]
      obtain ⟨via, hrelays⟩ := id hlinked
      have hentries : c'.entryIndex = c.entryIndex := by unfold FlowGraph.entryIndex; rw [hrelays.entry]
      change Likewise _ (runFrom (liftM c.entryIndex >>= _) s) (runFrom (liftM c'.entryIndex >>= _) u)
      rw [hentries]
      refine likewise_lift hsu.toEven fun entry hentry => ?_
      have halike := Activation.starts_alike (M := s.machine)
        (a := ⟨c, entry, [], ∅, constants, s.stackPointer, receiver⟩)
        (b := ⟨c', entry, [], ∅, constants, u.stackPointer, receiver⟩) hlinked
        ⟨rfl, hsu.stackPointer, rfl, fun _ _ => rfl⟩ (orRaise_eq_ok.mp hentry)
      rw [← hsu.machine]
      rcases halike with ⟨e, ha, hb⟩ | ⟨a, b, ha, hb, halong⟩
      · rw [ha, hb]
        exact likewise_error hsu.toEven e
      · rw [ha, hb]
        exact ⟨rfl, ⟨rfl, hsu.stackPointer, hsu.steps⟩, fun _ _ => .cons halong hsu.calls⟩

theorem likewise_dispatch (relays : t.Relays t') (even : s.Even u) (hab : a.Alongside b)
    (hcallers : List.Forall₂ Activation.Alongside callers others) (dst : Option Variable) (name : String) :
    Likewise Activation.Alongside ((dispatch t a callers dst name constants).runFrom s)
      ((dispatch t' b others dst name constants).runFrom u) := by
  have hdeliver : ∀ result s' u', Even s' u' → Likewise Activation.Alongside
      ((deliver dst result (a :: callers)).runFrom s') ((deliver dst result (b :: others)).runFrom u') :=
    fun result s' u' heven => likewise_deliver (fun _ _ dst c h => h.assign dst c) heven hab hcallers dst result
  unfold dispatch
  rw [relays.configuration]
  cases Machine.builtin? t.configuration name (constants.map Constant.value) with
  | some x => exact likewise_onMachine even fun y s' u' heven _ _ => hdeliver y s' u' heven
  | none =>
    simp only
    have hfunctions := relays.program name
    unfold Program.function
    generalize t.program.function? name = f at hfunctions
    generalize t'.program.function? name = g at hfunctions
    cases hfunctions with
    | none => exact likewise_error even _
    | @some f g hfg =>
      change Likewise _ (runFrom (if f.isDeclaration then _ else _) s) (runFrom (if g.isDeclaration then _ else _) u)
      have hdeclared : f.isDeclaration = g.isDeclaration := by
        unfold Function.isDeclaration
        rcases hfg.bodies with ⟨hf, hg⟩ | ⟨_, _, hf, hg, -⟩
        · rw [hf, hg]
        · rw [hf, hg]
          rfl
      rw [hdeclared]
      cases g.isDeclaration with
      | true => exact hdeliver none s u even
      | false =>
        refine likewise_bind (likewise_resume even (.cons hab hcallers)) fun progress s' u' heven hcalls => ?_
        refine likewise_bind (likewise_enter hfg ⟨heven, hcalls⟩) fun _ s₂ u₂ heven₂ hcalls₂ => ?_
        exact ⟨rfl, heven₂, fun _ _ => hcalls₂⟩

theorem likewise_instruction (relays : t.Relays t') (even : s.Even u) (hab : a.Alongside b)
    (hcallers : List.Forall₂ Activation.Alongside callers others) {n : Nat} (agrees : a.Agrees n b) {o : Operation}
    (ho : o.Avoids n) :
    Likewise Activation.Alongside ((execute t a callers o).runFrom s) ((execute t' b others o).runFrom u) := by
  cases hcall : o with
  | call dst target arguments =>
    rw [hcall] at ho
    change Likewise _ ((call t a callers dst target arguments).runFrom s) ((call t' b others dst target arguments).runFrom u)
    rw [call_runFrom, call_runFrom, called_congr (congrArg Machine.image even.machine) agrees ho]
    cases called u.machine b target arguments with
    | error e => exact likewise_error even e
    | ok what => exact likewise_dispatch relays even hab hcallers dst what.1
  | _ =>
    rw [← hcall]
    exact likewise_execute (fun _ _ dst c h => h.assign dst c) even hab hcallers agrees t t' ho (by simp [hcall])

/-- Two processors together take the same step, or the second one goes to a stop. -/
theorem Together.step (relays : t.Relays t') (hsu : s.Together u) :
    Tracks t t' s u ∨ ∃ u', (step t').runFrom u = (.ok .running, u') ∧ u.request? t' = none ∧ s.Expects u' := by
  have hcalls := hsu.calls
  generalize hs : s.calls = cs at hcalls
  generalize hu : u.calls = ds at hcalls
  cases hcalls with
  | nil =>
    have hdone : ∀ {t : Task} {s : Processor}, s.calls = [] → (Processor.step t).runFrom s = (.ok (.finished none), s) := by
      intro t s hs
      unfold Processor.step
      rw [runFrom_get_bind]
      simp only [hs]
      rfl
    exact .inl (.goesOn (hdone hs) (hdone hu) hsu)
  | @cons a b callers others hab hcallers =>
    have hcode := hab.code
    generalize ha : a.remaining = is at hcode
    generalize hb : b.remaining = js at hcode
    cases is with
    | nil =>
      obtain rfl := List.map_eq_nil_iff.mp hcode
      have hfirst := step_blockEnd (t := t) hs ha
      have hsecond := step_blockEnd (t := t') hu hb
      rw [← hsu.machine] at hsecond
      cases hab.proceeds (M := s.machine) ha with
      | fails first second =>
        rw [first] at hfirst
        rw [second] at hsecond
        exact .inl (.fails hfirst hsecond hsu.toEven)
      | enters first second along =>
        rw [first] at hfirst
        rw [second] at hsecond
        exact .inl (.goesOn hfirst hsecond ⟨⟨rfl, hsu.stackPointer, hsu.steps⟩, .cons along hcallers⟩)
      | misses first second misses misses' =>
        rw [first] at hfirst
        rw [second] at hsecond
        exact .inl (.misses hfirst hsecond hsu.toEven ⟨a, callers, hs, misses⟩ ⟨a, callers, hs, misses'⟩)
      | @waits x b' second waits =>
        rw [second] at hsecond
        exact .inr ⟨_, hsecond, request?_of_ended hu hb, ⟨rfl, hsu.stackPointer, hsu.steps⟩, x, a, callers, b',
          others, hs, rfl, hcallers, waits⟩
    | cons i rest =>
      obtain ⟨j, rest', rfl, ho, hrest⟩ := List.map_eq_cons_iff.mp hcode
      refine .inl (.of_likewise ?_)
      rw [step_instruction hs ha, step_instruction hu hb, relays.limit, hsu.steps, ho]
      split
      · exact likewise_error hsu.toEven.countOne _
      · have hi : i.operation.Avoids a.body.nextTemp := hab.avoids i (ha ▸ List.mem_cons_self)
        have hagrees : Activation.Agrees a.body.nextTemp { a with remaining := rest } { b with remaining := rest' } :=
          ⟨hab.agrees.arguments, hab.agrees.stackPointer, hab.agrees.receiver, hab.agrees.scalars⟩
        have halong : Activation.Alongside { a with remaining := rest } { b with remaining := rest' } :=
          ⟨hab.linked, hagrees, hab.block, hab.known, hrest, fun k hk => hab.avoids k (ha ▸ List.mem_cons_of_mem i hk)⟩
        exact likewise_instruction relays hsu.toEven.countOne halong hcallers hagrees hi

theorem Expects.step (hsu : s.Expects u) : Tracks t t' s u := by
  obtain ⟨x, a, callers, b, others, hs, hu, hcallers, hwaits⟩ := hsu.calls
  have hfirst := step_blockEnd (t := t) hs hwaits.ended
  have hsecond := step_blockEnd (t := t') hu hwaits.ended'
  rw [← hsu.machine] at hsecond
  rcases hwaits.proceeds with ⟨e, ha, hb⟩ | ⟨a', b', ha, hb, halong⟩
  · rw [ha] at hfirst
    rw [hb] at hsecond
    exact .fails hfirst hsecond hsu.toEven
  · rw [ha] at hfirst
    rw [hb] at hsecond
    exact .goesOn hfirst hsecond ⟨⟨rfl, hsu.stackPointer, hsu.steps⟩, .cons halong hcallers⟩

/-- A processor beside another one takes its step, after at most one more. -/
theorem Accompanies.step (relays : t.Relays t') (hsu : s.Accompanies u) :
    Tracks t t' s u ∨ ∃ u', (step t').runFrom u = (.ok .running, u') ∧ u.request? t' = none ∧ s.Expects u' := by
  rcases hsu with hsu | hsu
  · exact hsu.step relays
  · exact .inl hsu.step

theorem Accompanies.request?_eq (relays : t.Relays t') (hsu : s.Accompanies u) : u.request? t' = s.request? t := by
  rcases hsu with hsu | hsu
  · have hcalls := hsu.calls
    generalize hs : s.calls = cs at hcalls
    generalize hu : u.calls = ds at hcalls
    cases hcalls with
    | nil =>
      unfold request?
      rw [hs, hu]
    | @cons a b _ _ hab _ =>
      have hcode := hab.code
      generalize ha : a.remaining = is at hcode
      generalize hb : b.remaining = js at hcode
      cases is with
      | nil =>
        obtain rfl := List.map_eq_nil_iff.mp hcode
        rw [request?_of_ended hs ha, request?_of_ended hu hb]
      | cons i rest =>
        obtain ⟨j, rest', rfl, ho, -⟩ := List.map_eq_cons_iff.mp hcode
        have hi : i.operation.Avoids a.body.nextTemp := hab.avoids i (ha ▸ List.mem_cons_self)
        have hasks : u.asks t' b i.operation = s.asks t a i.operation := by
          cases hop : i.operation with
          | call dst target arguments =>
            rw [hop] at hi
            simp only [asks, relays.configuration, called_congr (congrArg Machine.image hsu.machine) hab.agrees hi]
          | _ => rfl
        rw [request?_of_next hs ha, request?_of_next hu hb, ho, hasks, relays.limit, hsu.steps]
  · obtain ⟨x, a, callers, b, others, hs, hu, -, hwaits⟩ := hsu.calls
    rw [request?_of_ended hs hwaits.ended, request?_of_ended hu hwaits.ended']

theorem Accompanies.misses (hsu : s.Accompanies u) {e : Failure} (h : u.Misses e) : s.Misses e := by
  obtain ⟨b', others', hu', hmisses⟩ := h
  rcases hsu with hsu | hsu
  · have hcalls := hsu.calls
    rw [hu'] at hcalls
    generalize hs : s.calls = cs at hcalls
    cases hcalls with
    | cons hab _ => exact ⟨_, _, hs, hab.misses (hsu.machine ▸ hmisses)⟩
  · obtain ⟨x, a, callers, b, others, hs, hu, -, hwaits⟩ := hsu.calls
    cases hu.symm.trans hu'
    exact ⟨a, callers, hs, hwaits.misses (hsu.machine ▸ hmisses)⟩

end Steps

theorem Stands.step {r r' : Outcome (Option Constant)} (hstep : (step t).runFrom s = (.ok .running, s'))
    (h : Stands t s' r r') : Stands t s r r' := by
  refine h.imp_right ?_
  rintro ⟨e, e', hr, hr', hstops⟩
  exact ⟨e, e', hr, hr', hstops.step hstep⟩

theorem Accompanies.gets (relays : t.Relays t') (hsu : s.Accompanies u) (h : Gets t' u u') :
    ∃ s', Gets t s s' ∧ s'.Accompanies u' := by
  obtain ⟨steps, h⟩ := h
  induction steps generalizing s u with
  | zero =>
    cases h
    exact ⟨s, .refl t s, hsu⟩
  | succ steps ih =>
    obtain ⟨u₁, hstep, hafter⟩ := after_succ h
    rcases hsu.step relays with htracks | ⟨u₂, hstep₂, -, hexpects⟩
    · cases htracks with
      | goesOn first second together =>
        cases hstep.symm.trans second
        obtain ⟨s', hgets, haccompanies⟩ := ih (.inl together) hafter
        exact ⟨s', hgets.step first, haccompanies⟩
      | fails _ second => cases hstep.symm.trans second
      | misses _ second => cases hstep.symm.trans second
    · cases hstep.symm.trans hstep₂
      exact ih (.inr hexpects) hafter

/-- A processor beside another one comes to a point where both take the same step. -/
theorem Accompanies.catches_up (relays : t.Relays t') (hsu : s.Accompanies u) :
    ∃ u₁, Tracks t t' s u₁ ∧ u₁.request? t' = s.request? t ∧
      ∀ {log r u'}, Yields t' u₁ log r u' → Yields t' u log r u' := by
  rcases hsu.step relays with htracks | ⟨u₁, hstep, hnone, hexpects⟩
  · exact ⟨u, htracks, hsu.request?_eq relays, id⟩
  · refine ⟨u₁, hexpects.step, Accompanies.request?_eq relays (.inr hexpects), fun hyields => ?_⟩
    have := Yields.goesOn hstep hyields
    rwa [hnone] at this

theorem Accompanies.yields (relays : t.Relays t') (hsu : s.Accompanies u) {r : Outcome (Option Constant)}
    (h : Yields t s log r s') : ∃ r' u', Yields t' u log r' u' ∧ s'.Even u' ∧ Stands t s r r' := by
  induction h generalizing u with
  | finishes hstep =>
    obtain ⟨u₁, htracks, hrequest, hback⟩ := hsu.catches_up relays
    cases htracks with
    | goesOn first second together =>
      cases hstep.symm.trans first
      exact ⟨_, _, hback (hrequest ▸ .finishes second), together.toEven, .inl rfl⟩
    | fails first => cases hstep.symm.trans first
    | misses first => cases hstep.symm.trans first
  | @fails s _ _ hstep =>
    obtain ⟨u₁, htracks, hrequest, hback⟩ := hsu.catches_up relays
    cases htracks with
    | goesOn first => cases hstep.symm.trans first
    | fails first second even =>
      cases hstep.symm.trans first
      exact ⟨_, _, hback (hrequest ▸ .fails second), even, .inl rfl⟩
    | misses first second even misses misses' =>
      cases hstep.symm.trans first
      exact ⟨_, _, hback (hrequest ▸ .fails second), even, .inr ⟨_, _, rfl, rfl, s, .refl t s, ⟨misses, misses'⟩, by rw [first]⟩⟩
  | goesOn hstep _ ih =>
    obtain ⟨u₁, htracks, hrequest, hback⟩ := hsu.catches_up relays
    cases htracks with
    | goesOn first second together =>
      cases hstep.symm.trans first
      obtain ⟨r', u', hyields, heven, hstands⟩ := ih (.inl together)
      exact ⟨r', u', hback (hrequest ▸ .goesOn second hyields), heven, hstands.step hstep⟩
    | fails first => cases hstep.symm.trans first
    | misses first => cases hstep.symm.trans first

theorem Accompanies.yielded (relays : t.Relays t') (hsu : s.Accompanies u) {r' : Outcome (Option Constant)}
    (h : Yields t' u log r' u') : ∃ r s', Yields t s log r s' ∧ s'.Even u' ∧ Stands t s r r' := by
  induction h generalizing s with
  | finishes hstep =>
    rcases hsu.step relays with htracks | ⟨u₁, hstep₁, -, -⟩
    · cases htracks with
      | goesOn first second together =>
        cases hstep.symm.trans second
        exact ⟨_, _, hsu.request?_eq relays ▸ .finishes first, together.toEven, .inl rfl⟩
      | fails _ second => cases hstep.symm.trans second
      | misses _ second => cases hstep.symm.trans second
    · cases hstep.symm.trans hstep₁
  | fails hstep =>
    rcases hsu.step relays with htracks | ⟨u₁, hstep₁, -, -⟩
    · cases htracks with
      | goesOn _ second => cases hstep.symm.trans second
      | fails first second even =>
        cases hstep.symm.trans second
        exact ⟨_, _, hsu.request?_eq relays ▸ .fails first, even, .inl rfl⟩
      | misses first second even misses misses' =>
        cases hstep.symm.trans second
        exact ⟨_, _, hsu.request?_eq relays ▸ .fails first, even, .inr ⟨_, _, rfl, rfl, s, .refl t s, ⟨misses, misses'⟩, by rw [first]⟩⟩
    · cases hstep.symm.trans hstep₁
  | goesOn hstep _ ih =>
    rcases hsu.step relays with htracks | ⟨u₁, hstep₁, hnone, hexpects⟩
    · cases htracks with
      | goesOn first second together =>
        cases hstep.symm.trans second
        obtain ⟨r, s', hyields, heven, hstands⟩ := ih (.inl together)
        exact ⟨r, s', hsu.request?_eq relays ▸ .goesOn first hyields, heven, hstands.step first⟩
      | fails _ second => cases hstep.symm.trans second
      | misses _ second => cases hstep.symm.trans second
    · cases hstep.symm.trans hstep₁
      obtain ⟨r, s', hyields, heven, hstands⟩ := ih (.inr hexpects)
      refine ⟨r, s', ?_, heven, hstands⟩
      rw [hnone]
      exact hyields

theorem Accompanies.stops (hsu : s.Accompanies u) {e : Failure} (h : u.Misses e) :
    s.Misses e ∧ ∃ e₀, ((Processor.step t).runFrom s).1 = .error e₀ := by
  have hmisses := hsu.misses h
  refine ⟨hmisses, ?_⟩
  obtain ⟨a, callers, hs, ha⟩ := hmisses
  have hplain : a.body.Plain := by
    rcases hsu with hsu | hsu
    · have hcalls := hsu.calls
      rw [hs] at hcalls
      generalize u.calls = ds at hcalls
      cases hcalls with
      | cons hab _ =>
        obtain ⟨via, relays⟩ := hab.linked
        exact relays.plain
    · obtain ⟨x, a', callers', b, others, hs', -, -, hwaits⟩ := hsu.calls
      cases hs.symm.trans hs'
      obtain ⟨via, relays⟩ := hwaits.linked
      exact relays.plain
  obtain ⟨e₀, he₀, -⟩ := ha.nextBlock hplain
  refine ⟨e₀, ?_⟩
  rw [step_blockEnd hs ha.1, he₀]

end Processor

end RegionGuard

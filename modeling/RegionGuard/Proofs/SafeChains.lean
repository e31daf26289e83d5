import RegionGuard.Proofs.EndlessSearches
set_option autoImplicit false

/-!
# What safe pointers come from

A chain goes back from a value to one that it is made of, and from an argument to what a caller passes. From a value
that is found to be safe no chain ends but at memory of a known origin, although a phi that the search is inside of is
taken for safe: whatever goes back from it has been followed from where the search entered it.
-/

namespace RegionGuard

namespace Function

variable {f : Function} {slot : Variable} {stored stored' : Value}

structure StoredOnce (f : Function) (slot : Variable) (stored : Value) : Prop where
  reserved : ∃ allocated count, f.Performs (.alloca slot allocated count)
  other : stored ≠ .variable slot
  once : ∃ place i, (place, i) ∈ f.located ∧ i.isInjected = false ∧ i.operation = .store (.variable slot) stored ∧
    ∀ l j, (l, j) ∈ f.located → .variable slot ∈ j.operation.reads → j.isInjected = false → l ≠ place →
      ∃ dst, j.operation = .load dst (.variable slot)

inductive MadeOf (f : Function) : Value → Value → Prop
  | bitcast {dst : Variable} {src : Value} : f.Performs (.cast dst .bitcast src) → MadeOf f (.variable dst) src
  | element {dst : Variable} {base : Value} {source : Ty} {indices : List Value} :
      f.Performs (.elementPtr dst base source indices true) → MadeOf f (.variable dst) base
  | onTrue {dst : Variable} {condition v other : Value} :
      f.Performs (.select dst condition v other) → MadeOf f (.variable dst) v
  | onFalse {dst : Variable} {condition v other : Value} :
      f.Performs (.select dst condition other v) → MadeOf f (.variable dst) v
  | incoming {dst : Variable} {incoming : List (Value × Nat)} {v : Value} :
      f.Performs (.phi dst incoming) → v ∈ incoming.map (·.1) → MadeOf f (.variable dst) v
  | stored {dst slot : Variable} {v : Value} :
      f.Performs (.load dst (.variable slot)) → f.StoredOnce slot v → MadeOf f (.variable dst) v

/-- Where a chain may end: at the address of stack memory, of a fresh allocation, of a global or of a function. A phi
that no block comes in by has no value. -/
inductive Origin (f : Function) (c : Configuration) : Value → Prop
  | alloca {dst : Variable} {allocated : Ty} {count : Value} :
      f.Performs (.alloca dst allocated count) → Origin f c (.variable dst)
  | allocation {dst : Variable} {callee : String} {arguments : List Value} :
      f.Performs (.call (some dst) (.direct callee) arguments) → c.isAllocator callee = true → Origin f c (.variable dst)
  | global {name : String} : Origin f c (.global name)
  | function {name : String} : Origin f c (.function name)
  | noIncoming {dst : Variable} : f.Performs (.phi dst []) → Origin f c (.variable dst)

theorem StoredOnce.unique (numbered : ∀ c ∈ f.body, c.Numbered) (h : f.StoredOnce slot stored)
    (h' : f.StoredOnce slot stored') : stored = stored' := by
  obtain ⟨place, i, hi, -, ho, hothers⟩ := h.once
  obtain ⟨place', i', hi', hinjected', ho', -⟩ := h'.once
  by_cases hplace : place' = place
  · cases hplace
    cases ((instruction?_eq_some_iff numbered).mpr hi).symm.trans ((instruction?_eq_some_iff numbered).mpr hi')
    exact (Operation.store.inj (ho.symm.trans ho')).2
  · obtain ⟨dst, hload⟩ := hothers place' i' hi' (by rw [ho']; exact List.mem_cons_self) hinjected' hplace
    cases hload.symm.trans ho'

end Function

theorem DefUse.mem_uses {f : Function} {d : DefUse} (h : ofFunction f = .ok d) {v : Variable} {l : Location} :
    l ∈ d.uses v ↔ ∃ i, (l, i) ∈ f.located ∧ .variable v ∈ i.operation.reads := by
  obtain ⟨_, -, h⟩ := bind_eq_ok.mp h
  obtain ⟨_, -, h⟩ := bind_eq_ok.mp h
  cases h
  have hread : ∀ (u : Value) w, u.asVariable? = some w ↔ u = .variable w := fun u w => by
    cases u <;> simp [Value.asVariable?]
  unfold uses Operation.variablesRead
  simp only [List.mem_map, List.mem_filter, List.mem_flatMap, List.mem_filterMap, decide_eq_true_eq, hread,
    exists_eq_right]
  constructor
  · rintro ⟨_, ⟨⟨⟨l, i⟩, hi, w, hw, rfl⟩, rfl⟩, rfl⟩
    exact ⟨i, hi, hw⟩
  · rintro ⟨i, hi, hv⟩
    exact ⟨(v, l), ⟨⟨(l, i), hi, v, hv, rfl⟩, rfl⟩, rfl⟩

namespace FunctionFacts

variable {f : FunctionFacts} {v : Variable}

theorem definingOperation?_of_performs (facts : ofFunction f.function = .ok f)
    (numbered : ∀ c ∈ f.function.body, c.Numbered) {o : Operation} (h : f.function.Performs o)
    (hwritten : o.written? = some v) : f.defUse.definingOperation? (.variable v) = some o := by
  obtain ⟨⟨l, i⟩, hi, rfl⟩ := h
  have hplace := (DefUse.definition?_eq_some (eq_of_ofFunction facts).1).mpr ⟨i, hi, hwritten⟩
  have hi' := Option.bind_eq_some_iff.mpr ⟨l, hplace, (Function.instruction?_eq_some_iff numbered).mpr hi⟩
  exact Option.bind_eq_some_iff.mpr ⟨i, hi', rfl⟩

theorem storedOnce_of_storedIn? (facts : ofFunction f.function = .ok f)
    (numbered : ∀ c ∈ f.function.body, c.Numbered) {pointer stored : Value}
    (h : Safety.storedIn? f v pointer = some stored) :
    ∃ slot, pointer = .variable slot ∧ f.function.StoredOnce slot stored := by
  obtain ⟨slot, hslot, h⟩ := Option.bind_eq_some_iff.mp h
  obtain ⟨o, ho, h⟩ := Option.bind_eq_some_iff.mp h
  obtain ⟨_, halloca, h⟩ := Option.bind_eq_some_iff.mp h
  obtain ⟨⟨place, stored'⟩, honly, h⟩ := Option.bind_eq_some_iff.mp h
  obtain ⟨_, -, h⟩ := Option.bind_eq_some_iff.mp h
  obtain ⟨_, -, h⟩ := Option.bind_eq_some_iff.mp h
  cases h
  cases pointer with
  | «variable» w =>
    cases hslot
    obtain ⟨-, -, ⟨i, hi, hcounts, hstore, hother⟩, hrest⟩ :=
      (Safety.onlyStore?_eq_some honly).resolve_left fun heq => by cases heq.1
    obtain ⟨hperforms, hwritten⟩ := performs_of_definingOperation? facts numbered ho
    refine ⟨slot, rfl, ?_, hother, place, i, (Function.instruction?_eq_some_iff numbered).mp hi, hcounts, hstore, ?_⟩
    · have halloca := of_guard halloca
      cases o with
      | alloca dst allocated count =>
        cases hwritten
        exact ⟨allocated, count, hperforms⟩
      | _ => cases halloca
    · intro l j hj hread hj' hne
      obtain ⟨j', hj'', hspared⟩ := hrest l ((DefUse.mem_uses (eq_of_ofFunction facts).1).mpr ⟨j, hj, hread⟩) hne
      cases ((Function.instruction?_eq_some_iff numbered).mpr hj).symm.trans hj''
      exact hspared.resolve_left (by rw [hj']; exact Bool.false_ne_true)
  | _ => cases hslot

end FunctionFacts

namespace CallGraph

variable {p : Program} {name : String}

theorem mem_sitesOf {site : CallSite} : site ∈ (ofProgram p).sitesOf name ↔
    ∃ g ∈ p.functions.values, site.caller = g.name ∧ ∃ dst i, (site.location, i) ∈ g.located ∧
      i.operation = .call dst (.direct name) site.arguments := by
  have hsite : ∀ caller l i, siteOf caller l i = some (name, site) ↔ site.caller = caller ∧ site.location = l ∧
      ∃ dst, i.operation = .call dst (.direct name) site.arguments := fun caller l i => by
    unfold siteOf
    split
    · rename_i dst callee arguments ho
      rw [ho]
      constructor
      · intro h
        cases h
        exact ⟨rfl, rfl, dst, rfl⟩
      · rintro ⟨rfl, rfl, dst', heq⟩
        cases heq
        rfl
    · rename_i hno
      exact ⟨fun h => (nomatch h), fun ⟨_, _, dst, ho⟩ => absurd ho (hno dst name site.arguments)⟩
  unfold sitesOf ofProgram
  simp only [List.mem_map, List.mem_filter, List.mem_flatMap, List.mem_filterMap, decide_eq_true_eq]
  constructor
  · rintro ⟨⟨_, _⟩, ⟨⟨g, hg, ⟨l, i⟩, hi, hsome⟩, rfl⟩, rfl⟩
    obtain ⟨hcaller, rfl, dst, ho⟩ := (hsite g.name l i).mp hsome
    exact ⟨g, hg, hcaller, dst, i, hi, ho⟩
  · rintro ⟨g, hg, hcaller, dst, i, hi, ho⟩
    exact ⟨(name, site), ⟨⟨g, hg, (site.location, i), hi, (hsite _ _ _).mpr ⟨hcaller, rfl, dst, ho⟩⟩, rfl⟩, rfl⟩

theorem isAddressTaken_iff : (ofProgram p).isAddressTaken name = true ↔
    ∃ g ∈ p.functions.values, ∃ o, g.Performs o ∧ .function name ∈ o.reads := by
  have hamong : ∀ l, name ∈ functionsAmong l ↔ .function name ∈ l := fun l => by
    unfold functionsAmong
    rw [List.mem_filterMap]
    constructor
    · rintro ⟨v, hv, hname⟩
      cases v with
      | function other =>
        cases hname
        exact hv
      | _ => cases hname
    · exact fun h => ⟨_, h, rfl⟩
  change (KeySet.ofKeys _).contains name = true ↔ _
  unfold Table.contains
  rw [← Table.mem_keys_iff, KeySet.mem_keys_ofKeys]
  simp only [List.mem_flatMap, hamong]
  constructor
  · rintro ⟨g, hg, e, he, hread⟩
    exact ⟨g, hg, _, ⟨e, he, rfl⟩, hread⟩
  · rintro ⟨g, hg, _, ⟨e, he, rfl⟩, hread⟩
    exact ⟨g, hg, e, he, hread⟩

end CallGraph

namespace Program

variable {p : Program}

def Passes (p : Program) (g : Function) (a : Argument) (caller : Function) (v : Value) : Prop :=
  caller ∈ p.functions.values ∧ ∃ dst arguments, caller.Performs (.call dst (.direct g.name) arguments) ∧
    arguments[a.index]? = some v

structure Encloses (p : Program) (g : Function) (a : Argument) : Prop where
  hidden : g.linkage.isExternallyVisible = false
  unaddressed : ∀ f ∈ p.functions.values, ∀ o, f.Performs o → .function g.name ∉ o.reads
  called : ∃ f ∈ p.functions.values, ∃ dst arguments, f.Performs (.call dst (.direct g.name) arguments)
  passed : ∀ f ∈ p.functions.values, ∀ dst arguments, f.Performs (.call dst (.direct g.name) arguments) →
    (arguments[a.index]?).isSome

inductive Chain (p : Program) (f : Function) (v : Value) : List String → Function → Value → Prop
  | start : Chain p f v [] f v
  | inside {left : List String} {g : Function} {u w : Value} : Chain p f v left g u → g.MadeOf u w → Chain p f v left g w
  | caller {left : List String} {g g' : Function} {a : Argument} {w : Value} :
      Chain p f v left g (.argument a) → p.Passes g a g' w → Chain p f v (g.name :: left) g' w

/-- Nothing is in front of a value in a chain. -/
def Ends (p : Program) (g : Function) (u : Value) : Prop :=
  (∀ w, ¬ g.MadeOf u w) ∧ ∀ a, u = .argument a → ∀ g' w, ¬ p.Passes g a g' w

end Program

namespace Safety

variable {s : Safety} {f g : FunctionFacts} {t t' : Trail} {u v w : Value}

/-- The search finds some reason why a value is safe. -/
def Vouches (s : Safety) (f : FunctionFacts) (t : Trail) (v : Value) : Prop :=
  ∃ depth reason, s.within depth f t v = .ok (some reason)

theorem allM_eq_true {α : Type} {l : List α} {judge : α → Outcome Bool} (h : l.allM judge = .ok true) :
    ∀ a ∈ l, judge a = .ok true := by
  induction l with
  | nil => exact fun a ha => (List.not_mem_nil ha).elim
  | cons a rest ih =>
    obtain ⟨safe, ha, h⟩ := bind_eq_ok.mp h
    cases safe with
    | true => exact List.forall_mem_cons.mpr ⟨ha, ih h⟩
    | false => cases h

theorem restsOn_eq_some {reason r : Redundancy} {x : Outcome (Option Redundancy)} (h : restsOn reason x = .ok (some r)) :
    ∃ r', x = .ok (some r') := by
  obtain ⟨r?, hx, h⟩ := bind_eq_ok.mp h
  cases r? with
  | none => cases h
  | some r' => exact ⟨r', hx⟩

theorem allSafe_eq_some {judge : Value → Outcome (Option Redundancy)} {values : List Value} {r : Redundancy}
    (h : allSafe judge values = .ok (some r)) : ∀ v ∈ values, ∃ r, judge v = .ok (some r) := by
  obtain ⟨safe, hall, h⟩ := bind_eq_ok.mp h
  cases safe with
  | false => cases h
  | true =>
    intro v hv
    obtain ⟨r?, hjudge, h⟩ := bind_eq_ok.mp (allM_eq_true hall v hv)
    cases r? with
    | none => cases h
    | some r => exact ⟨r, hjudge⟩

theorem Vouches.exists_step (h : s.Vouches f t v) :
    ∃ depth reason, s.step (s.within depth) f t v = .ok (some reason) := by
  obtain ⟨depth, reason, h⟩ := h
  cases depth with
  | zero => cases h
  | succ depth => exact ⟨depth, reason, h⟩

theorem vouches_argument {a : Argument} (h : s.Vouches f t (.argument a)) :
    f.function.name ∉ t.functions ∧ s.callGraph.callersAreKnown f.function = true ∧
      ∀ site ∈ s.callGraph.sitesOf f.function.name, ∃ g u,
        s.callerFacts? { t with functions := f.function.name :: t.functions } site.caller = .ok (some g) ∧
          site.arguments[a.index]? = some u ∧ s.Vouches g { t with functions := f.function.name :: t.functions } u := by
  obtain ⟨depth, reason, h⟩ := h.exists_step
  change s.ofArgument (s.within depth) f t a.index = _ at h
  unfold ofArgument at h
  dsimp only at h
  split at h
  · cases h
  · rename_i hopen
    obtain ⟨hnew, hknown⟩ := not_or.mp hopen
    obtain ⟨safe, hall, h⟩ := bind_eq_ok.mp h
    cases safe with
    | false => cases h
    | true =>
      refine ⟨hnew, Decidable.not_not.mp hknown, fun site hsite => ?_⟩
      obtain ⟨g?, hg, hpasses⟩ := bind_eq_ok.mp (allM_eq_true hall site hsite)
      split at hpasses
      · rename_i g u hu
        obtain ⟨r?, hjudge, hpasses⟩ := bind_eq_ok.mp hpasses
        cases r? with
        | none => cases hpasses
        | some r => exact ⟨g, u, hg, hu, depth, r, hjudge⟩
      · cases hpasses

theorem vouches_variable {x : Variable} (h : s.Vouches f t (.variable x)) :
    ∃ o, f.defUse.definingOperation? (.variable x) = some o ∧ (∀ u ∈ f.restsOn x, s.Vouches f t u) ∧
      (∀ dst incoming, o = .phi dst incoming → (f.function.name, x) ∉ t.phis → ∀ u ∈ incoming.map (·.1),
        s.Vouches f { t with phis := (f.function.name, x) :: t.phis } u) ∧
      ((∃ dst allocated count, o = .alloca dst allocated count) ∨
        (∃ dst callee arguments, o = .call dst (.direct callee) arguments ∧ s.configuration.isAllocator callee = true) ∨
        f.restsOn x ≠ [] ∨ ∃ dst incoming, o = .phi dst incoming) := by
  obtain ⟨depth, reason, h⟩ := h.exists_step
  change s.ofVariable (s.within depth) f t x = _ at h
  unfold ofVariable at h
  unfold FunctionFacts.restsOn
  cases ho : f.defUse.definingOperation? (.variable x) with
  | none =>
    rw [ho] at h
    cases h
  | some o =>
    rw [ho] at h
    refine ⟨o, rfl, ?_⟩
    have none : ∀ u ∈ ([] : List Value), s.Vouches f t u := fun u hu => (List.not_mem_nil hu).elim
    cases o with
    | alloca dst allocated count => exact ⟨none, fun _ _ ho => (nomatch ho), .inl ⟨dst, allocated, count, rfl⟩⟩
    | call dst target arguments =>
      cases target with
      | indirect address => cases h
      | direct callee =>
        by_cases hallocator : s.configuration.isAllocator callee = true
        · exact ⟨none, fun _ _ ho => (nomatch ho), .inr (.inl ⟨dst, callee, arguments, rfl, hallocator⟩)⟩
        · dsimp only at h
          rw [if_neg hallocator] at h
          cases h
    | cast dst kind src =>
      cases kind with
      | bitcast =>
        obtain ⟨r, hr⟩ := restsOn_eq_some h
        exact ⟨List.forall_mem_singleton.mpr ⟨depth, r, hr⟩, fun _ _ ho => (nomatch ho),
          .inr (.inr (.inl (List.cons_ne_nil _ _)))⟩
      | _ => cases h
    | elementPtr dst base source indices inbounds =>
      cases inbounds with
      | true =>
        obtain ⟨r, hr⟩ := restsOn_eq_some h
        exact ⟨List.forall_mem_singleton.mpr ⟨depth, r, hr⟩, fun _ _ ho => (nomatch ho),
          .inr (.inr (.inl (List.cons_ne_nil _ _)))⟩
      | false => cases h
    | load dst pointer =>
      dsimp only at h ⊢
      cases hstored : storedIn? f x pointer with
      | none =>
        rw [hstored] at h
        cases h
      | some stored =>
        rw [hstored] at h
        obtain ⟨r, hr⟩ := restsOn_eq_some h
        exact ⟨List.forall_mem_singleton.mpr ⟨depth, r, hr⟩, fun _ _ ho => (nomatch ho),
          .inr (.inr (.inl (List.cons_ne_nil _ _)))⟩
    | select dst condition onTrue onFalse =>
      have hall := allSafe_eq_some h
      exact ⟨fun u hu => ⟨depth, hall u hu⟩, fun _ _ ho => (nomatch ho), .inr (.inr (.inl (List.cons_ne_nil _ _)))⟩
    | phi dst incoming =>
      refine ⟨none, fun dst' incoming' ho hnew u hu => ?_, .inr (.inr (.inr ⟨dst, incoming, rfl⟩))⟩
      cases ho
      change ofPhi (s.within depth) f t x _ = _ at h
      unfold ofPhi at h
      dsimp only at h
      rw [if_neg hnew] at h
      exact ⟨depth, allSafe_eq_some h u hu⟩
    | _ => cases h

theorem Asks.vouches (h : s.Asks f t v g t' u) (hv : s.Vouches f t v) : s.Vouches g t' u := by
  cases h with
  | rests hu =>
    obtain ⟨o, -, hrests, -⟩ := vouches_variable hv
    exact hrests u hu
  | phi ho hnew hu =>
    obtain ⟨o, ho', -, hphi, -⟩ := vouches_variable hv
    cases ho.symm.trans ho'
    exact hphi _ _ rfl hnew u hu
  | argument _ hsite hg hu =>
    obtain ⟨-, -, hsites⟩ := vouches_argument hv
    obtain ⟨g', u', hg', hu', hvouches⟩ := hsites _ hsite
    cases hg.symm.trans hg'
    cases hu.symm.trans hu'
    exact hvouches

end Safety

namespace FunctionFacts

variable {s : Safety} {f : FunctionFacts} {t : Trail} {x : Variable} {u : Value}
  (facts : ofFunction f.function = .ok f) (numbered : ∀ c ∈ f.function.body, c.Numbered)

include facts numbered

theorem madeOf_of_mem_restsOn (h : u ∈ f.restsOn x) : f.function.MadeOf (.variable x) u := by
  unfold restsOn at h
  cases ho : f.defUse.definingOperation? (.variable x) with
  | none =>
    rw [ho] at h
    cases h
  | some o =>
    obtain ⟨hperforms, hwritten⟩ := performs_of_definingOperation? facts numbered ho
    rw [ho] at h
    cases o with
    | cast dst kind src =>
      cases kind with
      | bitcast =>
        cases hwritten
        cases List.mem_singleton.mp h
        exact .bitcast hperforms
      | _ => cases h
    | elementPtr dst base source indices inbounds =>
      cases inbounds with
      | true =>
        cases hwritten
        cases List.mem_singleton.mp h
        exact .element hperforms
      | false => cases h
    | load dst pointer =>
      cases hwritten
      obtain ⟨slot, rfl, hstored⟩ := storedOnce_of_storedIn? facts numbered (Option.mem_toList.mp h)
      exact .stored hperforms hstored
    | select dst condition onTrue onFalse =>
      cases hwritten
      rcases List.mem_cons.mp h with rfl | h
      · exact .onTrue hperforms
      · cases List.mem_singleton.mp h
        exact .onFalse hperforms
    | _ => cases h

theorem rests_or_comesIn (h : f.function.MadeOf (.variable x) u) (hv : s.Vouches f t (.variable x)) :
    u ∈ f.restsOn x ∨
      ∃ dst incoming, f.defUse.definingOperation? (.variable x) = some (.phi dst incoming) ∧ u ∈ incoming.map (·.1) := by
  have known {o : Operation} (h : f.function.Performs o) (hwritten : o.written? = some x) :=
    definingOperation?_of_performs facts numbered h hwritten
  cases h with
  | bitcast h => exact .inl (by unfold restsOn; rw [known h rfl]; exact List.mem_cons_self)
  | element h => exact .inl (by unfold restsOn; rw [known h rfl]; exact List.mem_cons_self)
  | onTrue h => exact .inl (by unfold restsOn; rw [known h rfl]; exact List.mem_cons_self)
  | onFalse h => exact .inl (by unfold restsOn; rw [known h rfl]; exact List.mem_cons_of_mem _ List.mem_cons_self)
  | incoming h hu => exact .inr ⟨x, _, known h rfl, hu⟩
  | stored h hstored =>
    obtain ⟨o, ho, -, -, hkinds⟩ := Safety.vouches_variable hv
    cases (known h rfl).symm.trans ho
    have hrests : f.restsOn x ≠ [] := by
      rcases hkinds with ⟨_, _, _, h⟩ | ⟨_, _, _, h, -⟩ | h | ⟨_, _, h⟩
      · cases h
      · cases h
      · exact h
      · cases h
    obtain ⟨w, hw⟩ := List.exists_mem_of_ne_nil _ hrests
    have hw' := hw
    unfold restsOn at hw'
    rw [known h rfl] at hw'
    obtain ⟨slot', hslot, hstored'⟩ := storedOnce_of_storedIn? facts numbered (Option.mem_toList.mp hw')
    cases hslot
    exact .inl (hstored.unique numbered hstored' ▸ hw)

end FunctionFacts

namespace Safety

variable {s : Safety} {f g : FunctionFacts} {t : Trail} {u v : Value}

theorem Knows.numbered (known : s.Knows f) (numbered : s.program.Numbered) : ∀ c ∈ f.function.body, c.Numbered := by
  obtain ⟨name, hname⟩ := Table.mem_values_iff.mp known.listed
  exact (Program.numbered_iff.mp numbered name _ hname).2

/-- What the search for why a value is safe gets to. -/
inductive Reached (s : Safety) (f : FunctionFacts) (v : Value) : FunctionFacts → Trail → Value → Prop
  | start : Reached s f v f ⟨[], []⟩ v
  | next {g g' : FunctionFacts} {t t' : Trail} {u u' : Value} :
      Reached s f v g t u → s.Asks g t u g' t' u' → Reached s f v g' t' u'

namespace Reached

theorem vouches (h : s.Reached f v g t u) (hv : s.Vouches f ⟨[], []⟩ v) : s.Vouches g t u := by
  induction h with
  | start => exact hv
  | next _ hasks ih => exact hasks.vouches ih

theorem knows (h : s.Reached f v g t u) (hf : s.Knows f) : s.Knows g := by
  induction h with
  | start => exact hf
  | next _ hasks ih => exact hasks.knows ih

/-- The search never goes on in a function that it has left for a caller. -/
theorem outside (numbered : s.program.Numbered) (h : s.Reached f v g t u) : g.function.name ∉ t.functions := by
  induction h with
  | start => exact List.not_mem_nil
  | next _ hasks ih =>
    cases hasks with
    | rests => exact ih
    | phi => exact ih
    | argument _ _ hg _ =>
      obtain ⟨hcaller, caller, hname, hfacts⟩ := callerFacts?_eq_some hg
      rw [(FunctionFacts.eq_of_ofFunction hfacts).2, (Program.numbered_iff.mp numbered _ _ hname).1]
      exact hcaller

/-- A phi that the search is inside of stands in a function that it has left for a caller, or the search has entered
the phi without leaving the function since. -/
theorem entered (h : s.Reached f v g t u) : ∀ n x, (n, x) ∈ t.phis → n ∈ t.functions ∨
    ∃ t₀, n = g.function.name ∧ s.Reached f v g t₀ (.variable x) ∧ (n, x) ∉ t₀.phis ∧ t₀.functions = t.functions := by
  induction h with
  | start => exact fun _ _ hx => (List.not_mem_nil hx).elim
  | next hreached hasks ih =>
    cases hasks with
    | rests => exact ih
    | phi _ hnew _ =>
      intro n x hx
      rcases List.mem_cons.mp hx with heq | hx
      · cases heq
        exact .inr ⟨_, rfl, hreached, hnew, rfl⟩
      · exact ih n x hx
    | argument =>
      intro n x hx
      rcases ih n x hx with hleft | ⟨-, rfl, -⟩
      · exact .inl (List.mem_cons_of_mem _ hleft)
      · exact .inl List.mem_cons_self

end Reached

variable (numbered : s.program.Numbered) (hf : s.Knows f) (hv : s.Vouches f ⟨[], []⟩ v)

include numbered hf hv

theorem Reached.inside (h : s.Reached f v g t u) {w : Value} (hw : g.function.MadeOf u w) :
    ∃ t', s.Reached f v g t' w ∧ t'.functions = t.functions := by
  have known := h.knows hf
  obtain ⟨x, rfl⟩ : ∃ x, u = .variable x := by cases hw <;> exact ⟨_, rfl⟩
  rcases FunctionFacts.rests_or_comesIn known.facts (known.numbered numbered) hw (h.vouches hv) with
    hrests | ⟨dst, incoming, ho, hin⟩
  · exact ⟨t, h.next (.rests hrests), rfl⟩
  · by_cases hx : (g.function.name, x) ∈ t.phis
    · -- The search takes this phi for safe, and has followed what comes in where it entered the phi.
      obtain ⟨t₀, -, h₀, hnew, hfunctions⟩ := (h.entered _ _ hx).resolve_left (h.outside numbered)
      exact ⟨_, h₀.next (.phi ho hnew hin), hfunctions⟩
    · exact ⟨_, h.next (.phi ho hx hin), rfl⟩

theorem reached_of_chain (hgraph : s.callGraph = .ofProgram s.program) {left : List String} {g : Function} {u : Value}
    (h : s.program.Chain f.function v left g u) :
    ∃ facts t, s.Reached f v facts t u ∧ facts.function = g ∧ t.functions = left := by
  induction h with
  | start => exact ⟨f, _, .start, rfl, rfl⟩
  | inside _ hw ih =>
    obtain ⟨facts, t, hreached, rfl, rfl⟩ := ih
    obtain ⟨t', hreached', hfunctions⟩ := hreached.inside numbered hf hv hw
    exact ⟨facts, t', hreached', rfl, hfunctions⟩
  | @caller left g g' a w _ hpasses ih =>
    obtain ⟨facts, t, hreached, rfl, rfl⟩ := ih
    obtain ⟨hcaller, dst, arguments, ⟨⟨l, i⟩, hi, ho⟩, hw⟩ := hpasses
    obtain ⟨hnew, -, hsites⟩ := vouches_argument (hreached.vouches hv)
    have hsite : ⟨g'.name, l, arguments⟩ ∈ s.callGraph.sitesOf facts.function.name :=
      hgraph ▸ CallGraph.mem_sitesOf.mpr ⟨g', hcaller, rfl, dst, i, hi, ho⟩
    obtain ⟨facts', u', hfacts', hu', -⟩ := hsites _ hsite
    cases hw.symm.trans hu'
    refine ⟨facts', _, hreached.next (.argument hnew hsite hfacts' hw), ?_, rfl⟩
    obtain ⟨-, caller, hname, hofFunction⟩ := callerFacts?_eq_some hfacts'
    obtain ⟨name, hname'⟩ := Table.mem_values_iff.mp hcaller
    rw [(FunctionFacts.eq_of_ofFunction hofFunction).2]
    cases (Program.numbered_iff.mp numbered _ _ hname').1
    exact Option.some.inj (hname.symm.trans hname')

omit numbered hf hv in
theorem encloses_of_vouches (hgraph : s.callGraph = .ofProgram s.program) {a : Argument}
    (h : s.Vouches g t (.argument a)) : s.program.Encloses g.function a := by
  obtain ⟨-, hknown, hsites⟩ := vouches_argument h
  rw [hgraph] at hknown hsites
  simp only [CallGraph.callersAreKnown, Bool.and_eq_true, Bool.not_eq_true'] at hknown
  obtain ⟨⟨hidden, hunaddressed⟩, hcalled⟩ := hknown
  refine ⟨hidden, fun f hf o ho hread => ?_, ?_, fun f hf dst arguments ⟨⟨l, i⟩, hi, ho⟩ => ?_⟩
  · have haddressed := CallGraph.isAddressTaken_iff.mpr ⟨f, hf, o, ho, hread⟩
    rw [hunaddressed] at haddressed
    cases haddressed
  · obtain ⟨site, hsite⟩ := List.exists_mem_of_ne_nil _ (List.isEmpty_eq_false_iff.mp hcalled)
    obtain ⟨f, hf, -, dst, i, hi, ho⟩ := CallGraph.mem_sitesOf.mp hsite
    exact ⟨f, hf, dst, site.arguments, ⟨_, hi, ho⟩⟩
  · obtain ⟨_, _, -, hu, -⟩ := hsites ⟨f.name, l, arguments⟩ (CallGraph.mem_sitesOf.mpr ⟨f, hf, rfl, dst, i, hi, ho⟩)
    exact Option.isSome_of_eq_some hu

end Safety

namespace Program

variable {p : Program} {g : Function} {a : Argument}

theorem Encloses.not_ends (h : p.Encloses g a) : ¬ p.Ends g (.argument a) := fun ends => by
  obtain ⟨f, hf, dst, arguments, hcall⟩ := h.called
  obtain ⟨w, hw⟩ := Option.isSome_iff_exists.mp (h.passed f hf dst arguments hcall)
  exact ends.2 a rfl f w ⟨hf, dst, arguments, hcall, hw⟩

theorem ends_of_definingOperation? {f : FunctionFacts} (facts : FunctionFacts.ofFunction f.function = .ok f)
    (numbered : ∀ c ∈ f.function.body, c.Numbered) {x : Variable} {o : Operation}
    (ho : f.defUse.definingOperation? (.variable x) = some o) (hderives : o.derives = false)
    (hphi : o.isPhi = true → o.reads = []) : p.Ends f.function (.variable x) := by
  refine ⟨fun w hw => ?_, fun a ha => by cases ha⟩
  have known {o' : Operation} (h : f.function.Performs o') (hwritten : o'.written? = some x) : o' = o :=
    Option.some.inj ((FunctionFacts.definingOperation?_of_performs facts numbered h hwritten).symm.trans ho)
  cases hw with
  | incoming h hw =>
    cases known h rfl
    have hnone := hphi rfl
    change List.map _ _ = [] at hnone
    rw [hnone] at hw
    exact List.not_mem_nil hw
  | _ h =>
    cases known h rfl
    cases hderives

/-- No chain from a value that is found to be safe ends but at memory of a known origin. An argument on such a chain is
one of a function whose calls are all in sight, and that the chain has not left for a caller before. -/
theorem safe_chains_end_at_origins (numbered : p.Numbered) {c : Configuration} {f : FunctionFacts}
    (known : (p.safety c).Knows f) {v : Value} {reason : Redundancy}
    (safe : (p.safety c).judge f v = .ok (some reason)) {left : List String} {u : Value}
    (chain : p.Chain f.function v left g u) :
    (p.Ends g u → g.Origin c u) ∧ ∀ a, u = .argument a → p.Encloses g a ∧ g.name ∉ left := by
  have hv : (p.safety c).Vouches f ⟨[], []⟩ v := ⟨_, reason, safe⟩
  obtain ⟨facts, t, hreached, rfl, rfl⟩ := Safety.reached_of_chain (s := p.safety c) numbered known hv rfl chain
  have hvouches := hreached.vouches hv
  have hknown := hreached.knows known
  have hencloses : ∀ a, u = .argument a → p.Encloses facts.function a := fun a ha =>
    Safety.encloses_of_vouches (s := p.safety c) rfl (ha ▸ hvouches)
  refine ⟨fun ends => ?_, fun a ha => ⟨hencloses a ha, hreached.outside numbered⟩⟩
  cases u with
  | global name => exact .global
  | function name => exact .function
  | argument a => exact absurd ends (hencloses a rfl).not_ends
  | «variable» x =>
    obtain ⟨o, ho, -, -, hkinds⟩ := Safety.vouches_variable hvouches
    obtain ⟨hperforms, hwritten⟩ :=
      FunctionFacts.performs_of_definingOperation? hknown.facts (hknown.numbered numbered) ho
    rcases hkinds with ⟨dst, allocated, count, rfl⟩ | ⟨dst, callee, arguments, rfl, hallocator⟩ | hrests |
      ⟨dst, incoming, rfl⟩
    · cases hwritten
      exact .alloca hperforms
    · cases hwritten
      exact .allocation hperforms hallocator
    · obtain ⟨w, hw⟩ := List.exists_mem_of_ne_nil _ hrests
      exact absurd (FunctionFacts.madeOf_of_mem_restsOn hknown.facts (hknown.numbered numbered) hw) (ends.1 w)
    · cases hwritten
      cases incoming with
      | nil => exact .noIncoming hperforms
      | cons e rest => exact absurd (.incoming hperforms List.mem_cons_self) (ends.1 e.1)
  | _ =>
    obtain ⟨_, _, h⟩ := hvouches.exists_step
    cases h

/-- Around the loop and through the slot, what is selected comes from the caller's stack memory. -/
theorem safe_chains_end_at_origins_stepsThrough :
    stepsThrough.Numbered ∧ ∃ f g, (stepsThrough.safety .default).Knows f ∧
      (stepsThrough.safety .default).judge f (.variable ⟨"q", .pointer⟩) = .ok (some .derived) ∧
      stepsThrough.Chain f.function (.variable ⟨"q", .pointer⟩) [] f.function (.argument ⟨0, "base", .pointer⟩) ∧
      stepsThrough.Encloses f.function ⟨0, "base", .pointer⟩ ∧
      stepsThrough.Chain f.function (.variable ⟨"q", .pointer⟩) ["stepThrough"] g (.variable ⟨"cells", .pointer⟩) ∧
      stepsThrough.Ends g (.variable ⟨"cells", .pointer⟩) ∧ g.Origin .default (.variable ⟨"cells", .pointer⟩) := by
  have numbered : stepsThrough.Numbered := made_stepsThrough.numbered
  have hsteps : (stepsThrough.facts? "stepThrough").any fun f => f.function.name = "stepThrough" ∧
      (stepsThrough.safety .default).judge f (.variable ⟨"q", .pointer⟩) = .ok (some .derived) ∧
      .variable ⟨"p", .pointer⟩ ∈ f.restsOn ⟨"q", .pointer⟩ ∧
      f.function.Performs (.phi ⟨"p", .pointer⟩
        [(.argument ⟨0, "base", .pointer⟩, 0), (.variable ⟨"next", .pointer⟩, 1)]) ∧
      .variable ⟨"q", .pointer⟩ ∈ f.restsOn ⟨"next", .pointer⟩ ∧
      .variable ⟨"kept", .pointer⟩ ∈ f.restsOn ⟨"q", .pointer⟩ ∧
      .argument ⟨0, "base", .pointer⟩ ∈ f.restsOn ⟨"kept", .pointer⟩ := by
    decide +kernel
  have hmain : (stepsThrough.facts? "main").any fun g =>
      g.function.Performs (.call none (.direct "stepThrough") [.variable ⟨"cells", .pointer⟩]) ∧
      g.defUse.definingOperation? (.variable ⟨"cells", .pointer⟩) =
        some (.alloca ⟨"cells", .pointer⟩ (.array (.integer 64) 4) (.ofWord 1 64)) := by
    decide +kernel
  obtain ⟨f, hf, hsteps⟩ := (Option.any_eq_true ..).mp hsteps
  obtain ⟨hname, hjudge, hp, hphi, hq, hkept, hbase⟩ := of_decide_eq_true hsteps
  obtain ⟨g, hg, hmain⟩ := (Option.any_eq_true ..).mp hmain
  obtain ⟨hcall, halloca⟩ := of_decide_eq_true hmain
  have known : (stepsThrough.safety .default).Knows f := .of_facts? hf
  have known' : (stepsThrough.safety .default).Knows g := .of_facts? hg
  have inside {x : Variable} {u : Value} (h : u ∈ f.restsOn x) : f.function.MadeOf (.variable x) u :=
    FunctionFacts.madeOf_of_mem_restsOn known.facts (known.numbered numbered) h
  have around : stepsThrough.Chain f.function (.variable ⟨"q", .pointer⟩) [] f.function (.variable ⟨"q", .pointer⟩) :=
    ((Chain.start.inside (inside hp)).inside (.incoming hphi (List.mem_cons_of_mem _ List.mem_cons_self))).inside
      (inside hq)
  have argument := (around.inside (inside hkept)).inside (inside hbase)
  have outside := argument.caller ⟨known'.listed, none, _, hname ▸ hcall, rfl⟩
  rw [hname] at outside
  have ends := ends_of_definingOperation? (p := stepsThrough) known'.facts (known'.numbered numbered) halloca rfl
    fun h => by cases h
  exact ⟨numbered, f, g.function, known, hjudge, argument,
    ((safe_chains_end_at_origins numbered known hjudge argument).2 _ rfl).1, outside, ends,
    (safe_chains_end_at_origins numbered known hjudge outside).1 ends⟩

end Program

def loadsFromNowhere : Program :=
  .ofFunctions [.ofCode "main" []
    [[.phi ⟨"p", .pointer⟩ [], .load ⟨"v", .integer 64⟩ (.variable ⟨"p", .pointer⟩), .ret none]] []]

/-- A slot that is stored to twice, the second time by an instruction with the mark of injected ones. -/
def storesMarked : Program :=
  let slot : Variable := ⟨"slot", .pointer⟩
  let cell : Variable := ⟨"cell", .pointer⟩
  let outside : Argument := ⟨0, "outside", .pointer⟩
  let plain (o : Operation) : FlowGraph.Draft := ⟨o, none, []⟩
  .ofFunctions [⟨"main", [outside], .void, .external, (FlowGraph.build
    [[plain (.alloca cell (.integer 64) (.ofWord 1 64)), plain (.alloca slot .pointer (.ofWord 1 64)),
      plain (.store (.variable slot) (.variable cell)),
      ⟨.store (.variable slot) (.argument outside), none, [(Tag.injected, "mine")]⟩,
      plain (.load ⟨"p", .pointer⟩ (.variable slot)), plain (.load ⟨"v", .integer 64⟩ (.variable ⟨"p", .pointer⟩)),
      plain (.ret none)]] [] (some 0)).toOption⟩]

def loadsOutside (numbers : List Nat) : Program :=
  let outside : Argument := ⟨0, "outside", .pointer⟩
  .ofFunctions [(Function.ofCode "main" [outside]
    [[.alloca ⟨"slot", .pointer⟩ (.integer 64) (.ofWord 1 64), .load ⟨"p", .pointer⟩ (.argument outside),
      .load ⟨"v", .integer 64⟩ (.variable ⟨"p", .pointer⟩), .ret none]] []).renumber 0 numbers]

theorem built_loadsOutside (numbers : List Nat) : (loadsOutside numbers).Built :=
  Program.built_of_ofFunctions fun f hf => by
    cases List.mem_singleton.mp hf
    exact Function.built_renumber Function.built_of_ofCode 0 numbers

/-- A value that is found to be safe may be a phi without a value, or loaded from a slot that is stored to twice, once
what the caller of an external function passes. And where an instruction shares the number of a slot, what it makes is taken
for the slot. -/
theorem Program.safe_without_origin :
    (loadsFromNowhere.Made ∧ loadsFromNowhere.verify = .ok () ∧
      ∃ f, (loadsFromNowhere.safety .default).Knows f ∧
        (loadsFromNowhere.safety .default).judge f (.variable ⟨"p", .pointer⟩) = .ok (some .derived) ∧
        loadsFromNowhere.Ends f.function (.variable ⟨"p", .pointer⟩) ∧
        ∀ o, f.function.Performs o → o.written? = some ⟨"p", .pointer⟩ → o = .phi ⟨"p", .pointer⟩ []) ∧
    (storesMarked.Made ∧ storesMarked.verify = .ok () ∧
      ∃ f, (storesMarked.safety .default).Knows f ∧
        (storesMarked.safety .default).judge f (.variable ⟨"p", .pointer⟩) = .ok (some .mustAlias) ∧
        f.function.Performs (.load ⟨"p", .pointer⟩ (.variable ⟨"slot", .pointer⟩)) ∧
        f.function.Performs (.store (.variable ⟨"slot", .pointer⟩) (.variable ⟨"cell", .pointer⟩)) ∧
        f.function.Performs (.store (.variable ⟨"slot", .pointer⟩) (.argument ⟨0, "outside", .pointer⟩)) ∧
        f.function.linkage.isExternallyVisible = true) ∧
    ((loadsOutside [0, 0, 1, 2]).Built ∧ (loadsOutside [0, 0, 1, 2]).verify = .ok () ∧
      ∃ f, ((loadsOutside [0, 0, 1, 2]).safety .default).Knows f ∧
        ((loadsOutside [0, 0, 1, 2]).safety .default).judge f (.variable ⟨"p", .pointer⟩) = .ok (some .stackLocal) ∧
        f.function.Performs (.load ⟨"p", .pointer⟩ (.argument ⟨0, "outside", .pointer⟩)) ∧
        f.function.linkage.isExternallyVisible = true) := by
  have made : loadsFromNowhere.Made := made_of_ofFunctions fun f hf => by
    cases List.mem_singleton.mp hf
    exact Function.made_of_ofCode
  have made' : storesMarked.Made := made_of_ofFunctions fun f hf c hc => by
    cases List.mem_singleton.mp hf
    dsimp only at hc
    exact FlowGraph.made_of_build (toOption_eq_some.mp hc)
  have hnowhere : (loadsFromNowhere.facts? "main").any fun f =>
      (loadsFromNowhere.safety .default).judge f (.variable ⟨"p", .pointer⟩) = .ok (some .derived) ∧
        f.defUse.definingOperation? (.variable ⟨"p", .pointer⟩) = some (.phi ⟨"p", .pointer⟩ []) := by
    decide +kernel
  have hmarked : (storesMarked.facts? "main").any fun f =>
      (storesMarked.safety .default).judge f (.variable ⟨"p", .pointer⟩) = .ok (some .mustAlias) ∧
        f.function.Performs (.load ⟨"p", .pointer⟩ (.variable ⟨"slot", .pointer⟩)) ∧
        f.function.Performs (.store (.variable ⟨"slot", .pointer⟩) (.variable ⟨"cell", .pointer⟩)) ∧
        f.function.Performs (.store (.variable ⟨"slot", .pointer⟩) (.argument ⟨0, "outside", .pointer⟩)) ∧
        f.function.linkage.isExternallyVisible = true := by
    decide +kernel
  have houtside : ((loadsOutside [0, 0, 1, 2]).facts? "main").any fun f =>
      ((loadsOutside [0, 0, 1, 2]).safety .default).judge f (.variable ⟨"p", .pointer⟩) = .ok (some .stackLocal) ∧
        f.function.Performs (.load ⟨"p", .pointer⟩ (.argument ⟨0, "outside", .pointer⟩)) ∧
        f.function.linkage.isExternallyVisible = true := by
    decide +kernel
  obtain ⟨f, hf, hnowhere⟩ := (Option.any_eq_true ..).mp hnowhere
  obtain ⟨hjudge, hphi⟩ := of_decide_eq_true hnowhere
  obtain ⟨h, hh, houtside⟩ := (Option.any_eq_true ..).mp houtside
  obtain ⟨g, hg, hmarked⟩ := (Option.any_eq_true ..).mp hmarked
  have known : (loadsFromNowhere.safety .default).Knows f := .of_facts? hf
  have numbered := known.numbered (s := loadsFromNowhere.safety .default) made.numbered
  refine ⟨⟨made, by decide +kernel, f, known, hjudge, ?_, fun o ho hwritten => ?_⟩, ⟨made', by decide +kernel, g,
    .of_facts? hg, of_decide_eq_true hmarked⟩, built_loadsOutside _, by decide +kernel, h, .of_facts? hh,
    of_decide_eq_true houtside⟩
  · exact ends_of_definingOperation? known.facts numbered hphi rfl fun _ => rfl
  · have hknown := FunctionFacts.definingOperation?_of_performs known.facts numbered ho hwritten
    exact Option.some.inj (hknown.symm.trans hphi)

end RegionGuard

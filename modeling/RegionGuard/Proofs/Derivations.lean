import RegionGuard.Proofs.SafetySearches
set_option autoImplicit false

namespace RegionGuard

namespace Operation

def derives : Operation → Bool
  | .cast _ .bitcast _ => true
  | .elementPtr _ _ _ _ inbounds => inbounds
  | .select _ _ _ _ => true
  | .load _ _ => true
  | .store _ _ => true
  | _ => false

end Operation

namespace Function

variable {f g : Function} {v w : Variable} {o : Operation}

def Performs (f : Function) (o : Operation) : Prop := ∃ e ∈ f.located, e.2.operation = o

instance (f : Function) (o : Operation) : Decidable (f.Performs o) :=
  inferInstanceAs (Decidable (∃ e ∈ f.located, e.2.operation = o))

/-- A variable takes its value from another one: by a cast, by indexing in bounds, by a selection, or through memory. -/
inductive DerivesFrom (f : Function) (v w : Variable) : Prop
  | bitcast : f.Performs (.cast v .bitcast (.variable w)) → f.DerivesFrom v w
  | element {source : Ty} {indices : List Value} :
      f.Performs (.elementPtr v (.variable w) source indices true) → f.DerivesFrom v w
  | onTrue {condition other : Value} : f.Performs (.select v condition (.variable w) other) → f.DerivesFrom v w
  | onFalse {condition other : Value} : f.Performs (.select v condition other (.variable w)) → f.DerivesFrom v w
  | memory {pointer : Value} :
      f.Performs (.load v pointer) → f.Performs (.store pointer (.variable w)) → f.DerivesFrom v w

def Circular (f : Function) : Prop := ∃ v, Relation.TransGen f.DerivesFrom v v

theorem DerivesFrom.mono (h : f.DerivesFrom v w) (hfg : ∀ o, o.derives = true → f.Performs o → g.Performs o) :
    g.DerivesFrom v w := by
  cases h with
  | bitcast h => exact .bitcast (hfg _ rfl h)
  | element h => exact .element (hfg _ rfl h)
  | onTrue h => exact .onTrue (hfg _ rfl h)
  | onFalse h => exact .onFalse (hfg _ rfl h)
  | memory hload hstore => exact .memory (hfg _ rfl hload) (hfg _ rfl hstore)

theorem DerivesFrom.exists_performs (h : f.DerivesFrom v w) : ∃ o, o.derives = true ∧ f.Performs o := by
  cases h with
  | bitcast h => exact ⟨_, rfl, h⟩
  | element h => exact ⟨_, rfl, h⟩
  | onTrue h => exact ⟨_, rfl, h⟩
  | onFalse h => exact ⟨_, rfl, h⟩
  | memory hload _ => exact ⟨_, rfl, hload⟩

theorem Circular.mono (h : f.Circular) (hfg : ∀ o, o.derives = true → f.Performs o → g.Performs o) : g.Circular := by
  obtain ⟨v, hv⟩ := h
  exact ⟨v, Relation.TransGen.mono (fun _ _ h => DerivesFrom.mono h hfg) v v hv⟩

theorem Circular.exists_performs (h : f.Circular) : ∃ o, o.derives = true ∧ f.Performs o := by
  obtain ⟨v, hv⟩ := h
  obtain ⟨w, hw, -⟩ := Relation.TransGen.head'_iff.mp hv
  exact hw.exists_performs

theorem of_performs {K : Operation → Prop} (hf : ∀ c ∈ f.body, c.Coded K) (h : f.Performs o) : K o := by
  obtain ⟨⟨l, i⟩, hi, rfl⟩ := h
  cases hbody : f.body with
  | none =>
    unfold located blocks at hi
    rw [hbody] at hi
    cases hi
  | some c =>
    obtain ⟨b, hb, hmem, -⟩ := (located_iff hbody (hf c hbody).numbered.addressable).mp hi
    exact (hf c hbody).code _ b hb i hmem

end Function

namespace Safety

/-- Whether the use of a slot at a place is a load, or does not count. -/
def Spares (f : FunctionFacts) (slot : Value) (place : Location) : Prop :=
  ∃ i, f.function.instruction? place = some i ∧ (i.isInjected = true ∨ ∃ dst, i.operation = .load dst slot)

def Stores (f : FunctionFacts) (slot : Value) (place : Location) (value : Value) : Prop :=
  ∃ i, f.function.instruction? place = some i ∧ i.isInjected = false ∧ i.operation = .store slot value ∧ value ≠ slot

theorem onlyStore?_eq_some {f : FunctionFacts} {slot value : Value} {places : List Location}
    {found : Option (Location × Value)} {l : Location} (h : onlyStore? f slot places found = some (l, value)) :
    found = some (l, value) ∧ (∀ place ∈ places, Spares f slot place) ∨
      found = none ∧ l ∈ places ∧ Stores f slot l value ∧ ∀ place ∈ places, place ≠ l → Spares f slot place := by
  induction places generalizing found with
  | nil => exact .inl ⟨h, fun _ hplace => (List.not_mem_nil hplace).elim⟩
  | cons place rest ih =>
    have spared (hplace : Spares f slot place) (h : onlyStore? f slot rest found = some (l, value)) :
        found = some (l, value) ∧ (∀ p ∈ place :: rest, Spares f slot p) ∨ found = none ∧ l ∈ place :: rest ∧
          Stores f slot l value ∧ ∀ p ∈ place :: rest, p ≠ l → Spares f slot p := by
      rcases ih h with ⟨hfound, hrest⟩ | ⟨hfound, hl, hstores, hrest⟩
      · exact .inl ⟨hfound, List.forall_mem_cons.mpr ⟨hplace, hrest⟩⟩
      · exact .inr ⟨hfound, List.mem_cons_of_mem _ hl, hstores, List.forall_mem_cons.mpr ⟨fun _ => hplace, hrest⟩⟩
    unfold onlyStore? at h
    split at h
    · cases h
    · rename_i i hi
      split at h
      · rename_i hinjected
        exact spared ⟨i, hi, .inl hinjected⟩ h
      · rename_i hcounts
        split at h
        · rename_i dst pointer ho
          split at h
          · rename_i hslot
            exact spared ⟨i, hi, .inr ⟨dst, hslot ▸ ho⟩⟩ h
          · cases h
        · rename_i pointer stored ho
          split at h
          · rename_i hslot
            obtain ⟨rfl, hne, hnone⟩ := hslot
            rcases ih h with ⟨heq, hrest⟩ | ⟨hfound, -⟩
            · cases heq
              refine .inr ⟨Option.isNone_iff_eq_none.mp hnone, List.mem_cons_self,
                ⟨i, hi, Bool.eq_false_iff.mpr hcounts, ho, hne⟩, List.forall_mem_cons.mpr ⟨fun h => absurd rfl h, ?_⟩⟩
              exact fun p hp _ => hrest p hp
            · cases hfound
          · cases h
        · cases h

theorem exists_of_storedIn? {f : FunctionFacts} {loaded : Variable} {pointer value : Value}
    (h : storedIn? f loaded pointer = some value) : ∃ place load i, f.defUse.definition? loaded = some load ∧
      f.dominates place load = true ∧ f.function.instruction? place = some i ∧ i.operation = .store pointer value := by
  obtain ⟨slot, -, h⟩ := Option.bind_eq_some_iff.mp h
  obtain ⟨o, -, h⟩ := Option.bind_eq_some_iff.mp h
  obtain ⟨_, -, h⟩ := Option.bind_eq_some_iff.mp h
  obtain ⟨⟨place, stored⟩, honly, h⟩ := Option.bind_eq_some_iff.mp h
  obtain ⟨load, hload, h⟩ := Option.bind_eq_some_iff.mp h
  obtain ⟨_, hdominates, h⟩ := Option.bind_eq_some_iff.mp h
  cases h
  obtain ⟨-, -, ⟨i, hi, -, ho, -⟩, -⟩ := (onlyStore?_eq_some honly).resolve_left fun heq => by cases heq.1
  exact ⟨place, load, i, hload, of_guard hdominates, hi, ho⟩

theorem performs_of_storedIn? {f : FunctionFacts} {loaded : Variable} {pointer value : Value}
    (h : storedIn? f loaded pointer = some value) : f.function.Performs (.store pointer value) := by
  obtain ⟨_, _, i, -, -, hi, ho⟩ := exists_of_storedIn? h
  obtain ⟨l, hl⟩ := Function.located_of_instruction? hi
  exact ⟨(l, i), hl, ho⟩

end Safety

namespace FunctionFacts

variable {f : FunctionFacts} {v w : Variable}

theorem performs_of_definingOperation? (facts : ofFunction f.function = .ok f)
    (numbered : ∀ c ∈ f.function.body, c.Numbered) {o : Operation}
    (h : f.defUse.definingOperation? (.variable v) = some o) : f.function.Performs o ∧ o.written? = some v := by
  obtain ⟨i, hi, ho⟩ := Option.bind_eq_some_iff.mp h
  cases ho
  obtain ⟨l, hl, hi⟩ := Option.bind_eq_some_iff.mp hi
  obtain ⟨j, hj, hwritten⟩ := (DefUse.definition?_eq_some (eq_of_ofFunction facts).1).mp hl
  cases ((Function.instruction?_eq_some_iff numbered).mpr hj).symm.trans hi
  exact ⟨⟨(l, i), hj, rfl⟩, hwritten⟩

theorem derivesFrom_of_rests (facts : ofFunction f.function = .ok f) (numbered : ∀ c ∈ f.function.body, c.Numbered)
    (h : f.Rests v w) : f.function.DerivesFrom v w := by
  unfold Rests restsOn at h
  cases ho : f.defUse.definingOperation? (.variable v) with
  | none =>
    rw [ho] at h
    cases h
  | some o =>
    obtain ⟨hperforms, hwritten⟩ := performs_of_definingOperation? facts numbered ho
    rw [ho] at h
    split at h
    · rename_i heq
      cases heq
      cases hwritten
      cases List.mem_singleton.mp h
      exact .bitcast hperforms
    · rename_i heq
      cases heq
      cases hwritten
      cases List.mem_singleton.mp h
      exact .element hperforms
    · rename_i heq
      cases heq
      cases hwritten
      exact .memory hperforms (Safety.performs_of_storedIn? (Option.mem_toList.mp h))
    · rename_i heq
      cases heq
      cases hwritten
      rcases List.mem_cons.mp h with heq | h
      · cases heq
        exact .onTrue hperforms
      · cases List.mem_singleton.mp h
        exact .onFalse hperforms
    · cases h

theorem circular_function (facts : ofFunction f.function = .ok f) (numbered : ∀ c ∈ f.function.body, c.Numbered)
    (h : f.Circular) : f.function.Circular := by
  obtain ⟨v, hv⟩ := h
  exact ⟨v, Relation.TransGen.mono (fun _ _ h => derivesFrom_of_rests facts numbered h) v v hv⟩

end FunctionFacts

end RegionGuard

import RegionGuard.Proofs.SteadyEdits
import RegionGuard.Proofs.WellFormedness
set_option autoImplicit false

namespace RegionGuard

variable {R : Fatal → Prop}

namespace FunctionFacts

def restsOn (f : FunctionFacts) (v : Variable) : List Value :=
  match f.defUse.definingOperation? (.variable v) with
  | some (.cast _ .bitcast src) => [src]
  | some (.elementPtr _ base _ _ true) => [base]
  | some (.load _ pointer) => (Safety.storedIn? f v pointer).toList
  | some (.select _ _ onTrue onFalse) => [onTrue, onFalse]
  | _ => []

def Rests (f : FunctionFacts) (v w : Variable) : Prop := .variable w ∈ f.restsOn v

def Circular (f : FunctionFacts) : Prop := ∃ v, Relation.TransGen f.Rests v v

theorem eq_of_ofFunction {f : Function} {facts : FunctionFacts} (h : ofFunction f = .ok facts) :
    DefUse.ofFunction f = .ok facts.defUse ∧ facts.function = f := by
  obtain ⟨d, hd, h⟩ := bind_eq_ok.mp h
  obtain ⟨_, -, h⟩ := bind_eq_ok.mp h
  obtain ⟨_, -, h⟩ := bind_eq_ok.mp h
  cases h
  exact ⟨hd, DefUse.function_ofFunction hd⟩

theorem isSome_of_definingOperation? {f : FunctionFacts} {v : Variable} {o : Operation}
    (h : f.defUse.definingOperation? (.variable v) = some o) : (f.defUse.definition? v).isSome := by
  obtain ⟨i, hi, -⟩ := Option.bind_eq_some_iff.mp h
  obtain ⟨l, hl, -⟩ := Option.bind_eq_some_iff.mp hi
  exact Option.isSome_of_eq_some hl

theorem isSome_of_mem_restsOn {f : FunctionFacts} {v : Variable} {u : Value} (h : u ∈ f.restsOn v) :
    (f.defUse.definition? v).isSome := by
  cases ho : f.defUse.definingOperation? (.variable v) with
  | some o => exact isSome_of_definingOperation? ho
  | none =>
    unfold restsOn at h
    rw [ho] at h
    cases h

end FunctionFacts

namespace Safety

variable {s : Safety}

structure Knows (s : Safety) (f : FunctionFacts) : Prop where
  listed : f.function ∈ s.program.functions.values
  facts : FunctionFacts.ofFunction f.function = .ok f

theorem knows_of_ofFunction {f : FunctionFacts} {g : Function} (hg : g ∈ s.program.functions.values)
    (h : FunctionFacts.ofFunction g = .ok f) : s.Knows f := by
  have hfunction := (FunctionFacts.eq_of_ofFunction h).2
  exact ⟨hfunction ▸ hg, hfunction ▸ h⟩

inductive Asks (s : Safety) (f : FunctionFacts) (t : Trail) : Value → FunctionFacts → Trail → Value → Prop
  | rests {v : Variable} {u : Value} : u ∈ f.restsOn v → Asks s f t (.variable v) f t u
  | phi {v dst : Variable} {incoming : List (Value × Nat)} {u : Value} :
      f.defUse.definingOperation? (.variable v) = some (.phi dst incoming) → (f.function.name, v) ∉ t.phis →
        u ∈ incoming.map (·.1) → Asks s f t (.variable v) f { t with phis := (f.function.name, v) :: t.phis } u
  | argument {a : Argument} {site : CallSite} {g : FunctionFacts} {u : Value} :
      f.function.name ∉ t.functions → site ∈ s.callGraph.sitesOf f.function.name →
        s.callerFacts? { t with functions := f.function.name :: t.functions } site.caller = .ok (some g) →
          site.arguments[a.index]? = some u →
            Asks s f t (.argument a) g { t with functions := f.function.name :: t.functions } u

theorem exists_callerFacts? (consistent : ∀ g ∈ s.program.functions.values, ∀ c ∈ g.body, c.Consistent) (t : Trail)
    (caller : String) : ∃ g?, s.callerFacts? t caller = .ok g? := by
  unfold callerFacts?
  split
  · rename_i g hg
    split
    · exact ⟨_, rfl⟩
    · split
      · exact ⟨_, rfl⟩
      · exact ⟨_, rfl⟩
      · rename_i e he
        have hstops : Outcome.Stops (fun _ => False) (FunctionFacts.ofFunction g) :=
          FunctionFacts.stops_ofFunction (consistent g (Table.mem_values_of_get? hg))
        exact (hstops e he).elim
  · exact ⟨_, rfl⟩

theorem stops_step (consistent : ∀ g ∈ s.program.functions.values, ∀ c ∈ g.body, c.Consistent) {judge : Judge}
    {f : FunctionFacts} {t : Trail} {v : Value}
    (h : ∀ g t' u, s.Asks f t v g t' u → Outcome.Stops R (judge g t' u)) : Outcome.Stops R (s.step judge f t v) := by
  cases v with
  | «variable» v =>
    change Outcome.Stops R (s.ofVariable judge f t v)
    have hrests : ∀ u ∈ f.restsOn v, Outcome.Stops R (judge f t u) := fun u hu => h f t u (.rests hu)
    unfold FunctionFacts.restsOn at hrests
    unfold ofVariable
    cases ho : f.defUse.definingOperation? (.variable v) with
    | none => exact .answer _
    | some o =>
      rw [ho] at hrests
      cases o with
      | cast dst kind src =>
        cases kind with
        | bitcast => exact .bind (hrests src List.mem_cons_self) fun _ => .answer _
        | _ => exact .answer _
      | elementPtr dst base source indices inbounds =>
        cases inbounds with
        | true => exact .bind (hrests base List.mem_cons_self) fun _ => .answer _
        | false => exact .answer _
      | load dst pointer =>
        dsimp only
        split
        · rename_i stored hstored
          exact .bind (hrests stored (by simp [hstored])) fun _ => .answer _
        · exact .answer _
      | select dst condition onTrue onFalse =>
        refine .bind (.allM fun u hu => .bind (hrests u hu) fun _ => .answer _) fun _ => .answer _
      | phi dst incoming =>
        refine .branch (fun _ => .answer _) fun hnew => .bind (.allM fun u hu => ?_) fun _ => .answer _
        exact .bind (h f _ u (.phi ho hnew hu)) fun _ => .answer _
      | call dst target arguments =>
        cases target with
        | direct callee => exact .answer _
        | indirect address => exact .answer _
      | _ => exact .answer _
  | argument a =>
    refine .branch (fun _ => .answer _) fun hinside => .bind (.allM fun site hsite => ?_) fun _ => .answer _
    obtain ⟨hnew, -⟩ := not_or.mp hinside
    obtain ⟨_, hcaller⟩ := exists_callerFacts? consistent { t with functions := f.function.name :: t.functions } site.caller
    refine (Outcome.Stops.of_ok hcaller).proceed fun g? hg => ?_
    split
    · rename_i hu
      exact .bind (h _ _ _ (.argument hnew hsite hg hu)) fun _ => .answer _
    · exact .answer _
  | _ => exact .answer _

theorem callerFacts?_eq_some {t : Trail} {caller : String} {g : FunctionFacts}
    (h : s.callerFacts? t caller = .ok (some g)) :
    caller ∉ t.functions ∧ ∃ f, s.program.function? caller = some f ∧ FunctionFacts.ofFunction f = .ok g := by
  unfold callerFacts? at h
  split at h
  · rename_i f hf
    split at h
    · cases h
    · rename_i hcaller
      split at h
      · rename_i hfacts
        cases h
        exact ⟨hcaller, f, hf, hfacts⟩
      · cases h
      · cases h
  · cases h

theorem Asks.knows {f g : FunctionFacts} {t t' : Trail} {v u : Value} (h : s.Asks f t v g t' u) (hf : s.Knows f) :
    s.Knows g := by
  cases h with
  | rests => exact hf
  | phi => exact hf
  | argument _ _ hg _ =>
    obtain ⟨-, caller, hcaller, hfacts⟩ := callerFacts?_eq_some hg
    exact knows_of_ofFunction (Table.mem_values_of_get? hcaller) hfacts

def written (s : Safety) : List (String × Variable) :=
  s.program.functions.values.flatMap fun f => f.located.filterMap fun e => e.2.operation.written?.map (f.name, ·)

structure Tracks (s : Safety) (t : Trail) : Prop where
  phis : t.phis.Nodup
  written : t.phis ⊆ s.written
  functions : t.functions.Nodup
  called : t.functions ⊆ s.callGraph.sites.map (·.1)

/-- The variables that a search has come along since it last entered a phi or a function, each once. -/
structure Along (f : FunctionFacts) (path : List Variable) (v : Value) : Prop where
  nodup : path.Nodup
  written : ∀ w ∈ path, (f.defUse.definition? w).isSome
  behind : ∀ w ∈ path, ∀ x, v = .variable x → Relation.TransGen f.Rests w x

theorem Along.start (f : FunctionFacts) (v : Value) : Along f [] v where
  nodup := List.nodup_nil
  written _ h := (List.not_mem_nil h).elim
  behind _ h := (List.not_mem_nil h).elim

theorem Along.rests {f : FunctionFacts} {path : List Variable} {v : Variable} {u : Value}
    (h : Along f path (.variable v)) (acyclic : ¬ f.Circular) (hu : u ∈ f.restsOn v) : Along f (v :: path) u where
  nodup := List.nodup_cons.mpr ⟨fun hv => acyclic ⟨v, h.behind v hv v rfl⟩, h.nodup⟩
  written w hw := by
    rcases List.mem_cons.mp hw with rfl | hw
    · exact FunctionFacts.isSome_of_mem_restsOn hu
    · exact h.written w hw
  behind w hw x hx := by
    subst hx
    rcases List.mem_cons.mp hw with rfl | hw
    · exact .single hu
    · exact (h.behind w hw v rfl).tail hu

section Counts

def instructions (s : Safety) : Nat := (s.program.functions.values.flatMap Function.located).length

theorem foldl_located (l : List Function) (n : Nat) :
    l.foldl (fun n f => n + f.located.length) n = n + (l.flatMap Function.located).length := by
  induction l generalizing n with
  | nil => rfl
  | cons f rest ih =>
    rw [List.foldl_cons, ih, List.flatMap_cons, List.length_append]
    omega

theorem searchDepth_eq : s.searchDepth = (2 * s.instructions + 2) * (2 * s.instructions + 2) := by
  unfold searchDepth instructions
  simp only [foldl_located, Nat.zero_add]

theorem length_picked_le {α : Type} (pick : Function → Location × Instruction → Option α) (l : List Function) :
    (l.flatMap fun f => f.located.filterMap (pick f)).length ≤ (l.flatMap Function.located).length := by
  induction l with
  | nil => exact Nat.le_refl 0
  | cons f rest ih =>
    rw [List.flatMap_cons, List.flatMap_cons, List.length_append, List.length_append]
    exact Nat.add_le_add (List.length_filterMap_le _ _) ih

theorem mem_written {f : FunctionFacts} (hf : s.Knows f) {v : Variable} (h : (f.defUse.definition? v).isSome) :
    (f.function.name, v) ∈ s.written := by
  obtain ⟨l, hl⟩ := Option.isSome_iff_exists.mp h
  obtain ⟨i, hi, hw⟩ := (DefUse.definition?_eq_some (FunctionFacts.eq_of_ofFunction hf.facts).1).mp hl
  refine List.mem_flatMap.mpr ⟨f.function, hf.listed, List.mem_filterMap.mpr ⟨(l, i), hi, ?_⟩⟩
  rw [hw]
  rfl

theorem Tracks.length_phis {t : Trail} (h : s.Tracks t) : t.phis.length ≤ s.instructions :=
  (h.phis.length_le_of_subset h.written).trans (length_picked_le _ _)

theorem Tracks.length_functions {t : Trail} (h : s.Tracks t) (hg : s.callGraph = .ofProgram s.program) :
    t.functions.length ≤ s.instructions := by
  refine (h.functions.length_le_of_subset h.called).trans ?_
  rw [List.length_map, hg]
  exact length_picked_le (fun f e => CallGraph.siteOf f.name e.1 e.2) _

theorem Along.length_le {f : FunctionFacts} (hf : s.Knows f) {path : List Variable} {v : Value} (h : Along f path v) :
    path.length ≤ s.instructions := by
  have hnodup : (path.map (f.function.name, ·)).Nodup := h.nodup.map fun _ _ he => congrArg Prod.snd he
  have hsubset : path.map (f.function.name, ·) ⊆ s.written := fun e he => by
    obtain ⟨w, hw, rfl⟩ := List.mem_map.mp he
    exact mem_written hf (h.written w hw)
  have hlength := hnodup.length_le_of_subset hsubset
  rw [List.length_map] at hlength
  exact hlength.trans (length_picked_le _ _)

theorem Asks.tracks {f g : FunctionFacts} {t t' : Trail} {v u : Value} (h : s.Asks f t v g t' u) (hf : s.Knows f)
    (ht : s.Tracks t) : s.Tracks t' := by
  cases h with
  | rests => exact ht
  | phi ho hnew =>
    refine { ht with phis := List.nodup_cons.mpr ⟨hnew, ht.phis⟩, written := List.cons_subset.mpr ⟨?_, ht.written⟩ }
    refine mem_written hf (FunctionFacts.isSome_of_definingOperation? ho)
  | argument hnew hsite =>
    refine { ht with functions := List.nodup_cons.mpr ⟨hnew, ht.functions⟩, called := List.cons_subset.mpr ⟨?_, ht.called⟩ }
    obtain ⟨e, he, -⟩ := List.mem_map.mp hsite
    obtain ⟨he, hname⟩ := List.mem_filter.mp he
    exact List.mem_map.mpr ⟨e, he, of_decide_eq_true hname⟩

end Counts

/-- How many steps are left: a phi or a function is entered at most once for every instruction, and every time as
many variables are come along. -/
def left (s : Safety) (t : Trail) (path : List Variable) : Nat :=
  (2 * s.instructions - t.phis.length - t.functions.length) * (s.instructions + 1) + (s.instructions - path.length)

/-- A search stops for nothing but its bound. -/
theorem stops_within (consistent : ∀ g ∈ s.program.functions.values, ∀ c ∈ g.body, c.Consistent) (depth : Nat)
    (f : FunctionFacts) (t : Trail) (v : Value) : Outcome.Stops (· = .unbounded) (s.within depth f t v) := by
  induction depth generalizing f t v with
  | zero => exact .stop rfl
  | succ depth ih => exact stops_step consistent fun g t' u _ => ih g t' u

/-- Where no definitions go in a circle, a search ends within as many steps as are left. -/
theorem ends_within (consistent : ∀ g ∈ s.program.functions.values, ∀ c ∈ g.body, c.Consistent)
    (hg : s.callGraph = .ofProgram s.program) (acyclic : ∀ g, s.Knows g → ¬ g.Circular) {depth : Nat}
    {f : FunctionFacts} {t : Trail} {v : Value} {path : List Variable} (hf : s.Knows f) (ht : s.Tracks t)
    (hpath : Along f path v) (hdepth : s.left t path < depth) : Outcome.Stops R (s.within depth f t v) := by
  induction depth generalizing f t v path with
  | zero => exact absurd hdepth (Nat.not_lt_zero _)
  | succ depth ih =>
    refine stops_step consistent fun g t' u hasks => ?_
    have hg' := hasks.knows hf
    have ht' := hasks.tracks hf ht
    have hphis := ht'.length_phis
    have hfunctions := ht'.length_functions hg
    have again : t'.phis.length + t'.functions.length = t.phis.length + t.functions.length + 1 →
        s.left t' [] < depth := fun hcount => by
      have hrest : 2 * s.instructions - t.phis.length - t.functions.length =
          2 * s.instructions - t'.phis.length - t'.functions.length + 1 := by omega
      unfold left at hdepth ⊢
      rw [hrest, Nat.add_one_mul] at hdepth
      simp only [List.length_nil]
      omega
    cases hasks with
    | rests hu =>
      have hpath' := hpath.rests (acyclic f hf) hu
      have hlength := hpath'.length_le hf
      refine ih hf ht' hpath' ?_
      unfold left at hdepth ⊢
      rw [List.length_cons] at hlength ⊢
      omega
    | phi =>
      refine ih hf ht' (.start f u) (again ?_)
      simp only [List.length_cons]
      omega
    | argument =>
      refine ih hg' ht' (.start g u) (again ?_)
      simp only [List.length_cons]
      omega

/-- The search for why a pointer is safe ends, unless in some function what a variable comes from goes in a circle. -/
theorem stops_judge (consistent : ∀ g ∈ s.program.functions.values, ∀ c ∈ g.body, c.Consistent)
    (hg : s.callGraph = .ofProgram s.program) {f : FunctionFacts} (hf : s.Knows f) (pointer : Value) :
    Outcome.Stops (fun e => e = .unbounded ∧ ∃ g, s.Knows g ∧ g.Circular) (s.judge f pointer) := by
  by_cases hcircular : ∃ g, s.Knows g ∧ g.Circular
  · exact (stops_within consistent _ _ _ _).mono fun e he => ⟨he, hcircular⟩
  · have ht : s.Tracks ⟨[], []⟩ := ⟨List.nodup_nil, List.nil_subset _, List.nodup_nil, List.nil_subset _⟩
    refine ends_within consistent hg (fun g hg hc => hcircular ⟨g, hg, hc⟩) hf ht (.start f pointer) ?_
    rw [searchDepth_eq]
    unfold left
    simp only [List.length_nil, Nat.sub_zero]
    generalize s.instructions = n
    have hsquare : (2 * n + 2) * (2 * n + 2) = (2 * n + 2) * (n + 1) + (2 * n + 2) * (n + 1) := by
      rw [← Nat.mul_add]
      congr 1
      omega
    have hcounted : 2 * n * (n + 1) ≤ (2 * n + 2) * (n + 1) := Nat.mul_le_mul_right _ (by omega)
    have hpath : n + 1 ≤ (2 * n + 2) * (n + 1) := Nat.le_mul_of_pos_left _ (by omega)
    omega

end Safety

end RegionGuard

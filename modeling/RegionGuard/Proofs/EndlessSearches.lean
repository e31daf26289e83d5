import RegionGuard.Proofs.Comparisons
import RegionGuard.Proofs.EndingPasses
set_option autoImplicit false

/-!
# Searches that never end

In a verified function the definition of a variable comes after what its safety rests on, wherever control gets. So
guards are decided, and a deeper search finds out no more, unless definitions go in a circle in blocks that control
does not get to: nothing is in front of anything else there. Casts in a circle are searched without an end.
-/

namespace RegionGuard

/-- A result is that of a search that ran into its bound, or it is an answer and the same as another result. -/
def Outcome.Approximates {α : Type} (x y : Outcome α) : Prop :=
  x = .error (.fatal .unbounded) ∨ ∃ a, x = .ok a ∧ y = .ok a

namespace Outcome.Approximates

variable {α β : Type} {x y : Outcome α}

theorem of_ok {a : α} (h : x = .ok a) : Approximates x x := .inr ⟨a, h, h⟩

theorem answer (a : α) : Approximates (pure a : Outcome α) (pure a) := of_ok rfl

theorem bind {f g : α → Outcome β} (hxy : Approximates x y) (hfg : ∀ a, Approximates (f a) (g a)) :
    Approximates (x >>= f) (y >>= g) := by
  rcases hxy with rfl | ⟨a, rfl, rfl⟩
  · exact .inl rfl
  · exact hfg a

theorem allM {l : List α} {f g : α → Outcome Bool} (h : ∀ a, Approximates (f a) (g a)) :
    Approximates (l.allM f) (l.allM g) := by
  induction l with
  | nil => exact .answer _
  | cons a rest ih =>
    refine .bind (h a) fun b => ?_
    cases b with
    | true => exact ih
    | false => exact .answer _

end Outcome.Approximates

namespace Safety

variable {s : Safety}

theorem approximates_step (consistent : ∀ g ∈ s.program.functions.values, ∀ c ∈ g.body, c.Consistent)
    {judge judge' : Judge} (h : ∀ g t u, (judge g t u).Approximates (judge' g t u)) (f : FunctionFacts) (t : Trail)
    (v : Value) : (s.step judge f t v).Approximates (s.step judge' f t v) := by
  have hrests : ∀ reason u, (restsOn reason (judge f t u)).Approximates (restsOn reason (judge' f t u)) :=
    fun _ u => .bind (h f t u) fun _ => .answer _
  have hall : ∀ t' l, (allSafe (judge f t') l).Approximates (allSafe (judge' f t') l) :=
    fun t' _ => .bind (.allM fun u => .bind (h f t' u) fun _ => .answer _) fun _ => .answer _
  cases v with
  | «variable» v =>
    change (s.ofVariable judge f t v).Approximates (s.ofVariable judge' f t v)
    unfold ofVariable
    split
    · exact .answer _
    · exact .answer _
    · exact hrests _ _
    · exact hrests _ _
    · split
      · exact hrests _ _
      · exact .answer _
    · exact hall t _
    · unfold ofPhi
      dsimp only
      split
      · exact .answer _
      · exact hall _ _
    · exact .answer _
  | argument a =>
    change (s.ofArgument judge f t a.index).Approximates (s.ofArgument judge' f t a.index)
    unfold ofArgument
    dsimp only
    split
    · exact .answer _
    · refine .bind (.allM fun site => ?_) fun _ => .answer _
      obtain ⟨_, hcaller⟩ :=
        exists_callerFacts? consistent { t with functions := f.function.name :: t.functions } site.caller
      refine .bind (.of_ok hcaller) fun g? => ?_
      split
      · exact .bind (h _ _ _) fun _ => .answer _
      · exact .answer _
  | _ => exact .answer _

theorem approximates_within (consistent : ∀ g ∈ s.program.functions.values, ∀ c ∈ g.body, c.Consistent)
    (depth more : Nat) (f : FunctionFacts) (t : Trail) (v : Value) :
    (s.within depth f t v).Approximates (s.within (depth + more) f t v) := by
  induction depth generalizing f t v with
  | zero => exact .inl rfl
  | succ depth ih =>
    rw [Nat.add_right_comm]
    exact approximates_step consistent ih f t v

/-- A judgement that does not run into the bound of the search is an answer, whatever greater bound there might be. -/
theorem exists_judge (consistent : ∀ g ∈ s.program.functions.values, ∀ c ∈ g.body, c.Consistent) {f : FunctionFacts}
    {pointer : Value} (h : s.judge f pointer ≠ .error (.fatal .unbounded)) :
    ∃ reason?, ∀ depth, s.searchDepth ≤ depth → s.within depth f ⟨[], []⟩ pointer = .ok reason? := by
  obtain ⟨reason?, hjudge, -⟩ := (approximates_within consistent s.searchDepth 0 f ⟨[], []⟩ pointer).resolve_left h
  refine ⟨reason?, fun depth hdepth => ?_⟩
  obtain ⟨more, rfl⟩ := Nat.exists_eq_add_of_le hdepth
  obtain ⟨a, ha, hmore⟩ := (approximates_within consistent s.searchDepth more f ⟨[], []⟩ pointer).resolve_left h
  cases hjudge.symm.trans ha
  exact hmore

end Safety

namespace FunctionFacts

variable {f : FunctionFacts} {c : FlowGraph} {entry : Nat} {v w : Variable}

theorem Rests.exists_operation (h : f.Rests v w) :
    ∃ o, f.defUse.definingOperation? (.variable v) = some o ∧ o.isPhi = false ∧
      (.variable w ∈ o.reads ∨ ∃ pointer, Safety.storedIn? f v pointer = some (.variable w)) := by
  unfold Rests restsOn at h
  split at h
  · rename_i ho
    exact ⟨_, ho, rfl, .inl h⟩
  · rename_i ho
    exact ⟨_, ho, rfl, .inl (List.mem_cons.mpr (.inl (List.mem_singleton.mp h)))⟩
  · rename_i pointer ho
    exact ⟨_, ho, rfl, .inr ⟨pointer, Option.mem_toList.mp h⟩⟩
  · rename_i ho
    exact ⟨_, ho, rfl, .inl (List.mem_cons_of_mem _ h)⟩
  · cases h

section Verified

variable (verified : f.function.Verified c f.defUse entry)
  (hdominators : f.dominators = ⟨entry, c.graph.treeDominators entry⟩) {place : Location} {b : Block} {n : Nat}
  (hb : c.block place.block = .ok b) (hn : b.position? place.instruction = some n)
  (hreached : c.graph.IsReached entry place.block)

include verified hdominators hb hn hreached

/-- What runs before an instruction is known in front of it. -/
theorem available_of_dominates {first : Location} (h : f.dominates first place = true) :
    c.Available entry first place.block n := by
  unfold dominates at h
  unfold FlowGraph.Available
  split at h
  · rename_i heq
    rw [if_pos heq]
    split at h
    · rename_i b' hb'
      obtain ⟨c', hc', hb'⟩ := Option.bind_eq_some_iff.mp hb'
      cases verified.body.symm.trans hc'
      rw [heq] at hb'
      cases hb.symm.trans (toOption_eq_some.mp hb')
      unfold precedes at h
      split at h
      · rename_i m n' hm hn'
        cases hn.symm.trans hn'
        exact ⟨b, m, hb, hm, of_decide_eq_true h⟩
      · cases h
    · cases h
  · rename_i hne
    rw [if_neg hne]
    rw [hdominators, verified.built.wired.dominates_treeDominators] at h
    rcases h with ⟨-, h⟩ | ⟨hnot, -⟩
    · exact h
    · exact absurd hreached hnot

/-- What the safety of a variable rests on is known in front of the definition, if control gets there. -/
theorem Rests.available (h : f.Rests v w) (hplace : f.defUse.definition? v = some place) :
    ∃ origin, f.defUse.definition? w = some origin ∧ c.Available entry origin place.block n := by
  obtain ⟨o, ho, notPhi, hread | ⟨pointer, hstored⟩⟩ := h.exists_operation
  · obtain ⟨b', n', i, hb', hn', hi, -, rfl⟩ := verified.defining hplace ho
    cases hb.symm.trans hb'
    cases hn.symm.trans hn'
    obtain ⟨origin, horigin, hread⟩ := verified.reads place.block b n i hb hi notPhi w hread
    exact ⟨origin, horigin, hread hreached⟩
  · obtain ⟨store, load, i, hload, hdominates, hi, ho⟩ := Safety.exists_of_storedIn? hstored
    cases hplace.symm.trans hload
    have hstore := available_of_dominates verified hdominators hb hn hreached hdominates
    obtain ⟨b', m, hb', hm, hi, -⟩ := verified.standing hi
    obtain ⟨origin, horigin, hread⟩ := verified.reads store.block b' m i hb' hi (by rw [ho]; rfl) w
      (by rw [ho]; exact List.mem_cons_of_mem _ List.mem_cons_self)
    exact ⟨origin, horigin, (hread (hstore.reached hreached)).trans verified.built.wired hb' hm hstore hreached⟩

/-- All that the safety of a variable rests on in the end is known in front of the definition, if control gets
there. -/
theorem available_of_transGen (h : Relation.TransGen f.Rests v w) (hplace : f.defUse.definition? v = some place) :
    ∃ origin, f.defUse.definition? w = some origin ∧ c.Available entry origin place.block n := by
  induction h with
  | single h => exact h.available verified hdominators hb hn hreached hplace
  | tail _ h ih =>
    obtain ⟨middle, hmiddle, havailable⟩ := ih
    obtain ⟨b', m, hb', hm⟩ := verified.position hmiddle
    obtain ⟨origin, horigin, hlast⟩ := h.available verified hdominators hb' hm (havailable.reached hreached) hmiddle
    exact ⟨origin, horigin, hlast.trans verified.built.wired hb' hm havailable hreached⟩

end Verified

/-- The safety of a variable rests on itself, and control does not get to where the variable is defined. -/
def CircularOutOfReach (f : FunctionFacts) : Prop :=
  ∃ v place, Relation.TransGen f.Rests v v ∧ f.defUse.definition? v = some place ∧
    ∀ c ∈ f.function.body, ∀ entry ∈ c.entry, ¬ c.graph.IsReached entry place.block

/-- Definitions go in a circle only where control does not get. -/
theorem Circular.outOfReach (h : f.Circular) (verified : f.function.Verified c f.defUse entry)
    (hdominators : f.dominators = ⟨entry, c.graph.treeDominators entry⟩) : f.CircularOutOfReach := by
  obtain ⟨v, hv⟩ := h
  obtain ⟨w, hw, -⟩ := Relation.TransGen.head'_iff.mp hv
  obtain ⟨place, hplace⟩ := Option.isSome_iff_exists.mp (isSome_of_mem_restsOn hw)
  refine ⟨v, place, hv, hplace, fun c' hc' entry' hentry' hreached => ?_⟩
  cases verified.body.symm.trans hc'
  cases verified.starts.symm.trans hentry'
  obtain ⟨b, n, hb, hn⟩ := verified.position hplace
  obtain ⟨origin, horigin, havailable⟩ := available_of_transGen verified hdominators hb hn hreached hv hplace
  cases hplace.symm.trans horigin
  unfold FlowGraph.Available at havailable
  rw [if_pos rfl] at havailable
  obtain ⟨b', n', hb', hn', hlt⟩ := havailable
  cases hb.symm.trans hb'
  cases hn.symm.trans hn'
  exact Nat.lt_irrefl n hlt

end FunctionFacts

/-- What the search for safe pointers goes by when the guards of a program are decided. -/
def Program.safety (p : Program) (c : Configuration) : Safety := ⟨p, .ofProgram p, c⟩

def Program.facts? (p : Program) (name : String) : Option FunctionFacts :=
  (p.function? name).bind fun f => (FunctionFacts.ofFunction f).toOption

def Program.reachesAll (p : Program) : Bool :=
  p.functions.values.all fun f => f.body.all fun c => c.entry.all fun entry =>
    (c.graph.reversePostOrder entry).toOption.any fun order => c.graph.vertices.keys.all order.contains

namespace Safety.Knows

variable {s : Safety} {f : FunctionFacts}

theorem of_facts? {name : String} (h : s.program.facts? name = some f) : s.Knows f := by
  obtain ⟨g, hg, hf⟩ := Option.bind_eq_some_iff.mp h
  exact knows_of_ofFunction (Table.mem_values_of_get? hg) (toOption_eq_some.mp hf)

theorem verified (known : s.Knows f) (made : s.program.Made) (verified : s.program.verify = .ok ()) :
    ∃ c entry, f.function.Verified c f.defUse entry ∧ f.dominators = ⟨entry, c.graph.treeDominators entry⟩ := by
  obtain ⟨name, hname⟩ := Table.mem_values_iff.mp known.listed
  obtain ⟨d, hd, h⟩ := bind_eq_ok.mp known.facts
  obtain ⟨c, hc, h⟩ := bind_eq_ok.mp h
  obtain ⟨dominators, hdominators, h⟩ := bind_eq_ok.mp h
  have hbody := orRaise_eq_ok.mp hc
  obtain ⟨d', entry, hverified⟩ := Program.verified_of_verify made verified hname hbody
  cases hd.symm.trans hverified.definitions
  have heq := FlowGraph.eq_of_dominators hverified.built.wired hverified.starts hverified.vertex hdominators
  have hf := Except.ok.inj h
  have hdefUse : f.defUse = d := by rw [← hf]
  exact ⟨c, entry, hdefUse ▸ hverified, by rw [← hf, ← heq]⟩

theorem outOfReach (known : s.Knows f) (made : s.program.Made) (verified : s.program.verify = .ok ())
    (h : f.Circular) : f.CircularOutOfReach := by
  obtain ⟨c, entry, hverified, hdominators⟩ := known.verified made verified
  exact h.outOfReach hverified hdominators

/-- No definitions go in a circle out of control's reach where nothing is out of its reach. -/
theorem not_outOfReach (known : s.Knows f) (made : s.program.Made) (verified : s.program.verify = .ok ())
    (hreached : s.program.reachesAll) : ¬ f.CircularOutOfReach := by
  rintro ⟨v, place, -, hplace, hout⟩
  obtain ⟨c, entry, hverified, -⟩ := known.verified made verified
  obtain ⟨b, n, hb, -⟩ := hverified.position hplace
  have hbody := List.all_eq_true.mp hreached f.function known.listed
  rw [hverified.body, Option.all_some, hverified.starts, Option.all_some] at hbody
  obtain ⟨order, horder, hall⟩ := (Option.any_eq_true ..).mp hbody
  have hkey := Table.mem_keys_iff.mpr (Option.isSome_of_eq_some (FlowGraph.block_eq_ok.mp hb))
  have hmem := List.contains_iff_mem.mp (List.all_eq_true.mp hall _ hkey)
  exact hout c hverified.body entry hverified.starts (hverified.built.wired.reached_iff.mpr
    (((Graph.reversePostOrder_ok (toOption_eq_some.mp horder)).2 _).mp hmem))

end Safety.Knows

/-- Guards of a verified program are decided without a stop, but for sizes that overflow and for definitions in a
circle in blocks that control does not get to. Where there is no such circle every search comes to an answer, and to no
other one however deep it may go. -/
theorem Program.decideGuards_ends {p : Program} (made : p.Made) (verified : p.verify = .ok ()) (c : Configuration) :
    Outcome.Stops (fun e => e = .overflow ∨ e = .unbounded ∧ ∃ f, (p.safety c).Knows f ∧ f.CircularOutOfReach)
        (p.decideGuards c) ∧
      ((∀ f, (p.safety c).Knows f → ¬ f.CircularOutOfReach) → ∀ f, (p.safety c).Knows f → ∀ pointer, ∃ reason?,
        ∀ depth, (p.safety c).searchDepth ≤ depth → (p.safety c).within depth f ⟨[], []⟩ pointer = .ok reason?) := by
  constructor
  · refine stops_decideGuards (.inl rfl) made.consistent fun ⟨f, known, h⟩ => ?_
    exact .inr ⟨rfl, f, known, known.outOfReach made verified h⟩
  · intro hnone f known pointer
    refine Safety.exists_judge (s := p.safety c) made.consistent fun hbound => ?_
    obtain ⟨-, g, hknown, hcircular⟩ := Safety.stops_judge (s := p.safety c) made.consistent rfl known pointer _ hbound
    exact absurd (hknown.outOfReach made verified hcircular) (hnone g hknown)

/-- A loop that steps through memory, from what it has been called with and what it keeps in a slot. -/
def stepThrough : Function :=
  let pointer (v : String) : Value := .variable ⟨v, .pointer⟩
  let first : Value := .variable ⟨"first", .integer 1⟩
  let base : Argument := ⟨0, "base", .pointer⟩
  .ofCode "stepThrough" [base]
    [[.alloca ⟨"slot", .pointer⟩ .pointer (.ofWord 1 64), .store (pointer "slot") (.argument base)],
      [.phi ⟨"p", .pointer⟩ [(.argument base, 0), (pointer "next", 1)],
        .load ⟨"kept", .pointer⟩ (pointer "slot"),
        .compare ⟨"first", .integer 1⟩ .eq (pointer "p") (pointer "kept"),
        .select ⟨"q", .pointer⟩ first (pointer "kept") (pointer "p"),
        .load ⟨"x", .integer 64⟩ (pointer "q"),
        .elementPtr ⟨"next", .pointer⟩ (pointer "q") (.integer 64) [.ofWord 1 64] true],
      [.ret none]]
    [(0, 1, none), (1, 1, some (.isTrue first)), (1, 2, some (.isFalse first))]

def stepsThrough : Program :=
  let cells : Variable := ⟨"cells", .pointer⟩
  .ofFunctions [
    .ofCode "main" [] [[.alloca cells (.array (.integer 64) 4) (.ofWord 1 64),
      .call none (.direct "stepThrough") [.variable cells], .ret none]] [],
    { stepThrough with linkage := .internal }]

theorem Program.made_stepsThrough : stepsThrough.Made := made_of_ofFunctions fun f hf => by
  rcases List.mem_cons.mp hf with rfl | hf
  · exact Function.made_of_ofCode
  · cases List.mem_singleton.mp hf
    change ∀ c ∈ stepThrough.body, c.Made
    exact Function.made_of_ofCode

theorem Program.decideGuards_ends_stepsThrough :
    stepsThrough.Made ∧ stepsThrough.verify = .ok () ∧
      (∀ f, (stepsThrough.safety .default).Knows f → ¬ f.CircularOutOfReach) ∧
      ∃ f, (stepsThrough.safety .default).Knows f ∧ ∀ depth, (stepsThrough.safety .default).searchDepth ≤ depth →
        (stepsThrough.safety .default).within depth f ⟨[], []⟩ (.variable ⟨"q", .pointer⟩) = .ok (some .derived) := by
  have made := made_stepsThrough
  have verified : stepsThrough.verify = .ok () := by decide +kernel
  have hnone : ∀ f, (stepsThrough.safety .default).Knows f → ¬ f.CircularOutOfReach := fun f known =>
    known.not_outOfReach made verified (by decide +kernel)
  have hjudge : (stepsThrough.facts? "stepThrough").any fun f =>
      (stepsThrough.safety .default).judge f (.variable ⟨"q", .pointer⟩) = .ok (some .derived) := by
    decide +kernel
  obtain ⟨f, hf, hjudge⟩ := (Option.any_eq_true ..).mp hjudge
  have known : (stepsThrough.safety .default).Knows f := .of_facts? hf
  refine ⟨made, verified, hnone, f, known, fun depth hdepth => ?_⟩
  obtain ⟨reason?, hends⟩ := (decideGuards_ends made verified .default).2 hnone f known (.variable ⟨"q", .pointer⟩)
  have hdecided := (hends _ (Nat.le_refl _)).symm.trans (of_decide_eq_true hjudge)
  exact (hends depth hdepth).trans hdecided

namespace Safety

variable {s : Safety}

theorem within_of_casts {f : FunctionFacts} {t : Trail} {P : Variable → Prop}
    (hcasts : ∀ v, P v → ∃ dst w,
      f.defUse.definingOperation? (.variable v) = some (.cast dst .bitcast (.variable w)) ∧ P w)
    (depth : Nat) {v : Variable} (hv : P v) : s.within depth f t (.variable v) = .error (.fatal .unbounded) := by
  induction depth generalizing v with
  | zero => rfl
  | succ depth ih =>
    obtain ⟨dst, w, ho, hw⟩ := hcasts v hv
    change s.ofVariable (s.within depth) f t v = _
    unfold ofVariable
    rw [ho]
    change restsOn .derived (s.within depth f t (.variable w)) = _
    rw [ih hw]
    rfl

end Safety

def castsInCircle : Program :=
  let x : Variable := ⟨"x", .pointer⟩
  let y : Variable := ⟨"y", .pointer⟩
  .ofFunctions [.ofCode "main" []
    [[.ret none],
      [.cast x .bitcast (.variable y), .cast y .bitcast (.variable x), .load ⟨"v", .integer 64⟩ (.variable x), .ret none]]
    []]

/-- A program that is verified, although the search for what a pointer comes from goes on past every depth. -/
theorem Program.decideGuards_castsInCircle :
    castsInCircle.Made ∧ castsInCircle.verify = .ok () ∧
      castsInCircle.decideGuards .default = .error (.fatal .unbounded) ∧
      ∃ f, (castsInCircle.safety .default).Knows f ∧ ∀ depth, (castsInCircle.safety .default).within depth f ⟨[], []⟩
        (.variable ⟨"x", .pointer⟩) = .error (.fatal .unbounded) := by
  have made : castsInCircle.Made := made_of_ofFunctions fun f hf => by
    cases List.mem_singleton.mp hf
    exact Function.made_of_ofCode
  have hmain : (castsInCircle.facts? "main").any fun f =>
      f.defUse.definingOperation? (.variable ⟨"x", .pointer⟩) =
          some (.cast ⟨"x", .pointer⟩ .bitcast (.variable ⟨"y", .pointer⟩)) ∧
        f.defUse.definingOperation? (.variable ⟨"y", .pointer⟩) =
          some (.cast ⟨"y", .pointer⟩ .bitcast (.variable ⟨"x", .pointer⟩)) := by
    decide +kernel
  obtain ⟨f, hf, hmain⟩ := (Option.any_eq_true ..).mp hmain
  obtain ⟨hx, hy⟩ := of_decide_eq_true hmain
  refine ⟨made, by decide +kernel, by decide +kernel, f, .of_facts? hf, fun depth => ?_⟩
  refine Safety.within_of_casts (P := fun v => v = ⟨"x", .pointer⟩ ∨ v = ⟨"y", .pointer⟩) (fun v hv => ?_) depth
    (.inl rfl)
  rcases hv with rfl | rfl
  · exact ⟨_, _, hx, .inr rfl⟩
  · exact ⟨_, _, hy, .inl rfl⟩

end RegionGuard

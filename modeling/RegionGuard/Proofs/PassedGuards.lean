import Mathlib.Data.List.Pairwise
import RegionGuard.Proofs.HoistedGuards
import RegionGuard.Proofs.Lockstep
import RegionGuard.Proofs.Repetition
import RegionGuard.Proofs.WellFormedness
import RegionGuard.Proofs.Waypoints
set_option autoImplicit false

namespace RegionGuard

open FlowGraph

namespace GuardDecision

variable {h : Hooks} {root pre : Nat} {forest : LoopForest} {ds : List GuardDecision} {body c : FlowGraph} {hoisted : Hoisted}
  {l : NaturalLoop} {exits : Nat → Edge → Prop}

/-- Control comes to a loop, and to the new blocks in front of it, from outside over the edges that they are screened by. -/
theorem Fronted.gated (g : Fronted h root forest ds body hoisted c) (hl : l ∈ forest.toList) (hpre : l.preheader = some pre)
    (hne : l.header ≠ root) (hroot : root < body.nextBlock)
    (screens : c.Screens body.nextBlock exits (hoisted.entrance l.header pre)) :
    ∃ inner, c.Gated root inner exits ∧ ∀ k, (inner k → k < body.nextBlock → body.graph.Inside root l.header k) ∧
      (k < body.nextBlock → body.graph.Inside root l.header k → inner k) := by
  obtain ⟨behind, new, closed, opens⟩ := screens
  have entering := g.entered.entering l hl pre hpre
  have below : ∀ k, behind k → ¬ k < body.nextBlock := fun k hk => Nat.not_lt_of_le (new k hk).1
  refine ⟨fun k => c.graph.Inside root l.header k ∨ behind k,
    ⟨g.entered.simple.wired, g.filed, g.entered.simple.simplified.entry, ?_, fun y k e hreached hedge hinner hnot => ?_⟩,
    fun k => ⟨fun hinner hk => ?_, fun hk hinside => .inl ((g.inside l hl pre hpre k hk).mpr hinside)⟩⟩
  · rintro (hinside | hbehind)
    · exact hne (List.mem_singleton.mp (hinside.dominates _ .start))
    · exact below root hbehind hroot
  · have hsome : (c.graph.edges.get? (y, k)).isSome := by rw [hedge]; rfl
    rcases hinner with hinside | hbehind
    · by_cases hheader : k = l.header
      · rcases entering.only y (hheader ▸ hsome) with hfrom | rfl
        · exact absurd (.inl hfrom) hnot
        · exact opens.elim (fun hbehind => absurd (.inr hbehind) hnot) fun hexits => hexits e
      · exact absurd (.inl (.ahead hinside hheader hsome hreached)) hnot
    · exact (closed y k e hedge hbehind).resolve_left fun hfrom => hnot (.inr hfrom)
  · exact (g.inside l hl pre hpre k hk).mp (hinner.resolve_right fun hbehind => below k hbehind hk)

end GuardDecision

namespace Program

variable {p : Program} {c : Configuration} {f g : Function} {r : GuardReport} {body : FlowGraph} {root n : Nat}

end Program

namespace Activation

variable {x : Image} {a b : Activation} {l : List Instruction} {v : Value} {n : Nat}

theorem spared_of_avoids (hv : v.Avoids n) (hl : ∀ i ∈ l, ∀ y ∈ i.operation.written?, y.IsUpcoming n) : Spared v l := by
  rintro y rfl i hi u hu hname
  obtain ⟨k, hk, htemp⟩ := hl i hi u hu
  exact hv y rfl ⟨k, hk, hname.symm.trans htemp⟩

/-- What comes to stand behind a guard writes other temporaries. -/
theorem isUpcoming_of_trails {h : Hooks} {i : Instruction} (hi : i.Trails h n) : ∀ y ∈ i.operation.written?, y.IsUpcoming n := by
  intro y hy
  rcases hi with hreturn | ⟨dst, hdst, hup⟩ | ⟨name, -, arguments, ho⟩
  · cases ho : i.operation with
    | ret value =>
      rw [ho] at hy
      cases hy
    | _ =>
      rw [ho] at hreturn
      cases hreturn
  · rw [Operation.written?_of_computes? hdst] at hy
    cases hy
    exact hup
  · rw [ho] at hy
    cases hy

theorem Executes.eq_of_nil (h : Executes x b l a) (hl : l = []) : a = b := by
  cases h with
  | here => rfl
  | next => exact absurd hl (List.append_ne_nil_of_right_ne_nil _ (List.cons_ne_nil _ _))

theorem Executes.exists_computed (h : Executes x b l a) {i : Instruction} {rest : List Instruction} (hl : l = i :: rest)
    {dst : Variable} (hdst : i.operation.computes? = some dst) :
    ∃ m r, m.image = x ∧ computed? m b i.operation = some (dst, .ok r) := by
  induction h generalizing rest with
  | here => cases hl
  | @next l rest' i' m a a' before image remaining performs ih =>
    cases l with
    | nil =>
      cases hl
      obtain rfl := before.eq_of_nil rfl
      obtain ⟨r, hr, -⟩ := performs.computes dst hdst
      exact ⟨m, r, image, hr⟩
    | cons j l =>
      cases hl
      exact ih rfl

end Activation

namespace Processor

variable {t : Task} {function : String} {arguments : List Word} {s₀ u : Processor} {steps k : Nat} {a b : Activation}
  {j older newer : Journey} {v : Value} {access : Access}

/-- Some steps into a run, and before others, the innermost call has stood in a state of its journey. -/
structure Stood (t : Task) (function : String) (arguments : List Word) (s₀ : Processor) (steps : Nat) (j : Journey) (k : Nat)
    (u : Processor) (b : Activation) (older : Journey) : Prop where
  before : b :: older <:+ j
  earlier : k < steps
  travels : Travels t function arguments s₀ k u b older

theorem Travels.stood (h : Travels t function arguments s₀ steps u a j) (hsplit : j = newer ++ b :: older) :
    ∃ k v, Stood t function arguments s₀ steps j k v b older := by
  obtain ⟨k, hk, v, htravels, -⟩ := h.earlier hsplit
  exact ⟨k, v, ⟨newer, hsplit.symm⟩, hk, htravels⟩

/-- Behind each part of the block that it had run then, the call had stood before that. -/
theorem Stood.waypoint (h : Stood t function arguments s₀ steps j k u b older) {front mid : List Instruction}
    (hplaced : b.Placed (front ++ mid)) (hmid : ∀ i ∈ mid, i.operation.isPhi = false) :
    ∃ k' u' b' older', Stood t function arguments s₀ steps j k' u' b' older' ∧ b'.Placed front ∧ b'.body = b.body ∧
      b'.Executes s₀.machine.image mid b := by
  obtain ⟨newer, b', older', k', u', hsplit, hk', htravels, -, hplaced', hexecutes⟩ := h.travels.waypoint hplaced hmid
  obtain ⟨-, hbody, -⟩ := hexecutes.fixed
  exact ⟨k', u', b', older', ⟨.trans ⟨newer, hsplit.symm⟩ h.before, Nat.lt_of_le_of_lt hk' h.earlier, htravels⟩, hplaced',
    hbody.symm, h.travels.comes.image ▸ hexecutes⟩

theorem Stood.hosted (h : Stood t function arguments s₀ steps j k u b older) {hooks : Hooks} {n : Nat} {code : List Operation}
    (hosts : b.body.Hosts hooks n b.block code) (inner : ∀ o ∈ code, o.IsInner) (ended : b.remaining = []) :
    ∃ k' u' b' older' front new, Stood t function arguments s₀ steps j k' u' b' older' ∧ b'.Placed (front ++ new) ∧
      (∀ i ∈ new, i.isInjected = true ∧ i.operation.isPhi = false) ∧ new.map (·.operation) = code ∧
      ∀ v, v.Avoids n → ∀ m, b.value m v = b'.value m v := by
  obtain ⟨y, hy, front, new, back, hinstructions, -, injected, hoperations, htrails⟩ := hosts.frames
  have hplaced : b.Placed ((front ++ new) ++ back) := ⟨y, hy, by rw [hinstructions, ended, List.append_nil, List.append_assoc]⟩
  obtain ⟨k', u', b', older', hstood, hplaced', -, hexecutes⟩ := h.waypoint hplaced fun i hi => (htrails i hi).notPhi
  refine ⟨k', u', b', older', front, new, hstood, hplaced', fun i hi => ⟨injected i hi, ?_⟩, hoperations,
    fun v hv => hexecutes.value_eq ?_⟩
  · exact (inner _ (hoperations ▸ List.mem_map_of_mem hi)).2.2
  · exact Activation.spared_of_avoids hv fun i hi => Activation.isUpcoming_of_trails (htrails i hi)

/-- A call that was right behind an injected guard of a pointer was permitted the address that it guarded. -/
structure Clears (h : Hooks) (u : Processor) (b : Activation) (v : Value) (access : Access) (place : Word) : Prop where
  behind : ∃ front x y temp, b.Placed (front ++ [x, y]) ∧ x.isInjected = true ∧ y.isInjected = true ∧
    x.TakesAddress temp v ∧ y.Validates h temp access
  word : b.word u.machine v = .ok place
  permits : u.machine.permits place access = true

def Cleared (t : Task) (function : String) (arguments : List Word) (s₀ : Processor) (steps : Nat) (j : Journey) (v : Value)
    (access : Access) (place : Word) : Prop :=
  ∃ k u b older, Stood t function arguments s₀ steps j k u b older ∧ Clears t.configuration.hooks u b v access place

/-- Guards of the first and of the last address of a range have run on a journey, as the addresses were reckoned there, and
have let both pass. -/
def ClearedRange (t : Task) (function : String) (arguments : List Word) (s₀ : Processor) (steps : Nat) (j : Journey)
    (plan : RangePlan) (access : Access) : Prop :=
  ∃ k u b older c c' first last code b' x y, Stood t function arguments s₀ steps j k u b older ∧
    (GuardCode.ends plan).collect.run c = .ok (((first, last), code), c') ∧ b.Computes u.machine code b' ∧
    b'.word u.machine first = .ok x ∧ b'.word u.machine last = .ok y ∧
    Cleared t function arguments s₀ steps j first access x ∧ Cleared t function arguments s₀ steps j last access y

def Declined (t : Task) (function : String) (arguments : List Word) (s₀ : Processor) (steps : Nat) (j : Journey)
    (plan : RangePlan) : Prop :=
  ∃ k u b older i rest test x y, Stood t function arguments s₀ steps j k u b older ∧ b.remaining = i :: rest ∧
    i.isInjected = true ∧ i.operation = .compare test plan.predicate plan.start plan.bound ∧
    b.value u.machine plan.start = .ok x ∧ b.value u.machine plan.bound = .ok y ∧
    Evaluation.holds plan.predicate x y = false

theorem Stood.clears (distinct : t.configuration.hooks.names.Nodup) (h : Stood t function arguments s₀ steps j k u b older)
    {front new : List Instruction} {number : Nat} (hplaced : b.Placed (front ++ new))
    (injected : ∀ i ∈ new, i.isInjected = true ∧ i.operation.isPhi = false)
    (hnew : new.map (·.operation) = GuardCode.guards t.configuration.hooks v access number) (avoids : v.Avoids number) :
    ∃ place, Clears t.configuration.hooks u b v access place := by
  have spared : Activation.Spared v new := Activation.spared_of_avoids avoids fun i hi =>
    Activation.isUpcoming_of_trails (h := t.configuration.hooks) (.inr (GuardCode.isGuarding_of_mem (Nat.le_refl _)
      (hnew ▸ List.mem_map_of_mem hi)))
  obtain ⟨_, _, b', _, -, -, -, hexecutes⟩ := h.waypoint hplaced fun i hi => (injected i hi).2
  obtain ⟨x, rest, rfl, hx, hrest⟩ := List.map_eq_cons_iff.mp hnew
  obtain ⟨y, rest, rfl, hy, hrest⟩ := List.map_eq_cons_iff.mp hrest
  obtain rfl := List.map_eq_nil_iff.mp hrest
  obtain ⟨m, r, himage, hr⟩ := hexecutes.exists_computed rfl (by rw [hx]; rfl)
  rw [hx] at hr
  obtain ⟨w, hw, -⟩ := bind_eq_ok.mp (Prod.mk.inj (Option.some.inj hr)).2
  have hword : b.word u.machine v = .ok w.value := by
    refine Activation.word_eq_ok.mpr ⟨w, ?_, rfl⟩
    rw [hexecutes.value_eq spared, ← hw]
    exact Activation.value_image (h.travels.comes.image.trans himage.symm) _ _
  obtain ⟨callers, hcalls⟩ := h.travels.innermost
  obtain ⟨kind, m₀, hm₀, hstart⟩ := h.travels.comes.started
  obtain ⟨image, hvouched⟩ := vouched_of_reached distinct ⟨kind, m₀, s₀, k, hm₀, hstart, h.travels.comes.after⟩
  obtain ⟨done, hdone, hvouched⟩ := hvouched.innermost b callers hcalls
  have hdone := hdone.front_eq hplaced
  exact ⟨w.value, ⟨front, x, y, _, hplaced, (injected x List.mem_cons_self).1,
    (injected y (List.mem_cons_of_mem _ List.mem_cons_self)).1, ⟨hx, rfl⟩, hy⟩, hword,
    hvouched.permission front x y _ v access _ hdone ⟨hx, rfl⟩ hy hword⟩

theorem spared_guards {h : Hooks} {number n : Nat} {new : List Instruction} {v w : Value} (hv : v.Avoids n) (hn : n ≤ number)
    (hnew : new.map (·.operation) = GuardCode.guards h w access number) : Activation.Spared v new :=
  Activation.spared_of_avoids hv fun _ hi => Activation.isUpcoming_of_trails (h := h)
    (.inr (GuardCode.isGuarding_of_mem hn (hnew ▸ List.mem_map_of_mem hi)))

/-- A call that came to the end of a block with the guards of a range in it has been let pass by both. -/
theorem Stood.clearedRange (distinct : t.configuration.hooks.names.Nodup)
    (h : Stood t function arguments s₀ steps j k u b older) {plan : RangePlan} {operations : List Operation} {n : Nat}
    (guards : GuardCode.GuardsEnds t.configuration.hooks plan access operations)
    (hosts : b.body.Hosts t.configuration.hooks n b.block operations) (ended : b.remaining = []) :
    ClearedRange t function arguments s₀ steps j plan access := by
  have inner := guards.isInner
  obtain ⟨c, c', first, last, code, hends, hfirst, hlast, rfl⟩ := guards
  obtain ⟨k₃, u₃, b₃, _, front, new, h₃, hplaced₃, injected, hnew, -⟩ := h.hosted hosts inner ended
  obtain ⟨reckoned, both, rfl, hreckoned, hboth⟩ := List.map_eq_append_iff.mp hnew
  obtain ⟨low, high, rfl, hlow, hhigh⟩ := List.map_eq_append_iff.mp hboth
  have injected := fun i hi => injected i (List.mem_append.mpr hi)
  have injectedLow := fun i hi => injected i (.inr (List.mem_append_left _ hi))
  have injectedHigh := fun i hi => injected i (.inr (List.mem_append_right _ hi))
  -- The last address is guarded behind the first one, and both behind the code that reckons them.
  rw [← List.append_assoc, ← List.append_assoc] at hplaced₃
  obtain ⟨y, hy⟩ := h₃.clears distinct hplaced₃ injectedHigh hhigh (hlast.mono (Nat.le_succ _))
  obtain ⟨k₂, u₂, b₂, _, h₂, hplaced₂, -, high₂⟩ := h₃.waypoint hplaced₃ fun i hi => (injectedHigh i hi).2
  obtain ⟨x, hx⟩ := h₂.clears distinct hplaced₂ injectedLow hlow hfirst
  obtain ⟨k₁, u₁, b₁, _, h₁, hplaced₁, -, low₁⟩ := h₂.waypoint hplaced₂ fun i hi => (injectedLow i hi).2
  obtain ⟨k₀, u₀, b₀, older₀, h₀, -, -, reckoned₀⟩ := h₁.waypoint hplaced₁ fun i hi => (injected i (.inl hi)).2
  obtain ⟨hcomputes, -⟩ := (GuardCode.adds_ends (n := c.nextTemp) plan).collect_ok (Nat.le_refl _) hends
  have image : ∀ {k u b older}, Stood t function arguments s₀ steps j k u b older → u.machine.image = s₀.machine.image :=
    fun h => h.travels.comes.image
  have hcomputed : b₀.Computes u₀.machine code { b₁ with remaining := b₀.remaining } := by
    rw [← hreckoned]
    refine reckoned₀.computes (fun i hi => ?_) (image h₀)
    obtain ⟨dst, hdst, -⟩ := hcomputes _ (hreckoned ▸ List.mem_map_of_mem hi)
    rw [hdst]
    rfl
  have word : ∀ {m m' : Machine} {b b' : Activation} {v : Value} {w : Word}, m.image = s₀.machine.image →
      m'.image = s₀.machine.image → b.value m' v = b'.value m' v → b.word m' v = .ok w → b'.word m v = .ok w :=
    fun hm hm' hsame hword => by
      rw [Activation.word_image (hm.trans hm'.symm)]
      unfold Activation.word at hword ⊢
      rwa [hsame] at hword
  refine ⟨k₀, u₀, b₀, older₀, c, c', first, last, code, _, x, y, h₀, hends, hcomputed, ?_, ?_, ⟨_, _, _, _, h₂, hx⟩,
    ⟨_, _, _, _, h₃, hy⟩⟩
  · exact word (image h₀) (image h₂) (low₁.value_eq (spared_guards hfirst (Nat.le_refl _) hlow) _) hx.word
  · refine word (image h₀) (image h₃) ?_ hy.word
    rw [high₂.value_eq (spared_guards hlast (Nat.le_succ _) hhigh)]
    exact low₁.value_eq (spared_guards hlast (Nat.le_refl _) hlow) _

/-- A call that came to the end of a block with a test in it, and found that false, has seen the test fail. -/
theorem Stood.declined (h : Stood t function arguments s₀ steps j k u b older) {plan : RangePlan} {test : Variable} {n : Nat}
    {w : Word} (hosts : b.body.Hosts t.configuration.hooks n b.block [.compare test plan.predicate plan.start plan.bound])
    (ended : b.remaining = []) (spared : ¬ test.IsUpcoming n) (hw : b.word u.machine (.variable test) = .ok w) (zero : w = 0) :
    Declined t function arguments s₀ steps j plan := by
  obtain ⟨k₁, u₁, b₁, _, front, new, h₁, hplaced₁, injected, hnew, hvalues⟩ := h.hosted hosts (fun o ho => by
    rw [List.mem_singleton.mp ho]
    exact ⟨rfl, rfl, rfl⟩) ended
  obtain ⟨i, rest, rfl, hi, hrest⟩ := List.map_eq_cons_iff.mp hnew
  obtain rfl := List.map_eq_nil_iff.mp hrest
  obtain ⟨k₀, u₀, b₀, older₀, h₀, -, -, hexecutes⟩ := h₁.waypoint hplaced₁ fun i hi => (injected i hi).2
  have hcomputes := hexecutes.computes (m := u₀.machine) (fun k hk => by
    rw [List.mem_singleton.mp hk, hi]
    rfl) h₀.travels.comes.image
  rw [List.map_singleton, hi] at hcomputes
  generalize hb : ({ b₁ with remaining := b₀.remaining } : Activation) = b' at hcomputes
  cases hcomputes with
  | next here behind =>
    cases behind
    obtain ⟨rfl, hr⟩ := Prod.mk.inj (Option.some.inj here)
    obtain ⟨x, hx, hr⟩ := bind_eq_ok.mp hr
    obtain ⟨y, hy, hr⟩ := bind_eq_ok.mp hr
    cases hr
    refine ⟨k₀, u₀, b₀, older₀, i, b₁.remaining, test, x, y, h₀, hexecutes.fixed.1, (injected i List.mem_cons_self).1, hi, hx,
      hy, ?_⟩
    -- The result of the test is what control goes on by.
    have htest : b.value u.machine (.variable test) = .ok (Evaluation.compare plan.predicate x y) := by
      rw [hvalues (.variable test) (fun z hz => by cases hz; exact spared)]
      change ({ b₁ with remaining := b₀.remaining } : Activation).value u.machine (.variable test) = _
      rw [hb]
      exact Activation.value_assign_self rfl _ _ _
    obtain ⟨r, hr, rfl⟩ := Activation.word_eq_ok.mp hw
    cases hr.symm.trans htest
    unfold Evaluation.compare at zero
    cases hholds : Evaluation.holds plan.predicate x y with
    | false => rfl
    | true =>
      rw [hholds] at zero
      exact absurd zero (by decide)

/-- The guards of a decision have let pass what they guard, in front of the loop that they were moved out of, or did not run
since a test there has failed. A single pointer was what it is now, if it is written in no block of the loop and no new one. -/
inductive Passed (t : Task) (function : String) (arguments : List Word) (s₀ : Processor) (steps : Nat) (j : Journey)
    (d : GuardDecision) (unchanged : Word → Prop) : Prop
  | single {place : Word} (shape : d.shape = .single)
    (cleared : Cleared t function arguments s₀ steps j d.pointer d.access place) (same : unchanged place)
  | range {plan : RangePlan} (shape : d.shape = .range plan)
    (cleared : ClearedRange t function arguments s₀ steps j plan d.access)
  | declined {plan : RangePlan} (shape : d.shape = .range plan) (tested : plan.topTested = true)
    (declined : Declined t function arguments s₀ steps j plan)

end Processor

namespace GuardDecision

open Processor

variable {t : Task} {function : String} {arguments : List Word} {s₀ u : Processor} {steps root pre : Nat} {forest : LoopForest}
  {ds : List GuardDecision} {body c : FlowGraph} {hoisted : Hoisted} {l : NaturalLoop} {key : Nat × Value × Access × Bool}
  {a : Activation} {j : Journey}

theorem Fronted.passed (distinct : t.configuration.hooks.names.Nodup)
    (g : Fronted t.configuration.hooks root forest ds body hoisted c) (hl : l ∈ forest.toList) (hpre : l.preheader = some pre)
    (hne : l.header ≠ root) (hroot : root < body.nextBlock) (hkey : key ∈ hoisted.guards) (hfirst : key.1 = pre)
    (h : Travels t function arguments s₀ steps u a j) (hbody : a.body = c) (hin : body.graph.Inside root l.header a.block)
    (hblock : a.block < body.nextBlock) :
    ∃ d ∈ ds, d.placement = .preheader l.header pre ∧ d.key pre = key ∧
      Passed t function arguments s₀ steps j d fun place =>
        c.SparedIn (fun k => k < body.nextBlock → body.graph.Inside root l.header k) d.pointer →
          a.word u.machine d.pointer = .ok place := by
  obtain ⟨d, hd, hplacement, hsame, fronts⟩ := g.fronts l hl pre hpre key hkey hfirst
  refine ⟨d, hd, hplacement, hsame, ?_⟩
  -- The last time that the call came into the loop, it came past the end of a block with the guards or the test in it.
  have enters : ∀ {exits}, c.Screens body.nextBlock exits (hoisted.entrance l.header pre) →
      ∃ k v b older e, Stood t function arguments s₀ steps j k v b older ∧ b.body = c ∧ b.remaining = [] ∧
        exits b.block e ∧ b.Meets u.machine.image e ∧
        (c.SparedIn (fun k => k < body.nextBlock → body.graph.Inside root l.header k) d.pointer →
          ∀ m, a.value m d.pointer = b.value m d.pointer) := fun screens => by
    obtain ⟨inner, gated, hinner⟩ := g.gated hl hpre hne hroot screens
    obtain ⟨-, -, henters⟩ := h.upholds (Activation.course_enters gated u.machine.image) hbody
    obtain ⟨newer, b, older, e, hsplit, hbody', ended, hexits, hmeets, hvalues⟩ := henters ((hinner a.block).2 hblock hin)
    obtain ⟨k, v, hstood⟩ := h.stood hsplit
    exact ⟨k, v, b, older, e, hstood, hbody', ended, hexits, hmeets, fun spared => hvalues d.pointer fun k y hk hy =>
      spared k y ((hinner k).1 hk) hy⟩
  cases fronts with
  | single shape avoids hosts screens =>
    obtain ⟨k, v, b, older, e, hstood, rfl, ended, rfl, -, hvalues⟩ := enters screens
    obtain ⟨k', v', b', older', front, new, hstood', hplaced, injected, hnew, hvalues'⟩ := hstood.hosted hosts
      (fun o ho => (GuardCode.isGuarding_of_mem (Nat.zero_le _) ho).isInner) ended
    obtain ⟨place, hclears⟩ := hstood'.clears distinct hplaced injected hnew avoids
    refine .single shape ⟨k', v', b', older', hstood', hclears⟩ fun spared => ?_
    rw [Activation.word_image (h.comes.image.trans hstood'.travels.comes.image.symm), ← hclears.word]
    unfold Activation.word
    rw [hvalues spared, hvalues' _ (avoids.mono (Nat.le_succ _))]
  | above shape guards hosts screens =>
    obtain ⟨k, v, b, older, e, hstood, rfl, ended, rfl, -, -⟩ := enters screens
    exact .range shape (hstood.clearedRange distinct guards hosts ended)
  | around shape tested guards hosts hostsTest spared screens =>
    obtain ⟨k, v, b, older, e, hstood, rfl, ended, rfl | ⟨rfl, hcondition⟩, hmeets, -⟩ := enters screens
    · exact .range shape (hstood.clearedRange distinct guards hosts ended)
    · obtain ⟨w, hsatisfied, hword⟩ := hmeets _ hcondition
      refine .declined shape tested (hstood.declined hostsTest ended spared (hword _ ?_) ?_)
      · exact hstood.travels.comes.image.trans h.comes.image.symm
      · simpa [Condition.isSatisfiedBy, Condition.whenTrue] using hsatisfied

end GuardDecision

namespace FlowGraph

variable {f g : Function} {d : DefUse} {body c : FlowGraph} {root n : Nat} {l : NaturalLoop} {v : Value}

end FlowGraph

namespace Program

open Processor

variable {p : Program} {t : Task} {f g : Function} {r : GuardReport} {body : FlowGraph} {root n steps : Nat} {function : String}
  {arguments : List Word} {s₀ u : Processor} {a : Activation} {j : Journey} {δ : GuardDecision}

end Program

end RegionGuard

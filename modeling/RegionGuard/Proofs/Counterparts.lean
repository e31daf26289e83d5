import RegionGuard.Proofs.Instrumented
import RegionGuard.Proofs.Strands
set_option autoImplicit false

namespace RegionGuard

namespace Configuration

def withHoists (c : Configuration) (hoists : Bool) : Configuration := { c with optimizeGuards := hoists }

end Configuration

theorem Safety.judge_withHoists (p : Program) (g : CallGraph) (c : Configuration) (hoists : Bool) :
    Safety.judge ⟨p, g, c.withHoists hoists⟩ = Safety.judge ⟨p, g, c⟩ := by
  have hwithin : ∀ depth,
      Safety.within ⟨p, g, c.withHoists hoists⟩ depth = Safety.within ⟨p, g, c⟩ depth := by
    intro depth
    induction depth with
    | zero => rfl
    | succ depth ih =>
      unfold Safety.within
      rw [ih]
      rfl
  funext f v
  unfold Safety.judge
  rw [hwithin]
  rfl

namespace LoopForest

variable {f : LoopForest} {l : NaturalLoop} {block : Nat}

theorem mem_of_deepest? {loops : List NaturalLoop} (h : deepest? loops = some l) : l ∈ loops := by
  induction loops generalizing l with
  | nil => cases h
  | cons x rest ih =>
    unfold deepest? at h
    split at h
    · rename_i other hother
      split at h
      · cases h
        exact List.mem_cons_of_mem _ (ih hother)
      · cases h
        exact List.mem_cons_self
    · cases h
      exact List.mem_cons_self

theorem mem_of_innermost? (h : f.innermost? block = some l) : l ∈ f.toList :=
  List.mem_of_mem_filter (mem_of_deepest? h)

theorem mem_of_loop? {header : Nat} (h : f.loop? header = some l) : l ∈ f.toList :=
  Table.mem_values_of_get? h

theorem mem_of_outward {steps : Nat} {start : Option NaturalLoop} (hstart : ∀ x ∈ start, x ∈ f.toList)
    (h : l ∈ f.outward steps start) : l ∈ f.toList := by
  induction steps generalizing start with
  | zero => cases h
  | succ steps ih =>
    cases start with
    | none => cases h
    | some x =>
      rcases List.mem_cons.mp h with rfl | h
      · exact hstart _ rfl
      · refine ih (fun y hy => ?_) h
        obtain ⟨parent, -, hparent⟩ := Option.bind_eq_some_iff.mp hy
        exact mem_of_loop? hparent

theorem mem_of_nest (h : l ∈ f.nest block) : l ∈ f.toList :=
  mem_of_outward (fun _ hx => mem_of_innermost? hx) h

theorem get?_ofList {loops : List NaturalLoop} {k : Nat}
    (h : (Table.ofList (loops.map fun l => (l.header, l))).get? k = some l) : l.header = k ∧ l ∈ loops := by
  have hfold : ∀ t : Table Nat NaturalLoop,
      ((loops.map fun l => (l.header, l)).foldl (fun t e => t.insert e.1 e.2) t).get? k = some l →
        (l.header = k ∧ l ∈ loops) ∨ t.get? k = some l := by
    clear h
    induction loops with
    | nil => exact fun t ht => .inr ht
    | cons x rest ih =>
      intro t ht
      rcases ih _ ht with ⟨hk, hl⟩ | hl
      · exact .inl ⟨hk, List.mem_cons_of_mem _ hl⟩
      · rw [Table.get?_insert] at hl
        split at hl
        · rename_i hk
          cases hl
          exact .inl ⟨hk.symm, List.mem_cons_self⟩
        · exact .inr hl
  rcases hfold _ h with h | h
  · exact h
  · cases h

theorem header_of_loop? {c : FlowGraph} (h : ofGraph c = .ok f) {k : Nat} (hl : f.loop? k = some l) : l.header = k := by
  obtain ⟨entry, -, h⟩ := bind_eq_ok.mp h
  obtain ⟨tree, -, h⟩ := bind_eq_ok.mp h
  obtain ⟨described, -, h⟩ := bind_eq_ok.mp h
  cases h
  rw [loop?, Table.get?_map_keyed] at hl
  obtain ⟨x, hx, rfl⟩ := Option.map_eq_some_iff.mp hl
  exact (get?_ofList hx).1

theorem ofGraph_ok {c : FlowGraph} (h : ofGraph c = .ok f) (hl : l ∈ f.toList) :
    f.loop? l.header = some l ∧ ∀ preheader, l.preheader = some preheader →
      c.successors preheader = .ok [l.header] := by
  obtain ⟨entry, -, h⟩ := bind_eq_ok.mp h
  obtain ⟨tree, -, h⟩ := bind_eq_ok.mp h
  obtain ⟨described, hdescribed, h⟩ := bind_eq_ok.mp h
  cases h
  obtain ⟨k, hk⟩ := Table.mem_values_iff.mp hl
  rw [Table.get?_map_keyed] at hk
  obtain ⟨x, hx, rfl⟩ := Option.map_eq_some_iff.mp hk
  obtain ⟨rfl, hmem⟩ := get?_ofList hx
  refine ⟨(Table.get?_map_keyed _ _ _).trans (by rw [hx]; rfl), fun preheader hpreheader => ?_⟩
  obtain ⟨loop, -, hloop⟩ := exists_of_mem_mapM hdescribed hmem
  obtain ⟨predecessors, -, hloop⟩ := bind_eq_ok.mp hloop
  obtain ⟨preheader?, hpre, hloop⟩ := bind_eq_ok.mp hloop
  obtain ⟨exiting, -, hloop⟩ := bind_eq_ok.mp hloop
  obtain ⟨parents, -, hloop⟩ := bind_eq_ok.mp hloop
  cases hloop
  simp only at hpreheader
  subst hpreheader
  unfold NaturalLoop.preheaderOf at hpre
  split at hpre
  · obtain ⟨successors, hsuccessors, hpre⟩ := bind_eq_ok.mp hpre
    split at hpre
    · rename_i hheader
      cases hpre
      rw [hsuccessors, hheader]
    · cases hpre
  · cases hpre

end LoopForest

namespace Placer

variable {p : Placer} {a : MemoryAccess} {rule : GuardRule} {placement : GuardPlacement} {shape : GuardShape}

/-- A loop that the guard of an access is hoisted out of: the pointer does not change there, or it is the innermost one
around the access. -/
inductive Hoists (p : Placer) (a : MemoryAccess) (l : NaturalLoop) : GuardRule → GuardShape → Prop
  | invariant (nested : l ∈ p.forest.nest a.location.block) (invariant : l.isInvariant p.defUse a.pointer = true) :
      Hoists p a l .invariantHoist .single
  | induction (plan : RangePlan) (innermost : p.forest.innermost? a.location.block = some l) :
      Hoists p a l .inductionHoist (.range plan)

theorem hoists_of_hoist? (h : p.hoist? a = .ok (some (rule, placement, shape))) :
    ∃ l preheader, l.preheader = some preheader ∧ placement = .preheader l.header preheader ∧ p.Hoists a l rule shape := by
  unfold hoist? at h
  split at h
  · rename_i hinvariant
    cases h
    obtain ⟨l, hl, hplacement⟩ := List.mem_filterMap.mp (List.mem_of_getLast? hinvariant)
    obtain ⟨preheader, hpreheader, rfl⟩ := Option.map_eq_some_iff.mp hplacement
    exact ⟨l, preheader, hpreheader, rfl, .invariant ((List.takeWhile_prefix _).subset hl) (List.all_eq_true.mp List.all_takeWhile l hl)⟩
  · obtain ⟨hoisted?, hhoisted, h⟩ := bind_eq_ok.mp h
    cases hoisted? with
    | none => cases h
    | some hoisted =>
      cases h
      unfold inductionHoist? at hhoisted
      split at hhoisted
      · cases hhoisted
      · rename_i l preheader x iv step hgrowing
        obtain ⟨body, -, hhoisted⟩ := bind_eq_ok.mp hhoisted
        obtain ⟨bound?, -, hhoisted⟩ := bind_eq_ok.mp hhoisted
        have hplan := Except.ok.inj hhoisted
        obtain ⟨bound, -, hplan⟩ := Option.bind_eq_some_iff.mp hplan
        obtain ⟨plan, -, hplan⟩ := Option.bind_eq_some_iff.mp hplan
        cases hplan
        unfold growing? at hgrowing
        obtain ⟨l', hinnermost, hgrowing⟩ := Option.bind_eq_some_iff.mp hgrowing
        obtain ⟨preheader', hpreheader, hgrowing⟩ := Option.bind_eq_some_iff.mp hgrowing
        obtain ⟨x', -, hgrowing⟩ := Option.bind_eq_some_iff.mp hgrowing
        obtain ⟨iv', -, hgrowing⟩ := Option.bind_eq_some_iff.mp hgrowing
        obtain ⟨step', -, hgrowing⟩ := Option.bind_eq_some_iff.mp hgrowing
        obtain ⟨-, -, hgrowing⟩ := Option.bind_eq_some_iff.mp hgrowing
        cases hgrowing
        exact ⟨l, preheader, hpreheader, rfl, .induction plan hinnermost⟩

theorem hoist?_ok (h : p.hoist? a = .ok (some (rule, placement, shape))) :
    rule.Hoists ∧ ∃ l ∈ p.forest.toList, ∃ preheader, l.preheader = some preheader ∧
      placement = .preheader l.header preheader := by
  obtain ⟨l, preheader, hpreheader, hplacement, hhoists⟩ := hoists_of_hoist? h
  cases hhoists with
  | invariant hnest _ => exact ⟨.inl rfl, l, LoopForest.mem_of_nest hnest, preheader, hpreheader, hplacement⟩
  | induction _ hinnermost => exact ⟨.inr rfl, l, LoopForest.mem_of_innermost? hinnermost, preheader, hpreheader, hplacement⟩

/-- A guard is left out, stands in front of the access, or is hoisted to the preheader of a loop. -/
theorem decide_placed {d : GuardDecision} (h : p.decide a = .ok d) :
    d.placement = .omitted ∨ d.placement = .before d.location ∨ d.rule.Hoists ∧
      ∃ l ∈ p.forest.toList, ∃ preheader, l.preheader = some preheader ∧
        d.placement = .preheader l.header preheader := by
  obtain ⟨-, hlocation, -, -, hruling⟩ := decide_ok h
  rcases ruling_cases hruling with ⟨-, -, hplacement, -⟩ | ⟨-, hhoisted⟩ | ⟨-, hplacement, -⟩
  · exact .inl hplacement
  · exact .inr (.inr (hoist?_ok hhoisted))
  · rw [← hlocation] at hplacement
    exact .inr (.inl hplacement)

end Placer

/-- Two decisions of one access: the first without hoists, the second with them. -/
structure Counterpart (d e : GuardDecision) : Prop where
  function : d.function = e.function
  location : d.location = e.location
  pointer : d.pointer = e.pointer
  access : d.access = e.access
  placement : d.placement = .omitted ∧ e.placement = .omitted ∨
    d.placement = .before d.location ∧ e.placement = .before e.location ∨
    d.placement = .before d.location ∧ e.rule.Hoists ∧
      ∃ header preheader, e.placement = .preheader header preheader

def Function.preheader? (f : Function) (header : Nat) : Option Nat := do
  let c ← f.body
  let forest ← (LoopForest.ofGraph c).toOption
  let l ← forest.loop? header
  l.preheader

namespace Placer

variable {p : Program} {g : CallGraph} {c : Configuration} {facts : FunctionFacts} {custody : Custody}
  {forest : LoopForest} {a : MemoryAccess} {d e : GuardDecision}

theorem counterpart (hd : decide ⟨⟨p, g, c.withHoists false⟩, facts, custody, forest⟩ a = .ok d)
    (he : decide ⟨⟨p, g, c.withHoists true⟩, facts, custody, forest⟩ a = .ok e) :
    Counterpart d e ∧ ∀ header preheader, e.placement = .preheader header preheader →
      e.rule.Hoists ∧ ∃ l ∈ forest.toList, l.preheader = some preheader ∧ l.header = header := by
  obtain ⟨hfunction, hlocation, hpointer, haccess, hruling⟩ := decide_ok hd
  obtain ⟨hfunction', hlocation', hpointer', haccess', hruling'⟩ := decide_ok he
  have hsame : ∀ hplacement : d.placement = .omitted ∧ e.placement = .omitted ∨
      d.placement = .before d.location ∧ e.placement = .before e.location ∨
      d.placement = .before d.location ∧ e.rule.Hoists ∧
        ∃ header preheader, e.placement = .preheader header preheader, Counterpart d e := fun hplacement =>
    ⟨hfunction.trans hfunction'.symm, hlocation.trans hlocation'.symm, hpointer.trans hpointer'.symm,
      haccess.trans haccess'.symm, hplacement⟩
  unfold ruling at hruling hruling'
  simp only [Safety.judge_withHoists] at hruling hruling'
  split at hruling
  · rename_i hvalidated
    rw [if_pos hvalidated] at hruling'
    have hd' := Prod.mk.inj (Prod.mk.inj (Except.ok.inj hruling)).2
    have he' := Prod.mk.inj (Prod.mk.inj (Except.ok.inj hruling')).2
    refine ⟨hsame (.inl ⟨hd'.1.symm, he'.1.symm⟩), fun header preheader hplacement => ?_⟩
    rw [hplacement] at he'
    cases he'.1
  · rename_i hvalidated
    rw [if_neg hvalidated] at hruling'
    obtain ⟨reason?, hreason, hrest⟩ := bind_eq_ok.mp hruling
    obtain ⟨reason?', hreason', hrest'⟩ := bind_eq_ok.mp hruling'
    rw [hreason] at hreason'
    cases hreason'
    cases reason? with
    | some reason =>
      have hd' := Prod.mk.inj (Prod.mk.inj (Except.ok.inj hrest)).2
      have he' := Prod.mk.inj (Prod.mk.inj (Except.ok.inj hrest')).2
      refine ⟨hsame (.inl ⟨hd'.1.symm, he'.1.symm⟩), fun header preheader hplacement => ?_⟩
      rw [hplacement] at he'
      cases he'.1
    | none =>
      simp only [Configuration.withHoists, Bool.false_eq_true, if_false, if_true] at hrest hrest'
      obtain ⟨hd', hplacement, -⟩ : d.rule = .fallback ∧ d.placement = .before a.location ∧ d.shape = .single := by
        have := Except.ok.inj hrest
        simp only [Option.getD_none, Prod.mk.injEq] at this
        exact ⟨this.1.symm, this.2.1.symm, this.2.2.symm⟩
      rw [← hlocation] at hplacement
      obtain ⟨hoisted?, hhoisted, hanswer⟩ := bind_eq_ok.mp hrest'
      cases hoisted? with
      | none =>
        have := Except.ok.inj hanswer
        simp only [Option.getD_none, Prod.mk.injEq] at this
        have he' := this.2.1.symm
        rw [← hlocation'] at he'
        refine ⟨hsame (.inr (.inl ⟨hplacement, he'⟩)), fun header preheader hpre => ?_⟩
        rw [hpre] at he'
        cases he'
      | some hoisted =>
        have := Except.ok.inj hanswer
        simp only [Option.getD_some] at this
        rw [this] at hhoisted
        obtain ⟨hrule, l, hl, preheader, hpreheader, he'⟩ := hoist?_ok hhoisted
        refine ⟨hsame (.inr (.inr ⟨hplacement, hrule, _, _, he'⟩)), fun header pre hpre => ?_⟩
        rw [he'] at hpre
        cases hpre
        exact ⟨hrule, l, hl, hpreheader, rfl⟩

end Placer

/-- Results of two walks over one list correspond if they do for each member. -/
theorem forall₂_of_common {α β γ : Type} {R : α → β → Prop} {S : α → γ → Prop} {T : β → γ → Prop}
    {l : List α} {r : List β} {s : List γ} (hr : List.Forall₂ R l r) (hs : List.Forall₂ S l s)
    (h : ∀ a ∈ l, ∀ b c, R a b → S a c → T b c) : List.Forall₂ T r s := by
  induction hr generalizing s with
  | nil =>
    cases hs
    exact .nil
  | cons hab _ ih =>
    cases hs with
    | cons hac hs =>
      exact .cons (h _ List.mem_cons_self _ _ hab hac)
        (ih hs fun a ha => h a (List.mem_cons_of_mem _ ha))

structure Function.Decides (p : Program) (c : Configuration) (f : Function) (d : GuardDecision) : Prop where
  function : d.function = f.name
  access : ∃ a ∈ MemoryAccess.ofFunction p c f,
    d.location = a.location ∧ d.pointer = a.pointer ∧ d.access = a.access
  hoists : ∀ header preheader, d.placement = .preheader header preheader → d.rule.Hoists ∧
    ∃ body forest, f.body = some body ∧ LoopForest.ofGraph body = .ok forest ∧
      ∃ l ∈ forest.toList, l.preheader = some preheader ∧ l.header = header

namespace Program

variable {p : Program} {c : Configuration} {r s : GuardReport}

theorem decides_of_mem (hr : p.decideGuards c = .ok r) {d : GuardDecision} (hd : d ∈ r.decisions) :
    (∃ f ∈ p.functions.values, f.Decides p c d ∧
      ∃ body forest, f.body = some body ∧ LoopForest.ofGraph body = .ok forest) ∧
      ∀ l, d.placement = .before l → l = d.location := by
  obtain ⟨f, hf, -, x, a, -, hfunction, ⟨body, hbody, hforest⟩, ha, hdecided⟩ := mem_decisions hr hd
  obtain ⟨hname, hlocation, hpointer, haccess, -⟩ := Placer.decide_ok hdecided
  have hplaced := Placer.decide_placed hdecided
  refine ⟨⟨f, hf, ⟨hname.trans (congrArg Function.name hfunction), ⟨a, ha, hlocation, hpointer, haccess⟩,
    fun header preheader hplacement => ?_⟩, body, x.forest, hbody, hforest⟩, fun l hl => ?_⟩
  · rw [hplacement] at hplaced
    rcases hplaced with heq | heq | ⟨hrule, l, hl, pre, hpre, heq⟩
    · cases heq
    · cases heq
    · cases heq
      exact ⟨hrule, body, x.forest, hbody, hforest, l, hl, hpre, rfl⟩
  · rw [hl] at hplaced
    rcases hplaced with heq | heq | ⟨-, _, -, _, -, heq⟩
    · cases heq
    · exact GuardPlacement.before.inj heq
    · cases heq

end Program

end RegionGuard

import RegionGuard.Proofs.Dues
import RegionGuard.Proofs.WovenPasses
set_option autoImplicit false

/-!
# Reports of escapes

Behind a store of a pointer stands the report that a pointer escaped to the cell stored to, with nothing but injected
code in between. Code that is injected later may come between the two and parts them as little as what was there, and
no other code reports an escape.
-/

namespace RegionGuard

open Instruction

namespace Operation

/-- The report that a pointer was stored to a cell. -/
def escape (h : Hooks) (cell : Value) : Operation := .notify h.notifyEscape [cell]

def StoresPointer (cell : Value) (o : Operation) : Prop := ∃ value, o = .store cell value ∧ value.isPointer = true

def IsQuiet (h : Hooks) (n : Nat) (o : Operation) : Prop :=
  (∃ dst, o.computes? = some dst ∧ dst.IsUpcoming n) ∨
    ∃ name ∈ h.names, name ≠ h.notifyEscape ∧ ∃ arguments, o = .notify name arguments

variable {h : Hooks} {n : Nat} {o : Operation}

theorem IsQuiet.isExtra (ho : o.IsQuiet h n) : o.IsExtra h n := by
  rcases ho with hcomputes | ⟨name, hname, -, hcall⟩
  · exact .inl hcomputes
  · exact .inr ⟨name, hname, hcall⟩

theorem IsQuiet.ne_escape (ho : o.IsQuiet h n) (cell : Value) : o ≠ escape h cell := by
  rintro rfl
  rcases ho with ⟨dst, hdst, -⟩ | ⟨name, -, hne, arguments, hcall⟩
  · cases hdst
  · cases hcall
    exact hne rfl

theorem not_storesPointer_of_isPhi {cell : Value} (hphi : o.isPhi = true) : ¬ o.StoresPointer cell := by
  rintro ⟨value, rfl, -⟩
  cases hphi

/-- Guards report nothing, as long as the entry points have names of their own. -/
theorem IsGuarding.isQuiet (distinct : h.names.Nodup) (ho : o.IsGuarding h n) : o.IsQuiet h n := by
  rcases ho with hcomputes | ⟨name, hname, hcall⟩
  · exact .inl hcomputes
  · refine .inr ⟨name, ?_, ?_, hcall⟩
    · rcases hname with rfl | rfl <;> simp [Hooks.names]
    · simp only [Hooks.names, List.nodup_cons, List.mem_cons, not_or] at distinct
      rcases hname with rfl | rfl
      · exact fun he => distinct.2.2.2.2.2.1.1 he.symm
      · exact fun he => distinct.2.2.2.2.2.1.2.1 he.symm

end Operation

/-- The injected code at the start of some instructions reports an escape to a cell. -/
def Announces (h : Hooks) (l : List Instruction) (cell : Value) : Prop :=
  ∃ i ∈ l.takeWhile isInjected, i.operation = .escape h cell

/-- Some instructions end with injected code, and if something else is in front of that, then it stores a pointer to a
cell that no temporary from a number on names. -/
def EndsStoring (n : Nat) (l : List Instruction) (cell : Value) : Prop :=
  ∀ front i back, l = front ++ i :: back → i.isInjected = false → (∀ j ∈ back, j.isInjected = true) →
    i.operation.StoresPointer cell ∧ cell.Avoids n

/-- Injected code computes temporaries from a number on and calls entry points; an escape is reported behind the store
that it is about. -/
inductive Grounded (h : Hooks) (n : Nat) : List Instruction → Prop where
  | nil : Grounded h n []
  | quiet {i : Instruction} {rest : List Instruction} (injected : i.isInjected = true) (quiet : i.operation.IsQuiet h n)
    (behind : Grounded h n rest) : Grounded h n (i :: rest)
  | report {i : Instruction} {rest : List Instruction} {cell : Value} (injected : i.isInjected = true)
    (reports : i.operation = .escape h cell) (behind : Grounded h n rest) : Grounded h n (i :: rest)
  | own {i : Instruction} {rest : List Instruction} (own : i.isInjected = false)
    (stores : ∀ cell, Announces h rest cell → i.operation.StoresPointer cell ∧ cell.Avoids n)
    (behind : Grounded h n rest) : Grounded h n (i :: rest)

section Lists

variable {h : Hooks} {n : Nat} {i : Instruction} {cell : Value} {l front new back rest : List Instruction}

theorem not_announces_nil : ¬ Announces h [] cell := by
  rintro ⟨i, hi, -⟩
  cases hi

theorem not_announces_own (own : i.isInjected = false) : ¬ Announces h (i :: rest) cell := by
  rintro ⟨j, hj, -⟩
  rw [List.takeWhile_cons, own] at hj
  cases hj

theorem announces_injected (injected : i.isInjected = true) :
    Announces h (i :: rest) cell ↔ i.operation = .escape h cell ∨ Announces h rest cell := by
  unfold Announces
  simp only [List.takeWhile_cons, injected, if_true, List.mem_cons, exists_eq_or_imp]

/-- What is announced at the start of two pieces of code stands in the first one, or in the second one if all of the
first is injected. -/
theorem announces_append : Announces h (front ++ back) cell ↔
    Announces h front cell ∨ (∀ i ∈ front, i.isInjected = true) ∧ Announces h back cell := by
  induction front with
  | nil => simp [not_announces_nil]
  | cons i front ih =>
    rw [List.cons_append]
    cases hi : i.isInjected with
    | false => simp [not_announces_own hi, hi]
    | true =>
      rw [announces_injected hi, announces_injected hi, ih, or_assoc]
      simp only [List.forall_mem_cons, hi, true_and]

theorem not_announces_of_quiet (hl : ∀ i ∈ l, i.operation.IsQuiet h n) : ¬ Announces h l cell := by
  rintro ⟨i, hi, hreports⟩
  exact (hl i (List.takeWhile_subset _ hi)).ne_escape cell hreports

theorem Grounded.append (hnew : Grounded h n new) (injected : ∀ i ∈ new, i.isInjected = true)
    (hback : Grounded h n back) : Grounded h n (new ++ back) := by
  induction hnew with
  | nil => exact hback
  | quiet hi quiet _ ih => exact .quiet hi quiet (ih fun j hj => injected j (List.mem_cons_of_mem _ hj))
  | report hi reports _ ih => exact .report hi reports (ih fun j hj => injected j (List.mem_cons_of_mem _ hj))
  | own own _ _ _ =>
    rw [injected _ List.mem_cons_self] at own
    cases own

theorem grounded_of_quiet (injected : ∀ i ∈ new, i.isInjected = true) (hquiet : ∀ i ∈ new, i.operation.IsQuiet h n) :
    Grounded h n new := by
  induction new with
  | nil => exact .nil
  | cons i rest ih =>
    exact .quiet (injected i List.mem_cons_self) (hquiet i List.mem_cons_self)
      (ih (fun j hj => injected j (List.mem_cons_of_mem i hj)) fun j hj => hquiet j (List.mem_cons_of_mem i hj))

theorem grounded_of_own (own : ∀ i ∈ l, i.isInjected = false) : Grounded h n l := by
  induction l with
  | nil => exact .nil
  | cons i rest ih =>
    have hrest : ∀ j ∈ rest, j.isInjected = false := fun j hj => own j (List.mem_cons_of_mem i hj)
    refine .own (own i List.mem_cons_self) (fun cell hcell => ?_) (ih hrest)
    cases rest with
    | nil => exact absurd hcell not_announces_nil
    | cons j rest => exact absurd hcell (not_announces_own (hrest j List.mem_cons_self))

theorem eq_of_last_own {front' back' : List Instruction} {j : Instruction} (h : front ++ i :: back = front' ++ j :: back')
    (hi : i.isInjected = false) (hj : j.isInjected = false) (hback : ∀ x ∈ back, x.isInjected = true)
    (hback' : ∀ x ∈ back', x.isInjected = true) : i = j := by
  have hlast : ∀ (l l' : List Instruction) (x : Instruction), x.isInjected = false → (∀ y ∈ l', y.isInjected = true) →
      (l ++ x :: l').reverse.find? (fun y => !y.isInjected) = some x := by
    intro l l' x hx hl'
    rw [List.reverse_append, List.reverse_cons, List.append_assoc, List.find?_append,
      List.find?_eq_none.mpr fun y hy => by simp [hl' y (List.mem_reverse.mp hy)]]
    simp [hx]
  exact Option.some.inj ((hlast front back i hi hback).symm.trans (h ▸ hlast front' back' j hj hback'))

theorem EndsStoring.tail (hends : EndsStoring n (i :: l) cell) : EndsStoring n l cell := by
  rintro front j back rfl
  exact hends (i :: front) j back rfl

/-- Injected code goes anywhere, but that reports of escapes go behind the stores that they are about. -/
theorem Grounded.insert (hnew : Grounded h n new) (injected : ∀ i ∈ new, i.isInjected = true)
    (stores : ∀ cell, Announces h new cell → EndsStoring n front cell) (hl : Grounded h n (front ++ back)) :
    Grounded h n (front ++ (new ++ back)) := by
  induction front with
  | nil => exact hnew.append injected hl
  | cons i front ih =>
    have htail : ∀ cell, Announces h new cell → EndsStoring n front cell := fun cell hcell => (stores cell hcell).tail
    cases hl with
    | quiet hi quiet behind => exact .quiet hi quiet (ih htail behind)
    | report hi reports behind => exact .report hi reports (ih htail behind)
    | own own hstores behind =>
      refine .own own (fun cell hcell => ?_) (ih htail behind)
      rcases announces_append.mp hcell with hfront | ⟨hfront, hrest⟩
      · exact hstores cell (announces_append.mpr (.inl hfront))
      · rcases announces_append.mp hrest with hnew | ⟨-, hback⟩
        · exact stores cell hnew [] i front rfl own hfront
        · exact hstores cell (announces_append.mpr (.inr ⟨hfront, hback⟩))

/-- What begins with a report before code goes in begins with it afterwards, and what else it begins with is new. -/
theorem announces_of_insert (hannounces : Announces h (front ++ (new ++ back)) cell) :
    Announces h (front ++ back) cell ∨ (∀ i ∈ front, i.isInjected = true) ∧ Announces h new cell := by
  rcases announces_append.mp hannounces with hfront | ⟨hfront, hrest⟩
  · exact .inl (announces_append.mpr (.inl hfront))
  · rcases announces_append.mp hrest with hnew | ⟨-, hback⟩
    · exact .inr ⟨hfront, hnew⟩
    · exact .inl (announces_append.mpr (.inr ⟨hfront, hback⟩))

section Maps

variable {f : Instruction → Instruction}

theorem announces_of_map (hf : ∀ i, (f i).isInjected = i.isInjected ∧ i.Resembles (f i))
    (hannounces : Announces h (l.map f) cell) : Announces h l cell := by
  obtain ⟨j, hj, hreports⟩ := hannounces
  have hsame : isInjected ∘ f = isInjected := funext fun i => (hf i).1
  rw [List.takeWhile_map, hsame] at hj
  obtain ⟨i, hi, rfl⟩ := List.mem_map.mp hj
  refine ⟨i, hi, ?_⟩
  rcases (hf i).2 with heq | ⟨-, hphi⟩
  · exact heq ▸ hreports
  · rw [hreports] at hphi
    cases hphi

/-- Changes of phis and of tags other than that of injected code matter to no report. -/
theorem Grounded.map (hl : Grounded h n l) (hf : ∀ i, (f i).isInjected = i.isInjected ∧ i.Resembles (f i)) :
    Grounded h n (l.map f) := by
  have same : ∀ {i : Instruction}, i.operation.isPhi = false → (f i).operation = i.operation := by
    intro i hi
    rcases (hf i).2 with heq | ⟨hphi, -⟩
    · exact heq
    · rw [hi] at hphi
      cases hphi
  induction hl with
  | nil => exact .nil
  | quiet injected quiet _ ih => exact .quiet ((hf _).1.trans injected) (same quiet.isExtra.notPhi ▸ quiet) ih
  | report injected reports _ ih =>
    exact .report ((hf _).1.trans injected) ((same (by rw [reports]; rfl)).trans reports) ih
  | own own stores _ ih =>
    refine .own ((hf _).1.trans own) (fun cell hcell => ?_) ih
    obtain ⟨hstores, havoids⟩ := stores cell (announces_of_map hf hcell)
    refine ⟨?_, havoids⟩
    rw [same (Bool.eq_false_iff.mpr fun hphi => Operation.not_storesPointer_of_isPhi hphi hstores)]
    exact hstores

end Maps

theorem Grounded.behind (hl : Grounded h n l) (hstarts : ∀ cell, ¬ Announces h l cell) :
    Grounded h n (behind l) ∧ ∀ cell, ¬ Announces h (behind l) cell := by
  unfold RegionGuard.behind
  induction hl with
  | nil => exact ⟨.nil, hstarts⟩
  | quiet injected quiet behind _ =>
    rw [(pastPhis_cons quiet.isExtra.notPhi).dropWhile]
    exact ⟨.quiet injected quiet behind, hstarts⟩
  | report injected reports behind _ =>
    exact absurd ((announces_injected injected).mpr (.inl reports)) (hstarts _)
  | @own i rest own stores behind ih =>
    rw [List.dropWhile_cons]
    split
    · rename_i hphi
      exact ih fun cell hcell => Operation.not_storesPointer_of_isPhi hphi (stores cell hcell).1
    · exact ⟨.own own stores behind, hstarts⟩

end Lists

namespace Block

structure Grounded (h : Hooks) (n : Nat) (b : Block) : Prop where
  code : RegionGuard.Grounded h n b.instructions
  starts : ∀ cell, ¬ Announces h b.instructions cell

variable {h : Hooks} {n : Nat} {b b' : Block} {position : Nat} {v : String} {tags : List (String × String)}
  {operations : List Operation}

theorem grounded_of_own (own : ∀ i ∈ b.instructions, i.isInjected = false) : b.Grounded h n where
  code := RegionGuard.grounded_of_own own
  starts cell := by
    cases hl : b.instructions with
    | nil => exact not_announces_nil
    | cons i rest => exact not_announces_own (own i (hl ▸ List.mem_cons_self))

theorem Grounded.inject (hb : b.Grounded h n)
    (hnew : RegionGuard.Grounded h n (drafted ((Tag.injected, v) :: tags) b.nextIndex operations))
    (stores : ∀ cell, Announces h (drafted ((Tag.injected, v) :: tags) b.nextIndex operations) cell →
      EndsStoring n (b.instructions.take position) cell ∧ ∃ i ∈ b.instructions.take position, i.isInjected = false)
    (hb' : b.inject position ((Tag.injected, v) :: tags) operations = .ok b') : b'.Grounded h n := by
  have hinstructions := congrArg Block.instructions (inject_ok hb')
  have hsplit : b.instructions = b.instructions.take position ++ b.instructions.drop position :=
    (List.take_append_drop ..).symm
  have hcode := hb.code
  have hstarts := hb.starts
  rw [hsplit] at hcode hstarts
  refine ⟨?_, fun cell hcell => ?_⟩
  · rw [hinstructions]
    exact RegionGuard.Grounded.insert hnew (fun i hi => isInjected_of_mem_drafted hi)
      (fun cell hcell => (stores cell hcell).1) hcode
  · rw [hinstructions] at hcell
    rcases announces_of_insert hcell with hold | ⟨hfront, hnew⟩
    · exact hstarts cell hold
    · obtain ⟨i, hi, own⟩ := (stores cell hnew).2
      rw [hfront i hi] at own
      cases own

theorem Grounded.inject_quiet (hb : b.Grounded h n) (hquiet : ∀ o ∈ operations, o.IsQuiet h n)
    (hb' : b.inject position ((Tag.injected, v) :: tags) operations = .ok b') : b'.Grounded h n := by
  have hdrafted : ∀ i ∈ drafted ((Tag.injected, v) :: tags) b.nextIndex operations, i.operation.IsQuiet h n := by
    intro i hi
    have hmem : i.operation ∈ (drafted ((Tag.injected, v) :: tags) b.nextIndex operations).map (·.operation) :=
      List.mem_map_of_mem hi
    rw [drafted_operations] at hmem
    exact hquiet _ hmem
  exact hb.inject (grounded_of_quiet (fun i hi => isInjected_of_mem_drafted hi) hdrafted)
    (fun cell hcell => absurd hcell (not_announces_of_quiet hdrafted)) hb'

/-- A report of an escape goes behind the store that it is about and the injected code that follows that. -/
theorem Grounded.inject_escape (hb : b.Grounded h n) {index : Nat} (hposition : b.positionAfter index = .ok position)
    {cell : Value} (havoids : cell.Avoids n)
    (hstores : ∀ i ∈ b.instructions, i.index = index → i.isInjected = false ∧ i.operation.StoresPointer cell)
    (hb' : b.inject position [(Tag.injected, v)] [.escape h cell] = .ok b') : b'.Grounded h n := by
  obtain ⟨front, i, run, hindex, hinjected, htake⟩ := positionAfter_ok hposition
  obtain ⟨own, hi⟩ := hstores i (List.mem_of_mem_take (by rw [htake]; simp)) hindex
  have hreport : (Instruction.make b.nextIndex (.escape h cell)).setTags [(Tag.injected, v)] ∈
      drafted [(Tag.injected, v)] b.nextIndex [.escape h cell] := List.mem_cons_self
  refine hb.inject (.report (isInjected_of_mem_drafted hreport) rfl .nil) (fun cell' hcell' => ?_) hb'
  have hsame : cell' = cell := by
    obtain ⟨j, hj, hreports⟩ := hcell'
    rw [List.mem_singleton.mp (List.takeWhile_subset _ hj)] at hreports
    cases hreports
    rfl
  subst hsame
  rw [htake]
  refine ⟨fun front j back heq hown hback => ?_, i, List.mem_append_right _ List.mem_cons_self, own⟩
  obtain rfl := eq_of_last_own heq own hown hinjected hback
  exact ⟨hi, havoids⟩

theorem Grounded.map (hb : b.Grounded h n) {f : Instruction → Instruction}
    (hf : ∀ i, (f i).isInjected = i.isInjected ∧ i.Resembles (f i)) :
    ({ b with instructions := b.instructions.map f } : Block).Grounded h n :=
  ⟨hb.code.map hf, fun cell hcell => hb.starts cell (announces_of_map hf hcell)⟩

end Block

namespace Instruction

theorem isInjected_setTag (i : Instruction) {key : String} (hkey : Tag.injected ≠ key) (value : String) :
    (i.setTag key value).isInjected = i.isInjected := by
  unfold isInjected
  rw [hasTag_setTag, decide_eq_false hkey, Bool.false_or]

theorem setTag_resembles (i : Instruction) {key : String} (hkey : Tag.injected ≠ key) (value : String) (index : Nat) :
    (Block.changeAt index (·.setTag key value) i).isInjected = i.isInjected ∧
      i.Resembles (Block.changeAt index (·.setTag key value) i) := by
  refine ⟨?_, .inl (Block.tagAt_operation index key value i)⟩
  unfold Block.changeAt
  split
  · exact isInjected_setTag i hkey value
  · rfl

theorem renameIncoming_resembles (i : Instruction) (old new : Nat) :
    (GuardDecision.renameIncoming old new i).isInjected = i.isInjected ∧
      i.Resembles (GuardDecision.renameIncoming old new i) := by
  refine ⟨hasTag_renameIncoming i old new Tag.injected, ?_⟩
  unfold GuardDecision.renameIncoming
  split
  · rename_i ho
    exact .inr ⟨by rw [ho]; rfl, rfl⟩
  · exact .inl rfl

end Instruction

namespace FlowGraph

/-- The reports in all blocks are grounded, with the temporaries from a number on as those of injected code. -/
structure Grounded (h : Hooks) (n : Nat) (c : FlowGraph) : Prop where
  numbered : c.Numbered
  temps : n ≤ c.nextTemp
  blocks : ∀ k b, c.block k = .ok b → b.Grounded h n

variable {h : Hooks} {n : Nat} {c c' : FlowGraph} {k : Nat}

theorem Grounded.withTemps (hc : c.Grounded h n) {next : Nat} (hnext : c.nextTemp ≤ next) :
    (c.withTemps next).Grounded h n :=
  ⟨hc.numbered, Nat.le_trans hc.temps hnext, hc.blocks⟩

theorem Grounded.modifyBlock (hc : c.Grounded h n) {f : Block → Outcome Block}
    (hf : ∀ b b', c.block k = .ok b → b.Numbered → b.Grounded h n → f b = .ok b' →
      b'.Numbered ∧ b'.index = b.index ∧ b'.Grounded h n)
    (hm : c.modifyBlock k f = .ok c') : c'.Grounded h n := by
  have hstep : ∀ b b', c.block k = .ok b → f b = .ok b' → b'.Numbered ∧ b'.index = b.index ∧ b'.Grounded h n :=
    fun b b' hb hb' => hf b b' hb (numbered_iff.mp hc.numbered k b hb).2 (hc.blocks k b hb) hb'
  have hfate : ∀ j b', c'.block j = .ok b' → b'.index = j ∧ b'.Numbered ∧ b'.Grounded h n := by
    intro j b' hb'
    rcases block_of_modifyBlock hm hb' with ⟨-, hb⟩ | ⟨rfl, b, hb, hfb⟩
    · obtain ⟨hindex, hnumbered⟩ := numbered_iff.mp hc.numbered j b' hb
      exact ⟨hindex, hnumbered, hc.blocks j b' hb⟩
    · obtain ⟨hnumbered, hindex, hgrounded⟩ := hstep b b' hb hfb
      exact ⟨hindex.trans (numbered_iff.mp hc.numbered _ b hb).1, hnumbered, hgrounded⟩
  refine ⟨numbered_iff.mpr fun j b' hb' => ?_, (modifyBlock_fields hm).2.1 ▸ hc.temps, fun j b' hb' => (hfate j b' hb').2.2⟩
  exact ⟨(hfate j b' hb').1, (hfate j b' hb').2.1⟩

end FlowGraph

end RegionGuard

import Mathlib.Algebra.GroupWithZero.Nat
import RegionGuard.Proofs.Blocks
import RegionGuard.Proofs.Detours
import RegionGuard.Proofs.Entries
import RegionGuard.Proofs.Numbering
import RegionGuard.Proofs.Tidiness
set_option autoImplicit false

/-!
# Tallies

A graph has as many instructions of a kind as its blocks have together, and a program as many as its functions. A block
that changes changes the tally by as much as its own, and what an edit of every function adds is what its answers add
up to.
-/

namespace RegionGuard

open Stateful

namespace Table

variable {κ α : Type} [Ord κ] [DecidableEq κ] [Std.TransOrd κ] [Std.LawfulEqOrd κ]

/-- Under a key in use a value takes the place of the old one in a sum. -/
theorem sum_values_insert (w : α → Nat) (t : Table κ α) (k : κ) (v : α) :
    ((t.insert k v).values.map w).sum + (t.get? k).elim 0 w = (t.values.map w).sum + w v := by
  have hsum : ∀ l : List (κ × α), (l.Pairwise fun a b => compare a.1 b.1 = .lt) →
      (((insertEntry k v l).map (·.2)).map w).sum + (l.lookup k).elim 0 w = ((l.map (·.2)).map w).sum + w v := by
    intro l sorted
    induction l with
    | nil => simp [insertEntry]
    | cons e rest ih =>
      rw [List.pairwise_cons] at sorted
      rw [lookup_cons_if]
      by_cases hk : k = e.1
      · simp [insertEntry, hk]
        omega
      · rw [if_neg hk]
        unfold insertEntry
        split
        · rename_i hlt
          -- Every later key is greater still.
          have hnone : rest.lookup k = none := by
            rw [← Option.not_isSome_iff_eq_none, Option.isSome_iff_exists]
            rintro ⟨u, hu⟩
            have hmem := (lookup_eq_some_iff sorted.2 k u).mp hu
            have hgt := Std.TransCmp.lt_trans hlt (sorted.1 _ hmem)
            simp at hgt
          rw [hnone]
          simp
          omega
        · rename_i heq
          exact absurd (Std.LawfulEqCmp.eq_of_compare heq) hk
        · have := ih sorted.2
          simp only [List.map_cons, List.sum_cons]
          omega
  exact hsum t.entries t.sorted

end Table

/-- How many instructions of a graph have a property. -/
def FlowGraph.tally (P : Instruction → Bool) (c : FlowGraph) : Nat :=
  (c.blocks.map fun b => b.instructions.countP P).sum

/-- How many instructions of a function have a property. -/
def Function.tally (P : Instruction → Bool) (f : Function) : Nat := f.located.countP fun e => P e.2

/-- How many instructions of a program have a property. -/
def Program.tally (P : Instruction → Bool) (p : Program) : Nat := (p.functions.values.map (·.tally P)).sum

variable {P : Instruction → Bool}

theorem Function.tally_of_body {f : Function} {body : FlowGraph} (hbody : f.body = some body) :
    f.tally P = body.tally P := by
  unfold tally located blocks FlowGraph.tally
  rw [hbody, List.countP_flatMap]
  refine congrArg List.sum (List.map_congr_left fun b _ => ?_)
  simp only [Function.comp_def, List.countP_map]

theorem Function.tally_of_none {f : Function} (hbody : f.body = none) : f.tally P = 0 := by
  unfold tally located blocks
  rw [hbody]
  rfl

namespace FlowGraph

variable {c c' : FlowGraph} {k : Nat}

theorem tally_modifyBlock {f : Block → Outcome Block} {n : Nat}
    (hf : ∀ b b', c.block k = .ok b → f b = .ok b' → b'.instructions.countP P = b.instructions.countP P + n)
    (hc : c.modifyBlock k f = .ok c') : c'.tally P = c.tally P + n := by
  obtain ⟨b, b', hb, hb', rfl⟩ := modifyBlock_ok hc
  have hsum := Table.sum_values_insert (fun b : Block => b.instructions.countP P) c.graph.vertices k b'
  rw [block_eq_ok.mp hb] at hsum
  have hadds := hf b b' hb hb'
  unfold tally blocks Graph.setVertex
  simp only [Option.elim_some] at hsum ⊢
  omega

theorem tally_inject {position : Block → Nat} {tags : List (String × String)} {operations : List Operation} {n : Nat}
    (hn : ∀ next, (Instruction.drafted tags next operations).countP P = n)
    (hc : c.modifyBlock k (fun b => b.inject (position b) tags operations) = .ok c') : c'.tally P = c.tally P + n := by
  refine tally_modifyBlock (fun b b' _ hb' => ?_) hc
  rw [Block.inject_ok hb', List.countP_append, List.countP_append, hn]
  conv_rhs => rw [← List.take_append_drop (position b) b.instructions, List.countP_append]
  omega

theorem tally_modifyInstruction (numbered : c.Numbered) {l : Location} {f : Instruction → Instruction}
    (hf : ∀ i, P (Block.changeAt l.instruction f i) = P i) (hc : c.modifyInstruction l f = .ok c') :
    c'.tally P = c.tally P := by
  refine tally_modifyBlock (n := 0) (fun b b' hb hb' => ?_) hc
  rw [(Block.modify_ok (numbered_iff.mp numbered _ b hb).2 hb').2, List.countP_map]
  exact List.countP_congr fun i _ => by simp only [Function.comp_def, hf]

theorem tally_newBlock (hn : c.newBlock = .ok (k, c')) : c'.tally P = c.tally P := by
  obtain ⟨habsent, hg⟩ := Graph.insertVertex_ok (newBlock_ok hn).2.2.2.2
  have hsum := Table.sum_values_insert (fun b : Block => b.instructions.countP P) c.graph.vertices k (.make k)
  have habsent : c.graph.vertices.get? k = none := habsent
  rw [habsent] at hsum
  have hnone : (Block.make k).instructions.countP P = 0 := rfl
  unfold tally blocks
  rw [hg]
  simp only [Option.elim_none, hnone, Nat.add_zero] at hsum
  exact hsum

end FlowGraph

namespace Program

variable {p q : Program} {c : Configuration} {α : Type}

theorem sum_foldlM_edit {e : Function → Outcome (α × Function)} {w : Function → Nat} {n : α → Nat}
    {entries : List (String × Function)} (distinct : (entries.map (·.1)).Nodup)
    {r r' : List α} {t t' : Table String Function}
    (he : ∀ x ∈ entries, t.get? x.1 = some x.2 ∧ ∀ a g, e x.2 = .ok (a, g) → w g = w x.2 + n a)
    (h : entries.foldlM (fun (r, t) (name, g) => do
      let (a, g') ← e g
      return (a :: r, t.insert name g')) (r, t) = (.ok (r', t') : Outcome _)) :
    (t'.values.map w).sum + (r.map n).sum = (t.values.map w).sum + (r'.map n).sum := by
  induction entries generalizing r t with
  | nil =>
    cases h
    rfl
  | cons x rest ih =>
    rw [List.map_cons, List.nodup_cons] at distinct
    rw [List.foldlM_cons] at h
    obtain ⟨⟨r₁, t₁⟩, hstep, hrest⟩ := bind_eq_ok.mp h
    obtain ⟨⟨a, g⟩, hg, hpair⟩ := bind_eq_ok.mp hstep
    cases hpair
    obtain ⟨hx, hadds⟩ := he x List.mem_cons_self
    have hrest := ih distinct.2 (fun y hy => by
      obtain ⟨hget, hadds⟩ := he y (List.mem_cons_of_mem _ hy)
      refine ⟨?_, hadds⟩
      rw [Table.get?_insert, if_neg]
      · exact hget
      · intro heq
        exact distinct.1 (heq ▸ List.mem_map_of_mem hy)) hrest
    have hsum := Table.sum_values_insert w t x.1 g
    rw [hx, Option.elim_some, hadds a g hg] at hsum
    rw [List.map_cons, List.sum_cons] at hrest
    omega

theorem sum_editFunctions {e : Function → Outcome (α × Function)} {answers : List α} {w : Function → Nat} {n : α → Nat}
    (he : ∀ name f a g, p.function? name = some f → e f = .ok (a, g) → w g = w f + n a)
    (hedit : p.editFunctions e = .ok (answers, q)) :
    (q.functions.values.map w).sum = (p.functions.values.map w).sum + (answers.map n).sum := by
  obtain ⟨⟨reversed, t⟩, hfold, hanswer⟩ := bind_eq_ok.mp hedit
  cases hanswer
  have hsum := sum_foldlM_edit p.functions.nodup_keys (fun x hx => by
    have hget := (p.functions.get?_eq_some_iff x.1 x.2).mpr hx
    exact ⟨hget, fun a g hg => he x.1 x.2 a g hget hg⟩) hfold
  rw [List.map_reverse, List.sum_reverse]
  simpa using hsum

theorem tally_setFunction {name : String} {f g : Function} {P : Instruction → Bool} (hf : p.function? name = some f) :
    (p.setFunction name g).tally P + f.tally P = p.tally P + g.tally P := by
  have hsum := Table.sum_values_insert (·.tally P) p.functions name g
  have hf : p.functions.get? name = some f := hf
  rw [hf] at hsum
  exact hsum

theorem declareHooks_bodies (p : Program) (h : Hooks) (P : Instruction → Bool) :
    (∀ name f, (p.declareHooks h).function? name = some f → p.function? name = some f ∨
      p.function? name = none ∧ f.body = none) ∧ (p.declareHooks h).tally P = p.tally P := by
  let I := fun q : Program => (∀ name f, p.function? name = some f → q.function? name = some f) ∧
    (∀ name f, q.function? name = some f → p.function? name = some f ∨ p.function? name = none ∧ f.body = none) ∧
      q.tally P = p.tally P
  have hall : I (p.declareHooks h) := by
    refine declareHooks_induction (P := I) ⟨fun _ _ hf => hf, fun _ _ hf => .inl hf, rfl⟩ ?_
    rintro q name arguments ⟨hkeeps, hold, htally⟩ hmissing
    have hget : ∀ other, (q.addFunction (.declaration name arguments .void)).function? other =
        if other = name then some (.declaration name arguments .void) else q.function? other := fun other =>
      Table.get?_insert ..
    refine ⟨fun other f hf => ?_, fun other f hf => ?_, ?_⟩
    · rw [hget, if_neg]
      · exact hkeeps other f hf
      · rintro rfl
        cases hmissing.symm.trans (hkeeps _ f hf)
    · rw [hget] at hf
      split at hf
      · rename_i heq
        cases hf
        subst heq
        refine .inr ⟨?_, rfl⟩
        cases hp : p.function? other with
        | none => rfl
        | some g => cases hmissing.symm.trans (hkeeps _ g hp)
      · exact hold other f hf
    · have hsum := Table.sum_values_insert (·.tally P) q.functions name
        (.declaration name arguments .void)
      have hmissing : q.functions.get? name = none := hmissing
      have hnone : (Function.declaration name arguments .void).tally P = 0 := Function.tally_of_none rfl
      rw [hmissing, hnone, Option.elim_none, Nat.add_zero, Nat.add_zero] at hsum
      exact hsum.trans htally
  exact hall.2

end Program

end RegionGuard

import Mathlib.Data.List.TakeWhile
import RegionGuard.Proofs.RangeDetours
import RegionGuard.Proofs.TidyPasses
set_option autoImplicit false

namespace RegionGuard

open FlowGraph Edit
open Activation (phis)

theorem Activation.phis_append {l : List Instruction} (hl : ∀ i ∈ l, i.operation.isPhi = true) (l' : List Instruction) :
    phis (l ++ l') = phis l ++ phis l' := by
  induction l with
  | nil => rfl
  | cons i rest ih =>
    obtain ⟨dst, incoming, ho⟩ := Activation.exists_phi (hl i List.mem_cons_self)
    rw [List.cons_append, phis_cons ho, phis_cons ho, ih fun j hj => hl j (List.mem_cons_of_mem i hj)]
    rfl

namespace Preheader

variable {c c' c'' : FlowGraph} {header preheader : Nat} {outside : List Nat}

structure Redirected (heads : List Nat) (old new : Nat) (c c' : FlowGraph) : Prop where
  fields : c' = { c with graph := c'.graph }
  vertices : c'.graph.vertices = c.graph.vertices
  had : ∀ a ∈ heads, (c.graph.edges.get? (a, old)).isSome
  gone : ∀ a ∈ heads, c'.graph.edges.get? (a, old) = none
  moved : ∀ a ∈ heads, ∀ e, c.graph.edges.get? (a, old) = some e →
    ∃ e', c'.graph.edges.get? (a, new) = some e' ∧ e'.condition = e.condition
  others : ∀ a b, ¬ (a ∈ heads ∧ (b = old ∨ b = new)) → c'.graph.edges.get? (a, b) = c.graph.edges.get? (a, b)

theorem redirect_ok {head old new : Nat} (hne : old ≠ new) {u : Unit}
    (h : (redirect head old new).run c = .ok (u, c')) : Redirected [head] old new c c' := by
  have h := step_ok.mp h
  unfold redirectEdge at h
  cases hr : c.graph.removeEdge head old with
  | error e =>
    rw [hr] at h
    cases h
  | ok removed =>
    rw [hr] at h
    simp only at h
    split at h
    · cases h
    · rename_i g' hg'
      cases h
      obtain ⟨hold, hremoved⟩ := Graph.removeEdge_ok hr
      obtain ⟨-, hinserted⟩ := Graph.insertEdge_ok hg'
      have hedges : ∀ a b, g'.edges.get? (a, b) =
          if (a, b) = (head, new) then some { removed.1 with head := head, tail := new }
          else if (a, b) = (head, old) then none else c.graph.edges.get? (a, b) := by
        intro a b
        rw [hinserted]
        refine (Table.get?_insert _ _ _ _).trans ?_
        rw [hremoved]
        simp only [Table.get?_erase]
        rfl
      refine ⟨rfl, (Graph.vertices_of_insertEdge hg').trans (Graph.vertices_of_removeEdge hr), fun a ha => ?_,
        fun a ha => ?_, fun a ha e he => ?_, fun a b hab => ?_⟩
      · rw [List.mem_singleton.mp ha, hold]
        rfl
      · rw [List.mem_singleton.mp ha]
        refine (hedges head old).trans ?_
        simp [hne]
      · rw [List.mem_singleton.mp ha] at he ⊢
        rw [hold] at he
        cases he
        exact ⟨_, (hedges head new).trans (if_pos rfl), rfl⟩
      · refine (hedges a b).trans ?_
        rw [if_neg, if_neg]
        · rintro ⟨⟩
          exact hab ⟨List.mem_singleton.mpr rfl, .inl rfl⟩
        · rintro ⟨⟩
          exact hab ⟨List.mem_singleton.mpr rfl, .inr rfl⟩

theorem Redirected.cons {head : Nat} {rest : List Nat} {old new : Nat} (h : Redirected [head] old new c c')
    (h' : Redirected rest old new c' c'') : Redirected (head :: rest) old new c c'' := by
  have hnot : head ∉ rest := by
    intro hmem
    have := h'.had head hmem
    rw [h.gone head (List.mem_singleton.mpr rfl)] at this
    cases this
  have hsame : ∀ a ∈ rest, ∀ b, c'.graph.edges.get? (a, b) = c.graph.edges.get? (a, b) := by
    intro a ha b
    refine h.others a b fun hab => hnot ?_
    rw [← List.mem_singleton.mp hab.1]
    exact ha
  have hhead : ∀ b, c''.graph.edges.get? (head, b) = c'.graph.edges.get? (head, b) := fun b =>
    h'.others head b fun hab => hnot hab.1
  refine ⟨?_, h'.vertices.trans h.vertices, fun a ha => ?_, fun a ha => ?_, fun a ha e he => ?_, fun a b hab => ?_⟩
  · rw [h'.fields, h.fields]
  · rcases List.mem_cons.mp ha with rfl | ha
    · exact h.had a (List.mem_singleton.mpr rfl)
    · rw [← hsame a ha]
      exact h'.had a ha
  · rcases List.mem_cons.mp ha with rfl | ha
    · exact (hhead old).trans (h.gone a (List.mem_singleton.mpr rfl))
    · exact h'.gone a ha
  · rcases List.mem_cons.mp ha with rfl | ha
    · obtain ⟨e', he', hcondition⟩ := h.moved a (List.mem_singleton.mpr rfl) e he
      exact ⟨e', (hhead new).trans he', hcondition⟩
    · exact h'.moved a ha e ((hsame a ha old).trans he)
  · refine (h'.others a b fun hab' => hab ⟨List.mem_cons_of_mem _ hab'.1, hab'.2⟩).trans (h.others a b fun hab' => ?_)
    refine hab ⟨?_, hab'.2⟩
    rw [List.mem_singleton.mp hab'.1]
    exact List.mem_cons_self

theorem redirected_forM {old new : Nat} (hne : old ≠ new) {heads : List Nat} {u : PUnit}
    (h : (heads.forM fun head => redirect head old new).run c = .ok (u, c')) : Redirected heads old new c c' := by
  induction heads generalizing c with
  | nil =>
    obtain ⟨-, rfl⟩ := pure_ok.mp h
    exact ⟨rfl, rfl, fun a ha => (List.not_mem_nil ha).elim, fun a ha => (List.not_mem_nil ha).elim,
      fun a ha => (List.not_mem_nil ha).elim, fun _ _ _ => rfl⟩
  | cons head rest ih =>
    obtain ⟨_, c₁, hhead, hrest⟩ := Edit.bind_ok.mp h
    exact (redirect_ok hne hhead).cons (ih hrest)

def Hands (ps : List (Variable × List (Value × Nat))) (n preheader : Nat) (outside : List Nat)
    (l l' : List (Value × Nat)) : Prop :=
  (∀ z, z ≠ preheader → z ∉ outside → arriving? l' z = arriving? l z) ∧
    ∀ y ∈ outside, ∀ v, arriving? l y = some v →
      ∃ w, arriving? l' preheader = some w ∧ w.Avoids n ∧ Supplies ps y v w

section Merging

variable {l : List (Value × Nat)} {z : Nat}

theorem arriving?_filter {p : Value × Nat → Bool} (hp : ∀ e ∈ l, e.2 = z → p e = true) :
    arriving? (l.filter p) z = arriving? l z := by
  unfold arriving?
  induction l with
  | nil => rfl
  | cons e rest ih =>
    have hrest := ih fun x hx => hp x (List.mem_cons_of_mem e hx)
    by_cases he : e.2 = z
    · rw [List.filter_cons_of_pos (hp e List.mem_cons_self he)]
      simp [he]
    · by_cases hpe : p e = true
      · rw [List.filter_cons_of_pos hpe]
        simpa [he] using hrest
      · rw [List.filter_cons_of_neg hpe]
        simpa [he] using hrest

theorem arriving?_append_of_none {l' : List (Value × Nat)} (hl : ∀ e ∈ l, e.2 ≠ z) :
    arriving? (l ++ l') z = arriving? l' z := by
  unfold arriving?
  rw [List.find?_append, List.find?_eq_none.mpr fun e he => by simpa using hl e he, Option.none_or]

theorem arriving?_append_of_ne {w : Value} {k : Nat} (hz : z ≠ k) : arriving? (l ++ [(w, k)]) z = arriving? l z := by
  unfold arriving?
  rw [List.find?_append]
  simp [Ne.symm hz]

theorem mem_of_arriving? {v : Value} (h : arriving? l z = some v) : (v, z) ∈ l := by
  obtain ⟨e, he, rfl⟩ := Option.map_eq_some_iff.mp h
  have hlabel := List.find?_some he
  rw [decide_eq_true_eq] at hlabel
  exact hlabel ▸ List.mem_of_find?_eq_some he

theorem agree_eq {v : Value} (h : agree l = some v) : ∀ e ∈ l, e.1 = v := by
  unfold agree at h
  split at h
  · cases h
  · rename_i w k rest
    split at h
    · rename_i hall
      cases h
      intro e he
      rcases List.mem_cons.mp he with rfl | he
      · rfl
      · simpa using List.all_eq_true.mp hall e he
    · cases h

theorem hands_of_supplies {ps : List (Variable × List (Value × Nat))} {n : Nat} {w : Value}
    (labels : ∀ e ∈ l, e.2 ≠ preheader) (avoids : w.Avoids n)
    (supplies : ∀ y ∈ outside, ∀ v, arriving? l y = some v → Supplies ps y v w) :
    Hands ps n preheader outside l (l.filter (not ∘ fun e => outside.contains e.2) ++ [(w, preheader)]) := by
  refine ⟨fun z hz hout => ?_, fun y hy v hv => ⟨w, ?_, avoids, supplies y hy v hv⟩⟩
  · rw [arriving?_append_of_ne hz]
    refine arriving?_filter fun e _ he => ?_
    simpa [he] using hout
  · rw [arriving?_append_of_none fun e he => labels e (List.mem_of_mem_filter he)]
    simp [arriving?]

theorem Hands.mono {ps added : List (Variable × List (Value × Nat))} {n n' : Nat} {l' : List (Value × Nat)}
    (h : Hands ps n preheader outside l l') (hn : n ≤ n') (hadded : ∀ e ∈ added, e.1.IsUpcoming n) :
    Hands (ps ++ added) n' preheader outside l l' := by
  refine ⟨h.1, fun y hy v hv => ?_⟩
  obtain ⟨w, hw, havoids, hsupplies⟩ := h.2 y hy v hv
  refine ⟨w, hw, havoids.mono hn, ?_⟩
  rcases hsupplies with ⟨rfl, hspares⟩ | ⟨e, he, heq, htakes⟩
  · refine .inl ⟨rfl, fun e he x hx => ?_⟩
    rcases List.mem_append.mp he with he | he
    · exact hspares e he x hx
    · obtain ⟨number, hnumber, hname⟩ := hadded e he
      exact fun hsame => havoids x hx ⟨number, hnumber, hsame.trans hname⟩
  · exact .inr ⟨e, List.mem_append_left _ he, heq, htakes⟩

end Merging

structure Settles (header preheader : Nat) (outside : List Nat) (l : List Instruction) (c c' : FlowGraph) :
    Prop where
  edges : c'.graph.edges = c.graph.edges
  fields : c'.entry = c.entry ∧ c'.nextBlock = c.nextBlock
  temps : c.nextTemp ≤ c'.nextTemp
  others : ∀ j, j ≠ header → j ≠ preheader → c'.block j = c.block j
  front : ∀ b, c.block preheader = .ok b → (∀ i ∈ b.instructions, i.operation.isPhi = true) →
    ∃ b', c'.block preheader = .ok b' ∧ (∀ i ∈ b'.instructions, i.operation.isPhi = true) ∧
      ∃ added, phis b'.instructions = phis b.instructions ++ added ∧ (added.map (·.1.name)).Nodup ∧
        ∀ e ∈ added, ∃ number ty, e.1 = .temporary number ty ∧ c.nextTemp ≤ number ∧ number < c'.nextTemp
  changes : ∀ b, c.block header = .ok b → ∃ change : Instruction → Instruction,
    c'.block header = .ok { b with instructions := b.instructions.map change } ∧
      (∀ i, (change i).index = i.index) ∧ (∀ i, i.index ∉ l.map (·.index) → change i = i) ∧
      ∀ i ∈ l, ∀ p, c'.block preheader = .ok p →
        i.Relabels (Hands (phis p.instructions) c'.nextTemp preheader outside) (change i)
  sources : ∀ b b', c.block preheader = .ok b → (∀ i ∈ b.instructions, i.operation.isPhi = true) →
    c'.block preheader = .ok b' → ∀ e ∈ phis b'.instructions, e ∈ phis b.instructions ∨
      ∃ i ∈ l, ∃ dst incoming, i.operation = .phi dst incoming ∧ e.2 = incoming.filter fun x => outside.contains x.2

theorem Settles.refl (header preheader : Nat) (outside : List Nat) (c : FlowGraph) :
    Settles header preheader outside [] c c where
  edges := rfl
  fields := ⟨rfl, rfl⟩
  temps := Nat.le_refl _
  others _ _ _ := rfl
  front b hb hphis := ⟨b, hb, hphis, [], (List.append_nil _).symm, List.nodup_nil, fun e he => (List.not_mem_nil he).elim⟩
  changes b hb := ⟨id, by rw [List.map_id]; exact hb, fun _ => rfl, fun _ _ => rfl, fun i hi => (List.not_mem_nil hi).elim⟩
  sources b b' hb _ hb' e he := by
    cases hb.symm.trans hb'
    exact .inl he

theorem isUpcoming_of_number {e : Variable × List (Value × Nat)} {n n' : Nat}
    (h : ∃ number ty, e.1 = .temporary number ty ∧ n ≤ number ∧ number < n') : e.1.IsUpcoming n := by
  obtain ⟨number, ty, heq, hle, -⟩ := h
  exact heq ▸ Variable.isUpcoming_temporary.mpr hle

theorem Settles.cons {i : Instruction} {rest : List Instruction} (distinct : ((i :: rest).map (·.index)).Nodup)
    (h : Settles header preheader outside [i] c c') (h' : Settles header preheader outside rest c' c'')
    (hfront : ∃ p, c.block preheader = .ok p ∧ ∀ i ∈ p.instructions, i.operation.isPhi = true) :
    Settles header preheader outside (i :: rest) c c'' := by
  rw [List.map_cons, List.nodup_cons] at distinct
  refine ⟨h'.edges.trans h.edges, ⟨h'.fields.1.trans h.fields.1, h'.fields.2.trans h.fields.2⟩,
    Nat.le_trans h.temps h'.temps, fun j hj hj' => (h'.others j hj hj').trans (h.others j hj hj'),
    fun b hb hphis => ?_, fun b hb => ?_, fun b b'' hb hphis hb'' e he => ?_⟩
  · obtain ⟨b', hb', hphis', added, hadded, hnodup, hnumbers⟩ := h.front b hb hphis
    obtain ⟨b'', hb'', hphis'', added', hadded', hnodup', hnumbers'⟩ := h'.front b' hb' hphis'
    refine ⟨b'', hb'', hphis'', added ++ added', by rw [hadded', hadded, List.append_assoc], ?_, fun e he => ?_⟩
    · rw [List.map_append]
      refine hnodup.append hnodup' fun name hname hname' => ?_
      obtain ⟨e, he, rfl⟩ := List.mem_map.mp hname
      obtain ⟨e', he', heq⟩ := List.mem_map.mp hname'
      obtain ⟨number, ty, hnumber, -, hlt⟩ := hnumbers e he
      obtain ⟨number', ty', hnumber', hle, -⟩ := hnumbers' e' he'
      rw [hnumber, hnumber'] at heq
      have := temporaryName_injective heq
      omega
    · have htemps := h.temps
      have htemps' := h'.temps
      rcases List.mem_append.mp he with he | he
      · obtain ⟨number, ty, heq, hle, hlt⟩ := hnumbers e he
        exact ⟨number, ty, heq, hle, by omega⟩
      · obtain ⟨number, ty, heq, hle, hlt⟩ := hnumbers' e he
        exact ⟨number, ty, heq, by omega, hlt⟩
  · obtain ⟨change, hb', hindex, hkeeps, hchanges⟩ := h.changes b hb
    obtain ⟨change', hb'', hindex', hkeeps', hchanges'⟩ := h'.changes _ hb'
    obtain ⟨p, hp, hphis⟩ := hfront
    obtain ⟨p', hp', hphis', -⟩ := h.front p hp hphis
    obtain ⟨p'', hp'', -, added, hadded, -, hnumbers⟩ := h'.front p' hp' hphis'
    refine ⟨change' ∘ change, by rw [hb'', List.map_map], fun j => (hindex' _).trans (hindex j), fun j hj => ?_,
      fun j hj q hq => ?_⟩
    · rw [List.map_cons, List.mem_cons, not_or] at hj
      rw [Function.comp, hkeeps j (by simpa using hj.1), hkeeps' j hj.2]
    · cases hp''.symm.trans hq
      rcases List.mem_cons.mp hj with rfl | hj
      · rw [Function.comp, hkeeps' (change j) (by rw [hindex]; exact distinct.1)]
        rcases hchanges j List.mem_cons_self p' hp' with ⟨dst, l, l', ho, ho', hhands⟩ | hother
        · refine .inl ⟨dst, l, l', ho, ho', ?_⟩
          rw [hadded]
          exact hhands.mono h'.temps fun e he => isUpcoming_of_number (hnumbers e he)
        · exact .inr hother
      · have hj' : j.index ≠ i.index := fun heq => distinct.1 (List.mem_map.mpr ⟨j, hj, heq⟩)
        rw [Function.comp, hkeeps j (by simpa using hj')]
        exact hchanges' j hj p'' hp''
  · obtain ⟨b', hb', hphis', -⟩ := h.front b hb hphis
    rcases h'.sources b' b'' hb' hphis' hb'' e he with he | ⟨j, hj, hsource⟩
    · rcases h.sources b b' hb hphis hb' e he with he | ⟨j, hj, hsource⟩
      · exact .inl he
      · exact .inr ⟨j, List.mem_singleton.mp hj ▸ List.mem_cons_self, hsource⟩
    · exact .inr ⟨j, List.mem_cons_of_mem i hj, hsource⟩

theorem settles_of_change {i : Instruction} {incoming : List (Value × Nat)} (hne : header ≠ preheader)
    (numbered : c'.Numbered) (hedges : c'.graph.edges = c.graph.edges)
    (hfields : c'.entry = c.entry ∧ c'.nextBlock = c.nextBlock) (htemps : c.nextTemp ≤ c'.nextTemp)
    (hothers : ∀ j, j ≠ preheader → c'.block j = c.block j)
    (hfront : ∀ b, c.block preheader = .ok b → (∀ i ∈ b.instructions, i.operation.isPhi = true) →
      ∃ b', c'.block preheader = .ok b' ∧ (∀ i ∈ b'.instructions, i.operation.isPhi = true) ∧
        ∃ added, phis b'.instructions = phis b.instructions ++ added ∧ (added.map (·.1.name)).Nodup ∧
          ∀ e ∈ added, ∃ number ty, e.1 = .temporary number ty ∧ c.nextTemp ≤ number ∧ number < c'.nextTemp)
    (hsources : ∀ b b', c.block preheader = .ok b → (∀ i ∈ b.instructions, i.operation.isPhi = true) →
      c'.block preheader = .ok b' → ∀ e ∈ phis b'.instructions, e ∈ phis b.instructions ∨
        ∃ dst l, i.operation = .phi dst l ∧ e.2 = l.filter fun x => outside.contains x.2)
    (hi : ∀ p, c'.block preheader = .ok p → ∃ dst l, i.operation = .phi dst l ∧
      Hands (phis p.instructions) c'.nextTemp preheader outside l incoming)
    (h : c'.modifyInstruction ⟨header, i.index⟩ (setIncoming incoming) = .ok c'') :
    Settles header preheader outside [i] c c'' := by
  obtain ⟨b, b', hb, hb', hx, hrest⟩ := block_modifyBlock h
  obtain ⟨hentry, htemps', hnext⟩ := modifyBlock_fields h
  obtain ⟨-, rfl⟩ := Block.modify_ok (numbered_iff.mp numbered _ b hb).2 hb'
  have hedges' : c''.graph.edges = c'.graph.edges := edges_modifyBlock h
  have hpreheader : c''.block preheader = c'.block preheader := hrest preheader (Ne.symm hne)
  refine ⟨hedges'.trans hedges, ⟨hentry.trans hfields.1, hnext.trans hfields.2⟩, by rw [htemps']; exact htemps,
    fun j hj hj' => (hrest j hj).trans (hothers j hj'), fun p hp hphis => ?_, fun x hx' => ?_,
    fun p p' hp hphis hp' e he => ?_⟩
  · rw [hpreheader, htemps']
    exact hfront p hp hphis
  · have hsame : c.block header = c'.block header := (hothers header hne).symm
    cases (hsame.symm.trans hx').symm.trans hb
    refine ⟨Block.changeAt i.index (setIncoming incoming), hx, Block.changeAt_index (setIncoming_index incoming),
      fun j hj => if_neg (by simpa using hj), fun j hj p hp => ?_⟩
    cases List.mem_singleton.mp hj
    rw [hpreheader] at hp
    obtain ⟨dst, l, ho, hhands⟩ := hi p hp
    refine .inl ⟨dst, l, incoming, ho, ?_, htemps'.symm ▸ hhands⟩
    unfold Block.changeAt setIncoming
    rw [if_pos rfl, ho]
  · refine (hsources p p' hp hphis (hpreheader ▸ hp') e he).imp_right fun hsource => ?_
    exact ⟨i, List.mem_singleton.mpr rfl, hsource⟩

theorem settles_of_none {i : Instruction}
    (hi : ∀ ps n, i.Relabels (Hands ps n preheader outside) i) : Settles header preheader outside [i] c c where
  edges := rfl
  fields := ⟨rfl, rfl⟩
  temps := Nat.le_refl _
  others _ _ _ := rfl
  front b hb hphis := ⟨b, hb, hphis, [], (List.append_nil _).symm, List.nodup_nil, fun e he => (List.not_mem_nil he).elim⟩
  changes b hb := ⟨id, by rw [List.map_id]; exact hb, fun _ => rfl, fun _ _ => rfl, fun j hj p _ => by
    rw [List.mem_singleton.mp hj]
    exact hi _ _⟩
  sources b b' hb _ hb' e he := by
    cases hb.symm.trans hb'
    exact .inl he

theorem settles_reroute {i : Instruction} (hne : header ≠ preheader) (numbered : c.Numbered)
    (labels : ∀ dst l, i.operation = .phi dst l → ∀ e ∈ l, e.2 ≠ preheader)
    (avoids : ∀ dst l, i.operation = .phi dst l → ∀ e ∈ l, e.1.Avoids c.nextTemp)
    (hphis : ∃ p, c.block preheader = .ok p ∧ ∀ i ∈ p.instructions, i.operation.isPhi = true)
    (hps : ∀ p, c.block preheader = .ok p → ∀ e ∈ phis p.instructions, ∀ dst l, i.operation = .phi dst l →
      ∀ a ∈ l, ∀ x, a.1 = .variable x → x.name ≠ e.1.name)
    {u : Unit} (h : (reroute header preheader outside i).run c = .ok (u, c'')) :
    Settles header preheader outside [i] c c'' := by
  unfold reroute at h
  split at h
  · rename_i dst l ho
    rw [List.partition_eq_filter_filter] at h
    simp only at h
    have hout : ∀ y ∈ outside, ∀ v, arriving? l y = some v → (v, y) ∈ l.filter fun e => outside.contains e.2 := by
      intro y hy v hv
      exact List.mem_filter.mpr ⟨mem_of_arriving? hv, by simpa using hy⟩
    split at h
    · rename_i hempty
      obtain ⟨-, rfl⟩ := pure_ok.mp h
      refine settles_of_none fun ps n => .inl ⟨dst, l, l, ho, ho, fun _ _ _ => rfl, fun y hy v hv => ?_⟩
      have hmem := hout y hy v hv
      rw [List.isEmpty_iff.mp hempty] at hmem
      cases hmem
    · rename_i hempty
      obtain ⟨merged, c₁, hmerge, hset⟩ := Edit.bind_ok.mp h
      have hset := Edit.step_ok.mp hset
      have numbered₁ := keeps_merge _ _ _ _ _ _ numbered hmerge
      unfold merge at hmerge
      split at hmerge
      · -- One value arrives from everywhere.
        rename_i common hcommon
        obtain ⟨rfl, rfl⟩ := pure_ok.mp hmerge
        refine settles_of_change hne numbered rfl ⟨rfl, rfl⟩ (Nat.le_refl _) (fun _ _ => rfl) (fun b hb hphis => ?_)
          (fun b b' hb _ hb' e he => ?_) (fun p hp => ⟨dst, l, ho, ?_⟩) hset
        · exact ⟨b, hb, hphis, [], (List.append_nil _).symm, List.nodup_nil, fun e he => (List.not_mem_nil he).elim⟩
        · cases hb.symm.trans hb'
          exact .inl he
        · have hvalue : ∀ y ∈ outside, ∀ v, arriving? l y = some v → v = common ∧ (v, y) ∈ l := fun y hy v hv =>
            ⟨agree_eq hcommon _ (hout y hy v hv), mem_of_arriving? hv⟩
          refine hands_of_supplies (labels dst l ho) ?_ fun y hy v hv => ?_
          · obtain ⟨e, he⟩ : ∃ e, e ∈ l.filter fun e => outside.contains e.2 := by
              exact List.exists_mem_of_ne_nil _ fun hnil => hempty (by rw [hnil]; rfl)
            rw [← agree_eq hcommon e he]
            exact avoids dst l ho e (List.mem_of_mem_filter he)
          · obtain ⟨rfl, hmem⟩ := hvalue y hy v hv
            exact .inl ⟨rfl, fun e he x hx => hps p hp e he dst l ho _ hmem x hx⟩
      · -- The preheader gets a phi of its own.
        obtain ⟨temp, c₂, htemp, hrest⟩ := Edit.bind_ok.mp hmerge
        obtain ⟨_, c₃, hinsert, hvalue⟩ := Edit.bind_ok.mp hrest
        obtain ⟨rfl, rfl⟩ := pure_ok.mp hvalue
        obtain ⟨rfl, rfl⟩ := temp_ok (Edit.eval_ok.mp htemp)
        have hinsert := Edit.step_ok.mp hinsert
        obtain ⟨p, p', hp, hp', hx, hothers⟩ := block_modifyBlock hinsert
        obtain ⟨hentry, htemps, hnext⟩ := modifyBlock_fields hinsert
        have hedges : c₃.graph.edges = c.graph.edges := edges_modifyBlock (c := c.withTemps (c.nextTemp + 1)) hinsert
        have hp : c.block preheader = .ok p := hp
        have hall : ∀ i ∈ p.instructions, i.operation.isPhi = true := by
          obtain ⟨q, hq, hphis⟩ := hphis
          cases hq.symm.trans hp
          exact hphis
        have hinstructions : ∃ z : Instruction, z.operation = .phi (.temporary c.nextTemp dst.ty)
            (l.filter fun e => outside.contains e.2) ∧ p'.instructions = p.instructions ++ [z] := by
          have hlength : p.firstNonPhi = p.instructions.length := by
            unfold Block.firstNonPhi
            rw [List.takeWhile_eq_self_iff.mpr hall]
          rw [Block.insertOperation_eq_inject] at hp'
          refine ⟨(Instruction.make p.nextIndex _).setTags [], Instruction.setTags_operation _ _, ?_⟩
          rw [congrArg Block.instructions (Block.inject_ok hp'), hlength, List.take_length, List.drop_length,
            List.append_nil]
          rfl
        obtain ⟨z, hz, hinstructions⟩ := hinstructions
        have hadded : phis p'.instructions =
            phis p.instructions ++ [(.temporary c.nextTemp dst.ty, l.filter fun e => outside.contains e.2)] := by
          rw [hinstructions, Activation.phis_append hall, Activation.phis_cons hz]
          rfl
        have htemps : c₃.nextTemp = c.nextTemp + 1 := htemps
        refine settles_of_change hne numbered₁ hedges ⟨hentry, hnext⟩ (by omega) (fun j hj => hothers j hj)
          (fun b hb _ => ?_) (fun b b' hb _ hb' e he => ?_) (fun q hq => ⟨dst, l, ho, ?_⟩) hset
        · cases hp.symm.trans hb
          refine ⟨p', hx, fun i hi => ?_, _, hadded, by simp, fun e he => ?_⟩
          · rw [hinstructions] at hi
            rcases List.mem_append.mp hi with hi | hi
            · exact hall i hi
            · rw [List.mem_singleton.mp hi, hz]
              rfl
          · rw [List.mem_singleton.mp he]
            exact ⟨c.nextTemp, dst.ty, rfl, Nat.le_refl _, by omega⟩
        · cases hp.symm.trans hb
          cases hx.symm.trans hb'
          rw [hadded] at he
          refine (List.mem_append.mp he).imp_right fun he => ⟨dst, l, ho, ?_⟩
          rw [List.mem_singleton.mp he]
        · cases hx.symm.trans hq
          rw [hadded]
          refine hands_of_supplies (labels dst l ho) (Value.avoids_temporary _ (by omega)) fun y hy v hv => ?_
          refine .inr ⟨_, List.mem_append_right _ (List.mem_singleton.mpr rfl), rfl, ?_⟩
          rw [arriving?_filter fun e _ he => ?_]
          · exact hv
          · simpa [he] using hy
  · rename_i hnot
    obtain ⟨-, rfl⟩ := pure_ok.mp h
    refine settles_of_none fun ps n => .inr ⟨?_, rfl⟩
    cases ho : i.operation with
    | phi dst l => exact absurd ho (hnot dst l)
    | _ => rfl

theorem settles_forM {n : Nat} (hne : header ≠ preheader) {l : List Instruction}
    (distinct : (l.map (·.index)).Nodup) (numbered : c.Numbered) (hn : n ≤ c.nextTemp)
    (labels : ∀ i ∈ l, ∀ dst incoming, i.operation = .phi dst incoming → ∀ e ∈ incoming, e.2 ≠ preheader)
    (avoids : ∀ i ∈ l, ∀ dst incoming, i.operation = .phi dst incoming → ∀ e ∈ incoming, e.1.Avoids n)
    (hfront : ∃ p, c.block preheader = .ok p ∧ (∀ i ∈ p.instructions, i.operation.isPhi = true) ∧
      ∀ e ∈ phis p.instructions, e.1.IsUpcoming n)
    {u : PUnit} (h : (l.forM fun i => reroute header preheader outside i).run c = .ok (u, c')) :
    Settles header preheader outside l c c' := by
  induction l generalizing c with
  | nil =>
    obtain ⟨-, rfl⟩ := pure_ok.mp h
    exact .refl _ _ _ _
  | cons i rest ih =>
    obtain ⟨_, c₁, hhead, hrest⟩ := Edit.bind_ok.mp h
    obtain ⟨p, hp, hphis, hupcoming⟩ := hfront
    have hstep := settles_reroute hne numbered (labels i List.mem_cons_self)
      (fun dst incoming ho e he => (avoids i List.mem_cons_self dst incoming ho e he).mono hn) ⟨p, hp, hphis⟩
      (fun q hq e he dst incoming ho a ha x hx hname => by
        cases hp.symm.trans hq
        obtain ⟨number, hnumber, hdst⟩ := hupcoming e he
        exact avoids i List.mem_cons_self dst incoming ho a ha x hx ⟨number, hnumber, hname.trans hdst⟩) hhead
    have hnodup := List.nodup_cons.mp (List.map_cons ▸ distinct)
    refine hstep.cons distinct (ih hnodup.2 (keeps_reroute _ _ _ _ _ _ _ numbered hhead)
      (Nat.le_trans hn hstep.temps) (fun j hj => labels j (List.mem_cons_of_mem i hj))
      (fun j hj => avoids j (List.mem_cons_of_mem i hj)) ?_ hrest) ⟨p, hp, hphis⟩
    obtain ⟨p', hp', hphis', added, hadded, -, hnumbers⟩ := hstep.front p hp hphis
    refine ⟨p', hp', hphis', fun e he => ?_⟩
    rw [hadded] at he
    rcases List.mem_append.mp he with he | he
    · exact hupcoming e he
    · exact (isUpcoming_of_number (hnumbers e he)).mono hn

structure Fronted (header preheader : Nat) (outside : List Nat) (c c' : FlowGraph) : Prop where
  entry : c'.entry = c.entry
  temps : c.nextTemp ≤ c'.nextTemp
  fresh : preheader = c.nextBlock
  had : ∀ a ∈ outside, (c.graph.edges.get? (a, header)).isSome
  moved : ∀ a ∈ outside, ∀ e, c'.graph.edges.get? (a, preheader) = some e →
    ∃ e', c.graph.edges.get? (a, header) = some e' ∧ e'.condition = e.condition
  there : ∀ a ∈ outside, (c'.graph.edges.get? (a, preheader)).isSome
  gone : ∀ a ∈ outside, c'.graph.edges.get? (a, header) = none
  leads : ∀ b e, c'.graph.edges.get? (preheader, b) = some e → b = header
  others : ∀ a b, a ≠ preheader → ¬ (a ∈ outside ∧ (b = header ∨ b = preheader)) →
    c'.graph.edges.get? (a, b) = c.graph.edges.get? (a, b)
  blocks : ∀ j, j ≠ header → j ≠ preheader → c'.block j = c.block j
  front : ∃ p, c'.block preheader = .ok p ∧ (∀ i ∈ p.instructions, i.operation.isPhi = true) ∧
    ((phis p.instructions).map (·.1.name)).Nodup ∧ (∀ e ∈ phis p.instructions, e.1.IsUpcoming c.nextTemp) ∧
      ∃ b b', c.block header = .ok b ∧ c'.block header = .ok b' ∧
        b.Relabels (Hands (phis p.instructions) c'.nextTemp preheader outside) b'
  sources : ∀ p b, c'.block preheader = .ok p → c.block header = .ok b → ∀ e ∈ phis p.instructions,
    ∃ i ∈ b.instructions, ∃ dst incoming, i.operation = .phi dst incoming ∧
      e.2 = incoming.filter fun x => outside.contains x.2
  ahead : ∃ e, c'.graph.edges.get? (preheader, header) = some e ∧ e.condition = none

theorem insert_ok (hc : c.Orderly) (tidy : c.Tidy) {b : Block} (hb : c.block header = .ok b) {u : Unit}
    (h : (Preheader.insert header outside).run c = .ok (u, c')) : ∃ preheader, Fronted header preheader outside c c' := by
  obtain ⟨preheader, c₁, hnew, hrest⟩ := Edit.bind_ok.mp h
  obtain ⟨_, c₂, hredirect, hrest⟩ := Edit.bind_ok.mp hrest
  obtain ⟨_, c₃, hedge, hrest⟩ := Edit.bind_ok.mp hrest
  obtain ⟨b', c₄, hask, hrest⟩ := Edit.bind_ok.mp hrest
  obtain ⟨_, c₅, hreroute, hlast⟩ := Edit.bind_ok.mp hrest
  obtain ⟨-, rfl⟩ := pure_ok.mp hlast
  obtain ⟨hb', rfl⟩ := ask_ok.mp hask
  have hnew := Edit.eval_ok.mp hnew
  have hedge := Edit.step_ok.mp hedge
  rw [forIn_eq_forM] at hredirect hreroute
  obtain ⟨hpreheader, hnext₁, hentry₁, htemps₁, hg₁⟩ := newBlock_ok hnew
  obtain ⟨hfresh, hothers₁⟩ := block_newBlock hnew
  have hedges₁ := edges_newBlock hnew
  have hne : header ≠ preheader := Nat.ne_of_lt (hpreheader ▸ hc.bounded header b hb)
  have hredirected := redirected_forM hne hredirect
  have hblocks₂ : ∀ j, c₂.block j = c₁.block j := fun j =>
    congrArg (Failure.orRaise · _) (congrArg (Table.get? · j) hredirected.vertices)
  have hblocks₃ : ∀ j, c₄.block j = c₁.block j := fun j => (block_insertEdge hedge j).trans (hblocks₂ j)
  have hfields₃ : c₄.entry = c.entry ∧ c₄.nextTemp = c.nextTemp := by
    rw [(insertEdge_ok hedge).2, hredirected.fields]
    exact ⟨hentry₁, htemps₁⟩
  have hheader : c₄.block header = .ok b := (hblocks₃ header).trans ((hothers₁ header hne).trans hb)
  cases hheader.symm.trans hb'
  have hfront : c₄.block preheader = .ok (.make preheader) := (hblocks₃ preheader).trans hfresh
  have numbered : c₄.Numbered := by
    refine numbered_of_vertices (c := c₁) (numbered_of_newBlock hc.numbered hnew) ?_
    exact (Graph.vertices_of_insertEdge (insertEdge_ok hedge).1).trans hredirected.vertices
  have hwithin := tidy.code header b (block_eq_ok.mp hb)
  have hsettles := settles_forM (n := c.nextTemp) hne (numbered_iff.mp hc.numbered header b hb).2.2 numbered
    (Nat.le_of_eq hfields₃.2.symm)
    (fun i hi dst incoming ho e he => by
      have := (hwithin i hi).known dst incoming ho e he
      omega)
    (fun i hi dst incoming ho e he => by
      refine (hwithin i hi).avoids.reads _ ?_
      rw [ho]
      exact List.mem_map_of_mem he)
    ⟨_, hfront, fun i hi => (List.not_mem_nil hi).elim, fun e he => (List.not_mem_nil he).elim⟩ hreroute
  obtain ⟨p, hp, hphis, added, hadded, hnodup, hnumbers⟩ := hsettles.front _ hfront fun i hi => (List.not_mem_nil hi).elim
  obtain ⟨change, hb'', -, -, hchange⟩ := hsettles.changes b hheader
  have hadded : phis p.instructions = added := hadded
  -- No edge goes to or from a block that was not there.
  have hends : ∀ x y, (c.graph.edges.get? (x, y)).isSome → x ≠ preheader ∧ y ≠ preheader := by
    intro x y hxy
    obtain ⟨hx, hy⟩ := hc.wired.ends x y hxy
    obtain ⟨bx, hbx⟩ := Option.isSome_iff_exists.mp hx
    obtain ⟨by', hby⟩ := Option.isSome_iff_exists.mp hy
    have h₁ := hc.bounded x bx (block_eq_ok.mpr hbx)
    have h₂ := hc.bounded y by' (block_eq_ok.mpr hby)
    omega
  have hnone : ∀ x y, x = preheader ∨ y = preheader → c.graph.edges.get? (x, y) = none := by
    intro x y hxy
    cases he : c.graph.edges.get? (x, y) with
    | none => rfl
    | some e =>
      have := hends x y (by rw [he]; rfl)
      tauto
  have hout : ∀ a ∈ outside, a ≠ preheader := by
    intro a ha
    have := hredirected.had a ha
    rw [hedges₁] at this
    exact (hends a header this).1
  have hedges : ∀ x y, c₅.graph.edges.get? (x, y) =
      if (x, y) = (preheader, header) then some (.make preheader header none) else c₂.graph.edges.get? (x, y) := by
    intro x y
    rw [hsettles.edges]
    exact edge_insertEdge hedge x y
  have hothers₅ : ∀ x y, x ≠ preheader → c₅.graph.edges.get? (x, y) = c₂.graph.edges.get? (x, y) := by
    intro x y hx
    rw [hedges, if_neg fun hxy => hx (congrArg Prod.fst hxy)]
  refine ⟨preheader, hsettles.fields.1.trans hfields₃.1, hfields₃.2 ▸ hsettles.temps, hpreheader, fun a ha => ?_,
    fun a ha e he => ?_, fun a ha => ?_, fun a ha => ?_, fun y e he => ?_, fun x y hx hxy => ?_, fun j hj hj' => ?_,
    ⟨p, hp, hphis, hadded ▸ hnodup, fun e he => ?_, b, _, hb, hb'', ?_⟩, fun p' b' hp' hb' e he => ?_, _,
    (hedges preheader header).trans (if_pos rfl), rfl⟩
  · have := hredirected.had a ha
    rwa [hedges₁] at this
  · rw [hothers₅ a _ (hout a ha)] at he
    obtain ⟨e₀, he₀⟩ := Option.isSome_iff_exists.mp (hredirected.had a ha)
    obtain ⟨e', he', hcondition⟩ := hredirected.moved a ha e₀ he₀
    cases he.symm.trans he'
    exact ⟨e₀, hedges₁ ▸ he₀, hcondition.symm⟩
  · rw [hothers₅ a _ (hout a ha)]
    obtain ⟨e₀, he₀⟩ := Option.isSome_iff_exists.mp (hredirected.had a ha)
    obtain ⟨e', he', -⟩ := hredirected.moved a ha e₀ he₀
    rw [he']
    rfl
  · rw [hothers₅ a _ (hout a ha)]
    exact hredirected.gone a ha
  · rw [hedges] at he
    split at he
    · rename_i hxy
      exact congrArg Prod.snd hxy
    · rw [hredirected.others preheader y fun hy => hout preheader hy.1 rfl, hedges₁, hnone _ _ (.inl rfl)] at he
      cases he
  · rw [hothers₅ x y hx, hredirected.others x y hxy, hedges₁]
  · rw [hsettles.others j hj hj', hblocks₃, hothers₁ j hj']
  · exact hfields₃.2 ▸ isUpcoming_of_number (hnumbers e (hadded ▸ he))
  · refine Block.relabels_of_instructions (List.forall₂_map_right_iff.mpr (List.forall₂_same.mpr fun i hi => ?_))
    exact hchange i hi p hp
  · cases hb.symm.trans hb'
    rcases hsettles.sources _ p' hfront (fun i hi => (List.not_mem_nil hi).elim) hp' e he with he | hsource
    · exact (List.not_mem_nil he).elim
    · exact hsource

end Preheader

end RegionGuard

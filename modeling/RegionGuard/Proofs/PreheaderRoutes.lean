import RegionGuard.Proofs.Preheaders
set_option autoImplicit false

namespace RegionGuard

open FlowGraph Edit
open Activation (phis)

theorem exists_forall₂ {α β : Type} {S : List α} {S' : List β} {P : α → β → Prop} {A : β → Value → Prop}
    {Y : List Nat} {R : Nat → α → Value → Prop} {B : Nat → Value → Value → Prop} (hall : List.Forall₂ P S S')
    (h : ∀ s s', P s s' → ∃ u, A s' u ∧ ∀ y ∈ Y, ∀ v, R y s v → B y v u) :
    ∃ us, List.Forall₂ A S' us ∧ ∀ y ∈ Y, ∀ vs, List.Forall₂ (R y) S vs → List.Forall₂ (B y) vs us := by
  induction hall with
  | nil =>
    refine ⟨[], .nil, fun y _ vs hvs => ?_⟩
    cases hvs
    exact .nil
  | cons hhead _ ih =>
    obtain ⟨us, hus, hrest⟩ := ih
    obtain ⟨u, hu, hfirst⟩ := h _ _ hhead
    refine ⟨u :: us, .cons hu hus, fun y hy vs hvs => ?_⟩
    cases hvs with
    | cons hv htail => exact .cons (hfirst y hy _ hv) (hrest y hy _ htail)

namespace FlowGraph.Carries

open Preheader

variable {h : Hooks} {r : Routes} {c c' c'' : FlowGraph} {header preheader y₀ : Nat} {outside : List Nat}
  {b b' p : Block} {n : Nat}

theorem brings_old (hrelabels : b.Relabels (Hands (phis p.instructions) n preheader outside) b') (hy₀ : y₀ ∈ outside)
    {vs₀ : List Value} (htakes : Takes (phis b.instructions) y₀ vs₀) :
    ∃ ws, (∀ w ∈ ws, w.Avoids n) ∧ Takes (phis b'.instructions) preheader ws ∧
      ∀ y ∈ outside, ∀ vs, Takes (phis b.instructions) y vs →
        List.Forall₂ (Supplies (phis p.instructions) y) vs ws := by
  have hall : List.Forall₂ (fun e e' => (∃ v₀, arriving? e.2 y₀ = some v₀) ∧ e'.1 = e.1 ∧
      Hands (phis p.instructions) n preheader outside e.2 e'.2) (phis b.instructions) (phis b'.instructions) := by
    refine (List.forall₂_and_left _ _).mpr ⟨fun e he => ?_, hrelabels.phis⟩
    obtain ⟨v, -, hv⟩ := exists_of_mem_forall₂ htakes.flip he
    exact ⟨v, hv⟩
  obtain ⟨ws, hws, hsupplies⟩ := exists_forall₂ (A := fun e' u => u.Avoids n ∧ arriving? e'.2 preheader = some u)
    (Y := outside) (R := fun y e v => arriving? e.2 y = some v) (B := fun y v u => Supplies (phis p.instructions) y v u)
    hall fun e e' hee' => by
      obtain ⟨⟨v₀, hv₀⟩, -, hhands⟩ := hee'
      obtain ⟨u, hu, havoids, -⟩ := hhands.2 y₀ hy₀ v₀ hv₀
      refine ⟨u, ⟨havoids, hu⟩, fun y hy v hv => ?_⟩
      obtain ⟨u', hu', -, hsupplies⟩ := hhands.2 y hy v hv
      cases hu.symm.trans hu'
      exact hsupplies
  refine ⟨ws, fun w hw => ?_, hws.imp fun _ _ hw => hw.2, hsupplies⟩
  obtain ⟨e', -, havoids, -⟩ := exists_of_mem_forall₂ hws hw
  exact havoids

theorem brings_new (hrelabels : b.Relabels (Hands (phis p.instructions) n preheader outside) b') (hy₀ : y₀ ∈ outside)
    {brings vs₀ : List Value} (distinct : ((phis b.instructions).map (·.1.name)).Nodup) {n₀ : Nat} (hn : n₀ ≤ n)
    (avoids : ∀ w ∈ brings, w.Avoids n₀) (hup : ∀ e ∈ phis p.instructions, e.1.IsUpcoming n₀)
    (hsupplies : List.Forall₂ (Supplies (phis b.instructions) y₀) vs₀ brings) :
    ∃ ws, (∀ w ∈ ws, w.Avoids n) ∧ List.Forall₂ (Supplies (phis b'.instructions) preheader) ws brings ∧
      ∀ y ∈ outside, ∀ vs, List.Forall₂ (Supplies (phis b.instructions) y) vs brings →
        List.Forall₂ (Supplies (phis p.instructions) y) vs ws := by
  have hall : List.Forall₂ (fun w w' => ((∃ v₀, Supplies (phis b.instructions) y₀ v₀ w) ∧ w.Avoids n₀) ∧ w = w')
      brings brings := by
    refine (List.forall₂_and_left _ _).mpr ⟨fun w hw => ⟨?_, avoids w hw⟩, List.forall₂_same.mpr fun _ _ => rfl⟩
    obtain ⟨v, -, hv⟩ := exists_of_mem_forall₂ hsupplies hw
    exact ⟨v, hv⟩
  obtain ⟨ws, hws, hmeets⟩ := exists_forall₂ (A := fun w u => u.Avoids n ∧ Supplies (phis b'.instructions) preheader u w)
    (Y := outside) (R := fun y w v => Supplies (phis b.instructions) y v w)
    (B := fun y v u => Supplies (phis p.instructions) y v u) hall fun w w' hww' => by
      obtain ⟨⟨⟨v₀, hv₀⟩, havoids⟩, rfl⟩ := hww'
      rcases hv₀ with ⟨rfl, hspares⟩ | ⟨e, he, rfl, hv₀⟩
      · -- The header passes the value on, and so does the preheader.
        refine ⟨w, ⟨havoids.mono hn, .inl ⟨rfl, fun e' he' x hx => ?_⟩⟩, fun y _ v hv => ?_⟩
        · obtain ⟨e, he, hfst, -⟩ := exists_of_mem_forall₂ hrelabels.phis he'
          rw [hfst]
          exact hspares e he x hx
        · rcases hv with ⟨rfl, -⟩ | ⟨e, he, rfl, -⟩
          · refine .inl ⟨rfl, fun e he x hx hname => ?_⟩
            obtain ⟨number, hnumber, hdst⟩ := hup e he
            exact havoids x hx ⟨number, hnumber, hname.trans hdst⟩
          · exact absurd rfl (hspares e he e.1 rfl)
      · -- A phi of the header brings it.
        obtain ⟨e', he', hfst, hhands⟩ := exists_of_mem_forall₂ hrelabels.phis.flip he
        obtain ⟨u, hu, hua, -⟩ := hhands.2 y₀ hy₀ v₀ hv₀
        refine ⟨u, ⟨hua, .inr ⟨e', he', by rw [hfst], hu⟩⟩, fun y hy v hv => ?_⟩
        rcases hv with ⟨rfl, hspares⟩ | ⟨x, hx, heq, hv⟩
        · exact absurd rfl (hspares e he e.1 rfl)
        · have hname : x = e := List.inj_on_of_nodup_map distinct hx he
            (congrArg Variable.name (Value.variable.inj heq)).symm
          subst hname
          obtain ⟨u', hu', -, hmeets⟩ := hhands.2 y hy v hv
          cases hu.symm.trans hu'
          exact hmeets
  refine ⟨ws, fun w hw => ?_, (hws.imp fun _ _ hw => hw.2).flip, fun y hy vs hvs => hmeets y hy vs hvs.flip⟩
  obtain ⟨w', -, havoids, -⟩ := exists_of_mem_forall₂ hws hw
  exact havoids

theorem fronted (hc : Carries h r c c') (orderly : c''.Orderly) (hy₀ : y₀ ∈ outside)
    (hf : Fronted header preheader outside c' c'') : ∃ r', Carries h r' c c'' := by
  obtain ⟨p, hp, hphis, hnodup, hup, b, b', hb, hb', hrelabels⟩ := hf.front
  obtain ⟨e₀, he₀⟩ := Option.isSome_iff_exists.mp (hf.had y₀ hy₀)
  obtain ⟨vs₀, -, hvs₀⟩ := (hc.ways y₀ header e₀ he₀).values
  -- What the preheader brings.
  obtain ⟨ws, hws, hheader, hmeets⟩ : ∃ ws, (∀ w ∈ ws, w.Avoids c''.nextTemp) ∧
      ((r.toward header = none → Takes (phis b'.instructions) preheader ws) ∧
        ((r.toward header).isSome → List.Forall₂ (Supplies (phis b'.instructions) preheader) ws (r.brings header))) ∧
      ∀ y ∈ outside, ∀ vs, r.Accepts c' header y vs → List.Forall₂ (Supplies (phis p.instructions) y) vs ws := by
    cases htoward : r.toward header with
    | none =>
      obtain ⟨x, hx, htakes⟩ := hvs₀.old htoward
      cases hb.symm.trans hx
      obtain ⟨ws, hws, hpre, hmeets⟩ := brings_old hrelabels hy₀ htakes
      refine ⟨ws, hws, ⟨fun _ => hpre, fun hsome => (by cases hsome)⟩, fun y hy vs hvs => ?_⟩
      obtain ⟨x, hx, htakes⟩ := hvs.old htoward
      cases hb.symm.trans hx
      exact hmeets y hy vs htakes
    | some t =>
      have hsome : (r.toward header).isSome := by rw [htoward]; rfl
      obtain ⟨-, x, hx, hadded⟩ := hc.added header t htoward
      cases hb.symm.trans hx
      obtain ⟨x, hx, hsupplies⟩ := hvs₀.new hsome
      cases hb.symm.trans hx
      obtain ⟨ws, hws, hpre, hmeets⟩ := brings_new hrelabels hy₀ hadded.distinct hf.temps (hc.brought header hsome) hup
        hsupplies
      refine ⟨ws, hws, ⟨fun hnone => (by cases hnone), fun _ => hpre⟩, fun y hy vs hvs => ?_⟩
      obtain ⟨x, hx, hsupplies⟩ := hvs.new hsome
      cases hb.symm.trans hx
      exact hmeets y hy vs hsupplies
  have hold : ∀ j x, c'.block j = .ok x → j ≠ preheader := by
    intro j x hx
    have := hc.orderly.bounded j x hx
    have := hf.fresh
    omega
  have hends : ∀ a z, (c'.graph.edges.get? (a, z)).isSome → a ≠ preheader ∧ z ≠ preheader := by
    intro a z haz
    obtain ⟨ha, hz⟩ := hc.orderly.wired.ends a z haz
    obtain ⟨x, hx⟩ := Option.isSome_iff_exists.mp ha
    obtain ⟨x', hx'⟩ := Option.isSome_iff_exists.mp hz
    exact ⟨hold a x (block_eq_ok.mpr hx), hold z x' (block_eq_ok.mpr hx')⟩
  have htarget : ∀ j, j ≠ preheader → (r.set preheader (r.target header) ws).target j = r.target j := fun j hj =>
    Routes.target_congr (Routes.toward_set_of_ne hj)
  have hself : (r.set preheader (r.target header) ws).target preheader = r.target header :=
    Routes.target_of_toward Routes.toward_set_self
  have hheaderNe := hold header b hb
  refine ⟨r.set preheader (r.target header) ws, hc.replace orderly hf.entry hf.temps
    (fun j x hx => ⟨Routes.toward_set_of_ne (hold j x hx), Routes.brings_set_of_ne (hold j x hx)⟩)
    (fun j x hx => ?_) (fun j t hj => ?_) (fun a z e he => ?_) (fun a t ht => ?_)⟩
  · by_cases hjh : j = header
    · subst hjh
      cases hb.symm.trans hx
      exact ⟨b', hb', hrelabels.imp fun _ _ _ _ => trivial⟩
    · exact ⟨x, (hf.blocks j hjh (hold j x hx)).trans hx, .refl fun _ => trivial⟩
  · by_cases hjp : j = preheader
    · subst hjp
      rw [Routes.toward_set_self] at hj
      cases hj
      refine .inr ⟨?_, ⟨p, hp, hnodup, fun e he => (hup e he).mono hc.temps, ?_, ?_⟩, ?_⟩
      · exact hc.exists_target he₀
      · have : behind p.instructions = [] := List.dropWhile_eq_nil_iff.mpr fun i hi => hphis i hi
        rw [this]
        exact fun z hz => (List.not_mem_nil hz).elim
      · have : behind p.instructions = [] := List.dropWhile_eq_nil_iff.mpr fun i hi => hphis i hi
        rw [this]
        exact fun z hz => (List.not_mem_nil hz).elim
      · rw [Routes.brings_set_self]
        exact hws
    · rw [Routes.toward_set_of_ne hjp] at hj
      obtain ⟨-, x, hx, -⟩ := hc.added j t hj
      exact .inl ⟨x, hx⟩
  · by_cases hap : a = preheader
    · -- From the preheader to the header.
      subst hap
      obtain rfl := hf.leads z e he
      refine ⟨fun hnone => ?_, fun t ht => ?_, ws, ⟨fun hnone => ?_, fun _ => Routes.brings_set_self.symm⟩,
        fun hz => ?_, fun hz => ?_⟩
      · rw [Routes.toward_set_self] at hnone
        cases hnone
      · rw [Routes.toward_set_self] at ht
        rw [htarget z hheaderNe]
        exact Option.some.inj ht
      · rw [Routes.toward_set_self] at hnone
        cases hnone
      · rw [Routes.toward_set_of_ne hheaderNe] at hz
        exact ⟨b', hb', hheader.1 hz⟩
      · rw [Routes.toward_set_of_ne hheaderNe] at hz
        rw [Routes.brings_set_of_ne hheaderNe]
        exact ⟨b', hb', hheader.2 hz⟩
    · have hatoward : (r.set preheader (r.target header) ws).toward a = r.toward a := Routes.toward_set_of_ne hap
      have habrings : (r.set preheader (r.target header) ws).brings a = r.brings a := Routes.brings_set_of_ne hap
      by_cases hout : a ∈ outside ∧ (z = header ∨ z = preheader)
      · obtain ⟨ha, hz⟩ := hout
        rcases hz with rfl | rfl
        · rw [hf.gone a ha] at he
          cases he
        · -- From a block outside to the preheader.
          obtain ⟨e', he', hcondition⟩ := hf.moved a ha e he
          have hway := hc.ways a header e' he'
          obtain ⟨vs, hoffers, haccepts⟩ := hway.values
          refine ⟨fun hnone => ?_, fun t ht => ?_, vs, ?_, fun hz => ?_, fun _ => ?_⟩
          · rw [hself, ← hcondition]
            exact hway.old (hatoward ▸ hnone)
          · rw [hself]
            exact hway.new t (hatoward ▸ ht)
          · rw [hself]
            exact hoffers.congr hatoward habrings
          · rw [Routes.toward_set_self] at hz
            cases hz
          · rw [Routes.brings_set_self]
            exact ⟨p, hp, hmeets a ha vs haccepts⟩
      · rw [hf.others a z hap hout] at he
        have hz := (hends a z (by rw [he]; rfl)).2
        refine (hc.ways a z e he).congr ⟨hatoward, habrings⟩
          ⟨Routes.toward_set_of_ne hz, Routes.brings_set_of_ne hz⟩ fun x hx => ?_
        by_cases hzh : z = header
        · subst hzh
          cases hb.symm.trans hx
          refine ⟨b', hb', hrelabels.phis.imp fun e e' hee' => ⟨hee'.1, hee'.2.1 a hap fun ha => hout ⟨ha, .inl rfl⟩⟩⟩
        · exact ⟨x, (hf.blocks z hzh hz).trans hx, Routes.same_phis x a⟩
  · obtain ⟨z, hz, hztarget⟩ := hc.onward a t ht
    obtain ⟨hap, hzp⟩ := hends a z hz
    by_cases hout : a ∈ outside ∧ z = header
    · obtain ⟨ha, rfl⟩ := hout
      exact ⟨preheader, hf.there a ha, hself.trans hztarget⟩
    · refine ⟨z, ?_, (htarget z hzp).trans hztarget⟩
      rw [hf.others a z hap (by tauto)]
      exact hz

end FlowGraph.Carries

namespace Edit

def Wires {α : Type} (e : Edit α) : Prop := Keeps (fun c => c.graph.Wired) e

theorem wires_temp (ty : Ty) : Wires (eval (·.temp ty)) :=
  Keeps.eval fun _ _ _ hc h => temp_vertices h ▸ hc

theorem wires_newBlock : Wires (eval FlowGraph.newBlock) :=
  Keeps.eval fun _ _ _ hc h => hc.insertVertex (newBlock_ok h).2.2.2.2

theorem wires_insertEdge (head tail : Nat) (condition : Option Condition) :
    Wires (step (·.insertEdge head tail condition)) :=
  Keeps.step fun _ _ hc h => hc.insertEdge (insertEdge_ok h).1

theorem wires_modifyBlock (k : Nat) (f : Block → Outcome Block) : Wires (step (·.modifyBlock k f)) := by
  refine Keeps.step fun c c' hc h => ?_
  obtain ⟨b, b', hb, -, rfl⟩ := modifyBlock_ok h
  exact Graph.Wired.setVertex hc (Option.isSome_iff_exists.mpr ⟨b, block_eq_ok.mp hb⟩) b'

end Edit

namespace Preheader

theorem wires_redirect (head oldTail newTail : Nat) : Wires (redirect head oldTail newTail) := by
  refine Keeps.step fun c c' hc h => ?_
  unfold redirectEdge at h
  cases hr : c.graph.removeEdge head oldTail with
  | error e =>
    rw [hr] at h
    cases h
  | ok removed =>
    rw [hr] at h
    simp only at h
    split at h
    · cases h
    · rename_i g' hg'
      cases h
      exact (Graph.Wired.removeEdge hc hr).insertEdge hg'

theorem wires_reroute (header preheader : Nat) (outside : List Nat) (i : Instruction) :
    Wires (reroute header preheader outside i) := by
  unfold reroute
  split
  · simp only
    split
    · exact Keeps.answer _
    · refine Keeps.bind ?_ fun _ => wires_modifyBlock _ _
      unfold merge
      split
      · exact Keeps.answer _
      · exact (wires_temp _).bind fun _ => (wires_modifyBlock _ _).bind fun _ => Keeps.answer _
  · exact Keeps.answer _

theorem wires_insert (header : Nat) (outside : List Nat) : Wires (Preheader.insert header outside) :=
  wires_newBlock.bind fun preheader =>
    (Keeps.forIn fun head _ => wires_redirect head header preheader).bind fun _ =>
      (wires_insertEdge _ _ _).bind fun _ => (Keeps.ask _).bind fun _ =>
        (Keeps.forIn fun i _ => wires_reroute header preheader outside i).bind fun _ => Keeps.answer _

structure Fit (h : Hooks) (c c' : FlowGraph) : Prop where
  tidy : c'.Tidy
  carries : ∃ r, Carries h r c c'

variable {h : Hooks} {c : FlowGraph}

theorem fit_insert {header : Nat} {outside : List Nat} (hout : outside ≠ []) {c' c'' : FlowGraph} (hc : Fit h c c')
    {b : Block} (hb : c'.block header = .ok b) {u : Unit}
    (hrun : (Preheader.insert header outside).run c' = .ok (u, c'')) : Fit h c c'' := by
  obtain ⟨r, hcarries⟩ := hc.carries
  obtain ⟨preheader, hfronted⟩ := insert_ok hcarries.orderly hc.tidy hb hrun
  have tidy := keeps_tidy_insert header outside c' u c'' hc.tidy hrun
  obtain ⟨y₀, hy₀⟩ := List.exists_mem_of_ne_nil outside hout
  refine ⟨tidy, hcarries.fronted ⟨?_, ?_, tidy.filed, fun k b hb => ?_, fun k b hb i hi => ?_⟩ hy₀ hfronted⟩
  · exact keeps_insert header outside c' u c'' hcarries.orderly.numbered hrun
  · exact wires_insert header outside c' u c'' hcarries.orderly.wired hrun
  · exact tidy.vertices k b (block_eq_ok.mp hb)
  · exact (tidy.code k b (block_eq_ok.mp hb) i hi).known

theorem keeps_simplify_of_insert {P : FlowGraph → Prop} (wired : ∀ c, P c → c.graph.Wired)
    (hinsert : ∀ header outside, outside ≠ [] → ∀ c c' b u, P c → c.block header = .ok b →
      (Preheader.insert header outside).run c = .ok (u, c') → P c') : Keeps P simplify := by
  suffices hall : ∀ rounds skipped, Keeps P (insertAll rounds skipped) by
    unfold simplify
    exact Keeps.read.bind fun c => hall _ _
  intro rounds
  induction rounds with
  | zero => exact fun _ => Keeps.fail _
  | succ rounds ih =>
    intro skipped
    refine (Keeps.ask _).bind fun forest => ?_
    split
    · exact Keeps.answer _
    · rename_i l _
      intro c' n c'' hc hrun
      obtain ⟨predecessors, c₁, hask, hgoes⟩ := Edit.bind_ok.mp hrun
      obtain ⟨hpredecessors, rfl⟩ := ask_ok.mp hask
      simp only at hgoes
      split at hgoes
      · exact ih _ _ _ _ hc hgoes
      · rename_i hout
        obtain ⟨_, c₂, hrest, hfurther⟩ := Edit.bind_ok.mp hgoes
        obtain ⟨further, c₃, hall, hanswer⟩ := Edit.bind_ok.mp hfurther
        obtain ⟨-, rfl⟩ := pure_ok.mp hanswer
        have hheader : ∃ b, c₁.block l.header = .ok b := by
          unfold FlowGraph.predecessors Graph.predecessorIndices at hpredecessors
          have hsome := orRaise_eq_ok.mp hpredecessors
          obtain ⟨s, hs, -⟩ := Option.map_eq_some_iff.mp hsome
          obtain ⟨b, hb⟩ := Option.isSome_iff_exists.mp
            (((wired c₁ hc).hasPredecessors l.header).symm.trans (by rw [hs]; rfl))
          exact ⟨b, block_eq_ok.mpr hb⟩
        obtain ⟨b, hb⟩ := hheader
        exact ih skipped _ _ _ (hinsert _ _ (by simpa using hout) _ _ b _ hc hb hrest) hall

theorem fit_simplify : Keeps (Fit h c) simplify :=
  keeps_simplify_of_insert (fun _ hc => hc.carries.elim fun _ hr => hr.orderly.wired)
    fun _ _ hout _ _ _ _ hc hb hrun => fit_insert hout hc hb hrun

end Preheader

end RegionGuard

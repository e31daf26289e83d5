import RegionGuard.Proofs.Counterparts
import RegionGuard.Proofs.HoistedCode
import RegionGuard.Proofs.TidyPasses
set_option autoImplicit false

namespace RegionGuard

theorem exists_of_mem_forall₂ {α β : Type} {R : α → β → Prop} {l : List α} {r : List β}
    (h : List.Forall₂ R l r) {b : β} (hb : b ∈ r) : ∃ a ∈ l, R a b := by
  induction h with
  | nil => cases hb
  | cons hab _ ih =>
    rcases List.mem_cons.mp hb with rfl | hb
    · exact ⟨_, List.mem_cons_self, hab⟩
    · obtain ⟨a, ha, hab⟩ := ih hb
      exact ⟨a, List.mem_cons_of_mem _ ha, hab⟩

def FlowGraph.margin (c : FlowGraph) (hooks : Hooks) (moved : Nat → Value → Access → Prop) : Margin where
  hooks := hooks
  temps := c.nextTemp
  blocks := c.nextBlock
  numbers k := ((c.block k).toOption.map Block.nextIndex).getD 0
  moved := moved

namespace FlowGraph.Abreast

variable {m : Margin} {w : Ways} {f f' o o' : FlowGraph} {sites : List (Location × Operation)}
  {preheader? : Nat → Option Nat}

/-- What is known of a decision and its counterpart before they are injected. -/
structure Meets (m : Margin) (f : FlowGraph) (sites : List (Location × Operation))
    (preheader? : Nat → Option Nat) (d e : GuardDecision) : Prop where
  counterpart : Counterpart d e
  site : ∃ operation, (d.location, operation) ∈ sites ∧ operation.isPhi = false
  original : d.location.instruction < m.numbers d.location.block
  avoids : d.pointer.Avoids m.temps
  hoists : ∀ header preheader, e.placement = .preheader header preheader → e.rule.Hoists ∧
    Turns m f header preheader ∧ preheader? header = some preheader ∧
      m.moved e.location.block e.pointer e.access

theorem Meets.congr {d e : GuardDecision} (h : Meets m f sites preheader? d e)
    (edges : ∀ k, f'.graph.edgesOut k = f.graph.edgesOut k) : Meets m f' sites preheader? d e := by
  refine ⟨h.counterpart, h.site, h.original, h.avoids, fun header preheader he => ?_⟩
  obtain ⟨hrule, ⟨hheader, hpreheader, e', hedges, htail⟩, hchosen, hmoved⟩ := h.hoists header preheader he
  exact ⟨hrule, ⟨hheader, hpreheader, e', (edges _).trans hedges, htail⟩, hchosen, hmoved⟩

theorem inject (h : f.Abreast m w o) (grown : f.Grown sites) {d e : GuardDecision}
    (meets : Meets m f sites preheader? d e) (leaves : Leaves w preheader?)
    {hoisted hoisted' before before' : Hoisted} (records : Records hoisted w) {n n' : Nat}
    (hf : (d.inject m.hooks before).run f = .ok ((n, before'), f'))
    (ho : (e.inject m.hooks hoisted).run o = .ok ((n', hoisted'), o')) :
    ∃ w', f'.Abreast m w' o' ∧ f'.Grown sites ∧ Leaves w' preheader? ∧ Records hoisted' w' ∧
      ∀ k, f'.graph.edgesOut k = f.graph.edgesOut k := by
  obtain ⟨f₁, htag, -, hplace⟩ := GuardDecision.inject_ok hf
  obtain ⟨o₁, htag', -, hplace'⟩ := GuardDecision.inject_ok ho
  rw [← meets.counterpart.location] at htag'
  have h₁ := h.setTag htag htag'
  have grown₁ := grown_of_setTag grown htag
  have edges₁ := edgesOut_modifyBlock htag
  obtain ⟨operation, hsite, notPhi⟩ := meets.site
  have hholds : ∀ {n}, (f₁.withTemps n).Holds d.location operation := grown₁.holds _ hsite
  -- The first graph gets a guard in front of the access whether or not the second one does.
  have local_ : d.placement = .before d.location → ∃ position, f₁.position d.location = .ok position ∧
      (f₁.withTemps (f₁.nextTemp + 1)).modifyBlock d.location.block (fun b =>
        b.inject position [(Tag.injected, "guard"), (Tag.rule, d.rule.text)]
          (GuardCode.guards m.hooks d.pointer d.access f₁.nextTemp)) = .ok f' ∧
      f'.Grown sites ∧ ∀ k, f'.graph.edgesOut k = f.graph.edgesOut k := by
    intro hd
    rw [hd] at hplace
    obtain ⟨-, position, hposition, hinject⟩ := hplace
    refine ⟨position, hposition, hinject, ?_, fun k => ?_⟩
    · exact grown_of_inject (c := f₁.withTemps (f₁.nextTemp + 1)) ⟨grown₁.numbered, grown₁.holds⟩ hinject
    · exact (edgesOut_modifyBlock hinject k).trans (edges₁ k)
  rcases meets.counterpart.placement with ⟨hd, he⟩ | ⟨hd, he⟩ | ⟨hd, -, header, preheader, he⟩
  · rw [hd] at hplace
    rw [he] at hplace'
    obtain ⟨-, rfl⟩ := hplace
    obtain ⟨rfl, rfl⟩ := hplace'
    exact ⟨w, h₁, grown₁, leaves, records, edges₁⟩
  · obtain ⟨position, hposition, hinject, grown', edges'⟩ := local_ hd
    rw [he, ← meets.counterpart.location] at hplace'
    obtain ⟨rfl, position', hposition', hinject'⟩ := hplace'
    rw [← meets.counterpart.pointer, ← meets.counterpart.access] at hinject'
    have htemps := h₁.leftTemps
    have htemps' := h₁.rightTemps
    have h₂ := h₁.withTemps (Nat.le_succ_of_le htemps) (Nat.le_succ_of_le htemps')
    exact ⟨w, h₂.guard_both hholds notPhi meets.original meets.avoids htemps htemps' hposition hposition'
      hinject hinject', grown', leaves, records, edges'⟩
  · obtain ⟨position, hposition, hinject, grown', edges'⟩ := local_ hd
    rw [he] at hplace'
    obtain ⟨hrule, turns, chosen, hmoved⟩ := (meets.congr edges₁).hoists header preheader he
    rw [← meets.counterpart.location, ← meets.counterpart.pointer, ← meets.counterpart.access] at hmoved
    obtain ⟨w', h₂, leaves', records'⟩ := h₁.injectHoisted hrule turns chosen leaves records hplace'
    have htemps := h₂.leftTemps
    have h₃ := h₂.withTemps (Nat.le_succ_of_le htemps) h₂.rightTemps
    exact ⟨w', h₃.guard_moved hholds notPhi meets.original meets.avoids hmoved htemps hposition hinject,
      grown', leaves', records', edges'⟩

theorem injectAll {ds es : List GuardDecision} (meets : List.Forall₂ (Meets m f sites preheader?) ds es)
    (h : f.Abreast m w o) (grown : f.Grown sites) (leaves : Leaves w preheader?)
    {hoisted before : Hoisted} (records : Records hoisted w) {n n' : Nat}
    (hf : (GuardDecision.injectAll m.hooks ds before).run f = .ok (n, f'))
    (ho : (GuardDecision.injectAll m.hooks es hoisted).run o = .ok (n', o')) :
    ∃ w', f'.Abreast m w' o' ∧ f'.Grown sites := by
  generalize hf₀ : f = f₀ at meets
  have edges : ∀ k, f.graph.edgesOut k = f₀.graph.edgesOut k := fun k => by rw [hf₀]
  clear hf₀
  induction meets generalizing w f o n n' hoisted before with
  | nil =>
    obtain ⟨-, rfl⟩ := Edit.pure_ok.mp hf
    obtain ⟨-, rfl⟩ := Edit.pure_ok.mp ho
    exact ⟨w, h, grown⟩
  | cons hde _ ih =>
    obtain ⟨⟨k, before₁⟩, f₁, hfirst, hrest⟩ := Edit.bind_ok.mp hf
    obtain ⟨l, f₂, hothers, hcount⟩ := Edit.bind_ok.mp hrest
    obtain ⟨-, rfl⟩ := Edit.pure_ok.mp hcount
    obtain ⟨⟨k', hoisted₁⟩, o₁, hfirst', hrest'⟩ := Edit.bind_ok.mp ho
    obtain ⟨l', o₂, hothers', hcount'⟩ := Edit.bind_ok.mp hrest'
    obtain ⟨-, rfl⟩ := Edit.pure_ok.mp hcount'
    obtain ⟨w₁, h₁, grown₁, leaves₁, records₁, edges₁⟩ :=
      h.inject grown (hde.congr edges) leaves records hfirst hfirst'
    exact ih h₁ grown₁ leaves₁ records₁ hothers hothers' fun k => (edges₁ k).trans (edges k)

theorem refl {c : FlowGraph} (numbered : c.Numbered) (tidy : c.Tidy) (hooks : Hooks)
    (moved : Nat → Value → Access → Prop) : c.Abreast (c.margin hooks moved) (fun _ => none) c := by
  have harrival : ∀ k, Ways.arrival (fun _ => none) k = id := fun k => Ways.arrival_of_none rfl
  refine ⟨rfl, numbered, numbered, Nat.le_refl _, Nat.le_refl _, Nat.le_refl _, ⟨fun k b hb => ?_, ?_⟩,
    ⟨tidy.filed, ?_, ?_, ?_, fun _ _ _ => rfl, ?_⟩⟩
  · have hnext : ((c.block k).toOption.map Block.nextIndex).getD 0 = b.nextIndex := by
      rw [hb]
      rfl
    refine ⟨tidy.vertices k b (block_eq_ok.mp hb), b, hb, ?_, Nat.le_of_eq hnext, Nat.le_of_eq hnext⟩
    rw [harrival]
    refine Strand.refl fun i hi => ?_
    have hcode := tidy.code k b (block_eq_ok.mp hb) i hi
    have hnumber := (numbered_iff.mp numbered k b hb).2.1 i hi
    refine ⟨?_, hcode.avoids, hcode.known⟩
    change i.index < ((c.block k).toOption.map Block.nextIndex).getD 0
    rw [hnext]
    exact hnumber
  · intro k b hk hb
    have := tidy.vertices k b (block_eq_ok.mp hb)
    simp only [margin] at hk
    omega
  · intro k es hes
    obtain ⟨s, hs, -⟩ := Graph.edgesOut_eq_ok.mp hes
    exact tidy.successors k s hs
  · intro k es hk hes
    obtain ⟨s, hs, -⟩ := Graph.edgesOut_eq_ok.mp hes
    have := tidy.successors k s hs
    simp only [margin] at hk
    omega
  · intro k es hes e he x hx
    obtain ⟨s, -, hall⟩ := Graph.edgesOut_eq_ok.mp hes
    obtain ⟨j, -, hj⟩ := exists_of_mem_forall₂ hall he
    exact (tidy.edges k j e hj).2 x hx
  · rintro header k last ⟨⟩

end FlowGraph.Abreast

theorem MemoryAccess.mem_reads {p : Program} {c : Configuration} {o : Operation} {v : Value} {a : Access}
    (h : (v, a) ∈ ofOperation p c o) : v ∈ o.reads ∧ o.isPhi = false := by
  cases o with
  | load dst pointer =>
    cases List.mem_singleton.mp h
    exact ⟨List.mem_cons_self, rfl⟩
  | store pointer value =>
    cases List.mem_singleton.mp h
    exact ⟨List.mem_cons_self, rfl⟩
  | call dst target arguments =>
    refine ⟨?_, rfl⟩
    unfold ofOperation at h
    simp only at h
    split at h
    · have handed : (v, a) ∈ (arguments.filter Value.isPointer).map (fun v => (v, Access.write)) →
          v ∈ arguments := by
        intro hmem
        obtain ⟨v', hv', heq⟩ := List.mem_map.mp hmem
        cases heq
        exact (List.mem_filter.mp hv').1
      cases target with
      | direct name => exact handed h
      | indirect address =>
        rcases List.mem_cons.mp h with heq | hmem
        · cases heq
          exact List.mem_cons_self
        · exact List.mem_cons_of_mem _ (handed hmem)
    · cases h
  | _ => cases h

namespace Function

variable {p : Program} {c : Configuration} {f g₀ g₁ : Function}

structure Abreast (h : Hooks) (moved : Nat → Value → Access → Prop) (g₀ g₁ : Function) : Prop where
  name : g₀.name = g₁.name
  arguments : g₀.arguments = g₁.arguments
  bodies : g₀.body = none ∧ g₁.body = none ∨ ∃ b₀ b₁ m w, g₀.body = some b₀ ∧ g₁.body = some b₁ ∧
    m.hooks = h ∧ m.moved = moved ∧ b₀.Abreast m w b₁

end Function

theorem FlowGraph.turns_of_loop {body : FlowGraph} (tidy : body.Tidy) {forest : LoopForest}
    (hforest : LoopForest.ofGraph body = .ok forest) {l : NaturalLoop} (hl : l ∈ forest.toList) {preheader : Nat}
    (hpreheader : l.preheader = some preheader) {m : Margin} (hm : m.blocks = body.nextBlock) :
    Abreast.Turns m body l.header preheader := by
  have hsuccessors := (LoopForest.ofGraph_ok hforest hl).2 preheader hpreheader
  obtain ⟨s, hs, hkeys⟩ := Option.map_eq_some_iff.mp (orRaise_eq_ok.mp hsuccessors)
  obtain ⟨e, he⟩ := tidy.listed _ s hs l.header (by rw [hkeys]; exact List.mem_cons_self)
  rw [Abreast.Turns, hm]
  refine ⟨(tidy.edges _ _ _ he).1, tidy.successors _ s hs, e, Graph.edgesOut_eq_ok.mpr ⟨s, hs, ?_⟩,
    (tidy.filed _ _ _ he).2⟩
  rw [hkeys]
  exact .cons he .nil

namespace Program

variable {p q₀ q₁ : Program} {c : Configuration} {r s : GuardReport} {counts₀ counts₁ : List Nat}

theorem eq_of_name (hp : p.Numbered) {name : String} {f g : Function} (hf : p.function? name = some f)
    (hg : g ∈ p.functions.values) (hsame : g.name = f.name) : g = f := by
  obtain ⟨other, hother⟩ := Table.mem_values_iff.mp hg
  have hname := (numbered_iff.mp hp name f hf).1
  have hname' := (numbered_iff.mp hp other g hother).1
  rw [← hname', hsame, hname] at hother
  exact (Option.some.inj (hf.symm.trans hother)).symm

def Abreast (h : Hooks) (moved : String → Nat → Value → Access → Prop) (q₀ q₁ : Program) : Prop :=
  ∀ name, Option.Rel (Function.Abreast h (moved name)) (q₀.function? name) (q₁.function? name)

end Program

end RegionGuard

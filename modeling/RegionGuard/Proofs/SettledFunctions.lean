import RegionGuard.Proofs.Dues
import RegionGuard.Proofs.GuardedLoops
set_option autoImplicit false

namespace RegionGuard

open FlowGraph

def FlowGraph.Settled (key : String) (wants : Operation → Prop) (c : FlowGraph) : Prop :=
  c.DueOnly key wants fun _ => False

theorem FlowGraph.indifferent_settled {key : String} {wants : Operation → Prop}
    (hphi : ∀ dst incoming, ¬ wants (.phi dst incoming)) : Indifferent fun c => c.Numbered ∧ c.Settled key wants :=
  indifferent_dueOnly hphi fun _ => False

namespace Function

variable {f g : Function} {body : FlowGraph} {key : String} {wants : Operation → Prop}

theorem not_isDue_of_settled (hbody : f.body = some body) (numbered : body.Numbered) (settled : body.Settled key wants)
    {l : Location} {i : Instruction} (hi : (l, i) ∈ f.located) : ¬ i.IsDue key wants := by
  obtain ⟨b, hb, hi, -⟩ := (located_iff hbody numbered.addressable).mp hi
  exact fun hdue => settled l.block b hb i hi hdue

theorem dueOnly_of_located (hbody : f.body = some body) (numbered : body.Numbered) {pending : Location → Prop}
    (h : ∀ l i, (l, i) ∈ f.located → i.IsDue key wants → pending l) : body.DueOnly key wants pending :=
  fun k _ hb i hi => h ⟨k, i.index⟩ i ((located_iff hbody numbered.addressable).mpr ⟨_, hb, hi, rfl⟩)

theorem edit_eq_ok {α : Type} {e : Edit α} {a : α} (hbody : f.body = some body) (he : e.run body = .ok (a, body)) :
    f.edit e = .ok (a, f) := by
  obtain ⟨name, arguments, returnType, linkage, _⟩ := f
  cases hbody
  exact bind_eq_ok.mpr ⟨body, rfl, bind_eq_ok.mpr ⟨_, he, rfl⟩⟩

end Function

namespace ReportSite

variable {c : Configuration} {f g : Function} {body c₀ c₁ : FlowGraph} {root : Nat}

def IsReported (c : Configuration) (o : Operation) : Prop := (ofInstruction c (.make 0 o)).isSome

theorem not_isReported_phi (dst : Variable) (incoming : List (Value × Nat)) : ¬ IsReported c (.phi dst incoming) :=
  Bool.false_ne_true

theorem isSome_ofInstruction {i : Instruction} :
    (ofInstruction c i).isSome ↔ i.IsDue Tag.tracked (IsReported c) := by
  have hmake : ∀ o, ((Instruction.make 0 o).isInjected || (Instruction.make 0 o).hasTag Tag.tracked) = false := fun _ => rfl
  unfold Instruction.IsDue IsReported ofInstruction
  rw [hmake]
  cases hinjected : i.isInjected <;> cases htracked : i.hasTag Tag.tracked <;> simp [Instruction.make]

theorem ofFunction_eq_nil (hbody : f.body = some body) (numbered : body.Numbered)
    (settled : body.Settled Tag.tracked (IsReported c)) : ofFunction c f = [] := by
  refine List.filterMap_eq_nil_iff.mpr fun ⟨l, i⟩ hi => ?_
  rw [Option.map_eq_none_iff, ← Option.not_isSome_iff_eq_none, isSome_ofInstruction]
  exact Function.not_isDue_of_settled hbody numbered settled hi

theorem dueOnly_report {h : Hooks} {l : Location} {s : ReportSite} {pending : Location → Prop} (hc : c₀.Simple root)
    (numbered : c₀.Numbered) (hdue : c₀.DueOnly Tag.tracked (IsReported c) pending) {u : Unit}
    (hrun : (s.report h l).run c₀ = .ok (u, c₁)) :
    c₁.Simple root ∧ c₁.DueOnly Tag.tracked (IsReported c) fun x => pending x ∧ x ≠ l := by
  obtain ⟨⟨_, operations⟩, c₂, hcollect, hrest⟩ := Edit.bind_ok.mp hrun
  obtain ⟨position, c₃, hask, hmodify⟩ := Edit.bind_ok.mp hrest
  obtain ⟨-, rfl⟩ := Edit.ask_ok.mp hask
  obtain ⟨-, next, -, rfl⟩ := (adds_operations_extra (n := 0) (h := h) l s).collect_ok (Nat.zero_le _) hcollect
  have hmodify := Edit.step_ok.mp hmodify
  obtain ⟨c₄, hinject, htag⟩ := modifyBlock_bind hmodify
  have numbered₄ : c₄.Numbered :=
    indifferent_numbered.inject (c₀.withTemps next) c₄ l.block (fun _ => position) s.tag [] operations numbered hinject
  refine ⟨(hc.withTemps next).modifyBlock hmodify, ?_⟩
  exact DueOnly.settle (DueOnly.inject (c := c₀.withTemps next) hdue hinject) numbered₄ htag

theorem settled_reports {h : Hooks} {sites : List (Location × ReportSite)} (hc : c₀.Simple root) (numbered : c₀.Numbered)
    (hdue : c₀.DueOnly Tag.tracked (IsReported c) fun l => ∃ s, (l, s) ∈ sites) {u : PUnit}
    (hrun : (sites.forM fun e => e.2.report h e.1).run c₀ = .ok (u, c₁)) :
    c₁.Simple root ∧ c₁.Numbered ∧ c₁.Settled Tag.tracked (IsReported c) := by
  induction sites generalizing c₀ with
  | nil =>
    obtain ⟨-, rfl⟩ := Edit.pure_ok.mp hrun
    refine ⟨hc, numbered, fun k b hb i hi hi' => ?_⟩
    obtain ⟨s, hs⟩ := hdue k b hb i hi hi'
    cases hs
  | cons e rest ih =>
    obtain ⟨_, c₂, hfirst, hrest⟩ := Edit.bind_ok.mp hrun
    obtain ⟨hc₂, hdue₂⟩ := dueOnly_report hc numbered hdue hfirst
    refine ih hc₂ (keeps_report h e.1 e.2 _ _ _ numbered hfirst) (fun k b hb i hi hi' => ?_) hrest
    obtain ⟨⟨s, hs⟩, hne⟩ := hdue₂ k b hb i hi hi'
    rcases List.mem_cons.mp hs with rfl | hs
    · exact absurd rfl hne
    · exact ⟨s, hs⟩

theorem settled_reportAllocations (hbody : f.body = some body) (hc : body.Simple root) (numbered : body.Numbered)
    {r : AllocationReport} (hrun : f.reportAllocations c = .ok (r, g)) :
    ∃ body', g = { f with body := some body' } ∧ body'.Simple root ∧ body'.Numbered ∧
      body'.Settled Tag.tracked (IsReported c) := by
  obtain ⟨body₀, body', hbody₀, hedit, rfl⟩ := Function.edit_ok hrun
  cases hbody.symm.trans hbody₀
  obtain ⟨_, body₁, hreports, hanswer⟩ := Edit.bind_ok.mp hedit
  obtain ⟨-, rfl⟩ := Edit.pure_ok.mp hanswer
  rw [Edit.forIn_eq_forM] at hreports
  refine ⟨_, rfl, settled_reports hc numbered (Function.dueOnly_of_located hbody numbered fun l i hi hdue => ?_) hreports⟩
  obtain ⟨s, hs⟩ := Option.isSome_iff_exists.mp (isSome_ofInstruction.mpr hdue)
  exact ⟨s, List.mem_filterMap.mpr ⟨(l, i), hi, Option.map_eq_some_iff.mpr ⟨s, hs, rfl⟩⟩⟩

theorem reportAllocations_of_settled (hbody : f.body = some body) (numbered : body.Numbered)
    (settled : body.Settled Tag.tracked (IsReported c)) : f.reportAllocations c = .ok (.empty, f) := by
  unfold Function.reportAllocations
  rw [ofFunction_eq_nil hbody numbered settled]
  exact Function.edit_eq_ok hbody rfl

end ReportSite

namespace Program

variable {h : Hooks} {globals : List (String × Word)} {c c' : FlowGraph} {n : Nat}

theorem registerIn_ok (hrun : (registerIn h globals).run c = .ok (n, c')) :
    ∃ entry b, c.entry = some entry ∧ c.block entry = .ok b ∧ (registersGlobals b ∧ n = 0 ∧ c' = c ∨
      n = globals.length ∧ c.modifyBlock entry (fun b => b.inject b.firstNonPhi [(Tag.injected, "global")]
        (globals.mapIdx fun id e => GlobalVariable.registration h id e.1 e.2)) = .ok c') := by
  obtain ⟨entry, c₁, hask, hrest⟩ := Edit.bind_ok.mp hrun
  obtain ⟨hentry, rfl⟩ := Edit.ask_ok.mp hask
  obtain ⟨b, c₂, hblock, hregister⟩ := Edit.bind_ok.mp hrest
  obtain ⟨hb, rfl⟩ := Edit.ask_ok.mp hblock
  refine ⟨entry, b, orRaise_eq_ok.mp hentry, hb, ?_⟩
  split at hregister
  · rename_i hregisters
    obtain ⟨rfl, rfl⟩ := Edit.pure_ok.mp hregister
    exact .inl ⟨hregisters, rfl, rfl⟩
  · obtain ⟨_, c₃, hinject, hanswer⟩ := Edit.bind_ok.mp hregister
    obtain ⟨rfl, rfl⟩ := Edit.pure_ok.mp hanswer
    exact .inr ⟨rfl, Edit.step_ok.mp hinject⟩

theorem registersGlobals_iff {b : Block} :
    registersGlobals b = true ↔ ∃ i ∈ b.instructions, i.tag? Tag.injected = some "global" := by
  simp [registersGlobals, List.any_eq_true]

theorem marked_registerIn (hglobals : globals ≠ []) (hrun : (registerIn h globals).run c = .ok (n, c')) :
    ∃ entry, c'.entry = some entry ∧ c'.Marked entry "global" := by
  obtain ⟨entry, b, hentry, hb, ⟨hregisters, -, rfl⟩ | ⟨-, hinject⟩⟩ := registerIn_ok hrun
  · exact ⟨entry, hentry, b, hb, registersGlobals_iff.mp hregisters⟩
  · refine ⟨entry, by rw [(modifyBlock_fields hinject).1]; exact hentry, ?_⟩
    obtain ⟨g, rest, rfl⟩ := List.exists_cons_of_ne_nil hglobals
    rw [List.mapIdx_cons] at hinject
    exact marked_of_inject hinject

theorem registerIn_of_marked {entry : Nat} (hentry : c.entry = some entry) (hmarked : c.Marked entry "global") :
    (registerIn h globals).run c = .ok (0, c) := by
  obtain ⟨b, hb, hi⟩ := hmarked
  refine Edit.bind_ok.mpr ⟨entry, c, Edit.ask_ok.mpr ⟨orRaise_eq_ok.mpr hentry, rfl⟩, ?_⟩
  refine Edit.bind_ok.mpr ⟨b, c, Edit.ask_ok.mpr ⟨hb, rfl⟩, ?_⟩
  rw [registersGlobals_iff.mpr hi]
  rfl

end Program

end RegionGuard

import RegionGuard.Flow.WrittenNames
import RegionGuard.Proofs.Constructions
import RegionGuard.Proofs.Histories
import RegionGuard.Proofs.Journeys
import RegionGuard.Proofs.WellFormedness
set_option autoImplicit false

namespace RegionGuard

theorem Block.position?_iff {b : Block} (distinct : (b.instructions.map (·.index)).Nodup) {k n : Nat} :
    b.position? k = some n ↔ ∃ i, b.instructions[n]? = some i ∧ i.index = k := by
  constructor
  · intro h
    obtain ⟨hlt, hk, -⟩ := List.findIdx?_eq_some_iff_getElem.mp h
    exact ⟨_, List.getElem?_eq_getElem hlt, beq_iff_eq.mp hk⟩
  · rintro ⟨i, hi, rfl⟩
    obtain ⟨hlt, hget⟩ := List.getElem?_eq_some_iff.mp hi
    refine List.findIdx?_eq_some_iff_getElem.mpr ⟨hlt, beq_iff_eq.mpr (by rw [hget]), fun j hj => ?_⟩
    have hjlt := hj.trans hlt
    have hne : b.instructions[j].index ≠ i.index := fun heq => by
      have hsame : b.instructions[j] = b.instructions[n] := by
        rw [hget]
        exact Block.eq_of_index_eq distinct (List.getElem_mem hjlt) (hget ▸ List.getElem_mem hlt) heq
      exact absurd ((List.Nodup.getElem_inj_iff (List.Nodup.of_map _ distinct)).mp hsame) (Nat.ne_of_lt hj)
    simpa using hne

theorem eq_of_nodup_filterMap {α β : Type} {f : α → Option β} {l : List α} (h : (l.filterMap f).Nodup) {x y : α}
    {b : β} (hx : x ∈ l) (hy : y ∈ l) (hfx : f x = some b) (hfy : f y = some b) : x = y := by
  induction l with
  | nil => cases hx
  | cons z rest ih =>
    have mem : ∀ w ∈ rest, f w = some b → b ∈ rest.filterMap f := fun w hw hfw => List.mem_filterMap.mpr ⟨w, hw, hfw⟩
    have hrest : (rest.filterMap f).Nodup := by
      rw [List.filterMap_cons] at h
      split at h
      · exact h
      · exact (List.nodup_cons.mp h).2
    have fresh : f z = some b → b ∉ rest.filterMap f := fun hz => by
      rw [List.filterMap_cons_some hz] at h
      exact (List.nodup_cons.mp h).1
    rcases List.mem_cons.mp hx with rfl | hx'
    · rcases List.mem_cons.mp hy with rfl | hy'
      · rfl
      · exact absurd (mem y hy' hfy) (fresh hfx)
    · rcases List.mem_cons.mp hy with rfl | hy'
      · exact absurd (mem x hx' hfx) (fresh hfy)
      · exact ih hrest hx' hy'

namespace FlowGraph

variable {c : FlowGraph} {entry k : Nat} {place : Location} {b : Block}

theorem Available.behind (addressable : c.Addressable) (hb : c.block k = .ok b) {front back : List Instruction}
    {i : Instruction} (hinstructions : b.instructions = front ++ i :: back)
    (h : c.Available entry place k (front.length + 1)) :
    place = ⟨k, i.index⟩ ∨ c.Available entry place k front.length := by
  unfold Available at h ⊢
  by_cases heq : place.block = k
  · rw [if_pos heq] at h ⊢
    obtain ⟨b', n, hb', hn, hlt⟩ := h
    cases hb.symm.trans hb'
    obtain ⟨j, hj, hindex⟩ := (Block.position?_iff (addressable_iff.mp addressable k b hb).2).mp hn
    rcases Nat.lt_succ_iff_lt_or_eq.mp hlt with hlt | rfl
    · exact .inr ⟨b, n, hb, hn, hlt⟩
    · rw [hinstructions, List.getElem?_append_right (Nat.le_refl _), Nat.sub_self] at hj
      cases hj
      obtain ⟨block, instruction⟩ := place
      cases heq
      exact .inl (by rw [hindex])
  · rw [if_neg heq] at h ⊢
    exact .inr h

theorem not_available_entry : ¬ c.Available entry place entry 0 := by
  unfold Available
  split
  · rintro ⟨b, n, -, -, hlt⟩
    exact absurd hlt (Nat.not_lt_zero n)
  · rename_i hne
    intro h
    exact hne (List.mem_singleton.mp (h _ .start))

/-- What is available in a block that an edge leads to is one of its own places, or was available at the end of
the block that the edge leaves. -/
theorem Available.over_edge {j n : Nat} {x : Block} (hx : c.block place.block = .ok x) {m : Nat}
    (hm : x.position? place.instruction = some m) (hj : c.block j = .ok b)
    (hedge : (c.graph.edges.get? (j, k)).isSome) (h : c.Available entry place k n) (hne : place.block ≠ k) :
    c.Available entry place j b.instructions.length := by
  unfold Available at h ⊢
  rw [if_neg hne] at h
  split
  · rename_i heq
    rw [heq] at hx
    cases hj.symm.trans hx
    obtain ⟨hlt, -, -⟩ := List.findIdx?_eq_some_iff_getElem.mp hm
    exact ⟨b, m, hj, hm, hlt⟩
  · intro l hl
    rcases List.mem_cons.mp (h _ (hl.follow hedge)) with heq | hmem
    · exact absurd heq hne
    · exact hmem

end FlowGraph

namespace Function

variable {f : Function} {c : FlowGraph} {d : DefUse} {entry : Nat}

/-- What verification does not look at: variables of one name are one variable, and what the condition of an edge
reads is defined in front of the edge. -/
structure Disciplined (f : Function) (c : FlowGraph) (entry : Nat) : Prop where
  names : (WrittenNames.written f).Nodup
  conditions : ∀ j k e, c.graph.edges.get? (j, k) = some e → ∀ x ∈ e.condition, ∀ v, x.value = .variable v →
    ∃ l i b, (l, i) ∈ f.located ∧ i.operation.written? = some v ∧ c.block j = .ok b ∧
      c.Available entry l j b.instructions.length

structure Named (f : Function) (c : FlowGraph) (d : DefUse) (entry : Nat) : Prop extends f.Verified c d entry where
  names : (WrittenNames.written f).Nodup

structure Sound (f : Function) (c : FlowGraph) (d : DefUse) (entry : Nat) : Prop extends f.Verified c d entry where
  disciplined : f.Disciplined c entry

theorem Sound.named (h : f.Sound c d entry) : f.Named c d entry := ⟨h.toVerified, h.disciplined.names⟩

namespace Verified

variable {v : Variable} {place : Location}

theorem definition (h : f.Verified c d entry) : d.definition? v = some place ↔
    ∃ b i, c.block place.block = .ok b ∧ i ∈ b.instructions ∧ i.index = place.instruction ∧
      i.operation.written? = some v := by
  rw [DefUse.definition?_eq_some h.definitions]
  constructor
  · rintro ⟨i, hi, hv⟩
    obtain ⟨b, hb, hmem, hindex⟩ := (located_iff h.body h.addressable).mp hi
    exact ⟨b, i, hb, hmem, hindex, hv⟩
  · rintro ⟨b, i, hb, hmem, hindex, hv⟩
    exact ⟨i, (located_iff h.body h.addressable).mpr ⟨b, hb, hmem, hindex⟩, hv⟩

theorem position (h : f.Verified c d entry) (hplace : d.definition? v = some place) :
    ∃ b n, c.block place.block = .ok b ∧ b.position? place.instruction = some n := by
  obtain ⟨b, i, hb, hmem, hindex, -⟩ := h.definition.mp hplace
  obtain ⟨n, hn⟩ := List.getElem?_of_mem hmem
  exact ⟨b, n, hb, (Block.position?_iff (FlowGraph.addressable_iff.mp h.addressable _ b hb).2).mpr ⟨i, hn, hindex⟩⟩

end Verified

theorem Named.unique {v : Variable} {place : Location} (h : f.Named c d entry) (hplace : d.definition? v = some place)
    {k : Nat} {b : Block} {i : Instruction} (hb : c.block k = .ok b) (hi : i ∈ b.instructions) {u : Variable}
    (hu : i.operation.written? = some u) (hname : u.name = v.name) : place = ⟨k, i.index⟩ := by
  obtain ⟨j, hj, hv⟩ := (DefUse.definition?_eq_some h.definitions).mp hplace
  have hi' : ((⟨k, i.index⟩ : Location), i) ∈ f.located :=
    (located_iff h.body h.addressable).mpr ⟨b, hb, hi, rfl⟩
  have hname' : i.operation.written?.map (·.name) = some v.name := by rw [hu, Option.map_some, hname]
  have hv' : j.operation.written?.map (·.name) = some v.name := by rw [hv, Option.map_some]
  exact congrArg Prod.fst (eq_of_nodup_filterMap h.names hj hi' hv' hname')

end Function

namespace Activation

/-- A call that stands behind `front` in its block, in front of `back`, and that knows what has been defined. -/
structure Recalls (f : Function) (d : DefUse) (entry : Nat) (a : Activation) (front back : List Instruction)
    (h : History) : Prop where
  sound : f.Sound a.body d entry
  block : ∃ b, a.body.block a.block = .ok b ∧ b.instructions = front ++ back
  past : ∀ i ∈ back, i.operation.isPhi = false
  reached : ∃ l, a.body.graph.Way entry a.block l
  latest : ∀ v place, d.definition? v = some place → a.body.Available entry place a.block front.length →
    ∃ c, h.latest? place = some ⟨place, v, c⟩ ∧ a.scalars.get? v.name = some c

variable {f : Function} {d : DefUse} {entry : Nat} {a a' : Activation} {front back : List Instruction} {h : History}
  {i : Instruction}

theorem Recalls.step (hrecalls : a.Recalls f d entry front (i :: back) h) (hassigns : a.Assigns i.operation.written? a') :
    a'.Recalls f d entry (front ++ [i]) back (a'.writings [i] ++ h) := by
  obtain ⟨scalars, hfixed⟩ := hassigns.fixed
  have hbody : a'.body = a.body := by rw [hfixed]; rfl
  have hblock : a'.block = a.block := by rw [hfixed]; rfl
  obtain ⟨b, hb, hinstructions⟩ := hrecalls.block
  have hi : i ∈ b.instructions := hinstructions ▸ List.mem_append_right _ List.mem_cons_self
  have hsound := hrecalls.sound
  refine ⟨hbody ▸ hsound, ⟨b, by rw [hbody, hblock, hb], by rw [hinstructions, List.append_cons]⟩,
    fun j hj => hrecalls.past j (List.mem_cons_of_mem _ hj), by rw [hbody, hblock]; exact hrecalls.reached, ?_⟩
  intro v place hplace havailable
  rw [hbody, hblock, List.length_append, List.length_singleton] at havailable
  by_cases hhere : place = ⟨a.block, i.index⟩
  · subst hhere
    obtain ⟨b', j, hb', hj, hindex, hv⟩ := hsound.named.definition.mp hplace
    cases hb.symm.trans hb'
    cases Block.eq_of_index_eq (FlowGraph.addressable_iff.mp hsound.addressable _ b hb).2 hj hi hindex
    rw [hv] at hassigns
    obtain ⟨c, hc⟩ := hassigns.isSome
    refine ⟨c, ?_, hc⟩
    have hmem : (⟨⟨a.block, i.index⟩, v, c⟩ : Writing) ∈ a'.writings [i] :=
      mem_writings.mpr ⟨i, List.mem_singleton_self i, by rw [hblock], hv, hc⟩
    refine History.latest?_append_of_mem hmem fun w hw _ => ?_
    obtain ⟨j, hj, hplace', hv', hc'⟩ := mem_writings.mp hw
    cases List.mem_singleton.mp hj
    obtain ⟨place', u, c'⟩ := w
    cases hv.symm.trans hv'
    cases hc.symm.trans hc'
    rw [hblock] at hplace'
    cases hplace'
    rfl
  · have hbefore := (havailable.behind hsound.addressable hb hinstructions).resolve_left hhere
    obtain ⟨c, hlatest, hc⟩ := hrecalls.latest v place hplace hbefore
    refine ⟨c, ?_, ?_⟩
    · rw [History.latest?_append_of_ne, hlatest]
      intro w hw hsame
      obtain ⟨j, hj, hplace', -⟩ := mem_writings.mp hw
      cases List.mem_singleton.mp hj
      rw [hblock] at hplace'
      exact hhere (hsame.symm.trans hplace')
    · rw [hassigns.get?_of_ne, hc]
      intro u hu hname
      exact hhere (hsound.named.unique hplace hb hi hu hname)

theorem isSome_foldl_assign {values : List (Variable × Constant)} {a : Activation} {name : String}
    (h : (∃ z ∈ values, z.1.name = name) ∨ (a.scalars.get? name).isSome) :
    ((values.foldl (fun a e => a.assign e.1 e.2) a).scalars.get? name).isSome := by
  induction values generalizing a with
  | nil => exact h.resolve_left fun ⟨z, hz, _⟩ => List.not_mem_nil hz
  | cons e rest ih =>
    refine ih ?_
    change _ ∨ ((a.scalars.insert e.1.name e.2).get? name).isSome
    rw [Table.get?_insert]
    by_cases hname : name = e.1.name
    · rw [if_pos hname]
      exact .inr rfl
    · rw [if_neg hname]
      refine h.imp_left ?_
      rintro ⟨z, hz, rfl⟩
      rcases List.mem_cons.mp hz with rfl | hz
      · exact absurd rfl hname
      · exact ⟨z, hz, rfl⟩

theorem mem_phis_fst {l : List Instruction} {v : Variable} :
    v ∈ (phis l).map (·.1) ↔ ∃ i ∈ leading l, i.operation.written? = some v := by
  constructor
  · intro h
    obtain ⟨e, he, rfl⟩ := List.mem_map.mp h
    rw [phis_leading] at he
    obtain ⟨i, hi, ho⟩ := mem_phis he
    exact ⟨i, hi, by rw [ho]; rfl⟩
  · rintro ⟨i, hi, hv⟩
    obtain ⟨dst, incoming, ho⟩ := exists_phi (isPhi_of_leading hi)
    rw [ho] at hv
    cases hv
    exact List.mem_map_of_mem (phi_mem hi ho)

/-- Behind its phis a call of a function knows what it knew at the end of the block it came from, and the phis. -/
theorem Recalls.enter {m : Machine} {front : List Instruction} (hrecalls : a.Recalls f d entry front [] h)
    (hnext : a.nextBlock m = .ok a') :
    a'.Recalls f d entry a'.done a'.remaining (a'.writings a'.done ++ h) := by
  have hsound := hrecalls.sound
  obtain ⟨b, hb, hinstructions⟩ := hrecalls.block
  rw [nextBlock_eq] at hnext
  obtain ⟨target, htarget, hnext⟩ := bind_eq_ok.mp hnext
  obtain ⟨e, hedge, -⟩ := exists_edge_of_next hsound.built.wired hsound.built.filed htarget
  rw [enterBlock_eq] at hnext
  obtain ⟨x, hx, hnext⟩ := bind_eq_ok.mp hnext
  obtain ⟨values, hvalues, hnext⟩ := bind_eq_ok.mp hnext
  obtain ⟨hbody, hblock, hremaining, hscalars⟩ : a'.body = a.body ∧ a'.block = target ∧
      a'.remaining = behind x.instructions ∧ a'.scalars = (values.foldl (fun a e => a.assign e.1 e.2) a).scalars := by
    obtain ⟨scalars, hs⟩ := foldl_assign values a
    rw [hs] at hnext ⊢
    cases hnext
    exact ⟨rfl, rfl, rfl, rfl⟩
  have hx' : a'.body.block a'.block = .ok x := by rw [hbody, hblock, hx]
  have hdone : a'.done = leading x.instructions :=
    done_of_placed ⟨x, hx', by rw [hremaining, leading_append_behind]⟩
  have distinct := (FlowGraph.addressable_iff.mp hsound.addressable target x hx).2
  have hedge : (a.body.graph.edges.get? (a.block, target)).isSome := by rw [hedge]; rfl
  have leading_mem : ∀ {i}, i ∈ leading x.instructions → i ∈ x.instructions := fun hi =>
    (List.takeWhile_sublist _).subset hi
  have written : ∀ v, (∃ z ∈ values, z.1 = v) ↔ ∃ i ∈ leading x.instructions, i.operation.written? = some v := fun v => by
    rw [← mem_phis_fst, ← phiValues_dst hvalues, List.mem_map]
  refine ⟨hbody ▸ hsound, ⟨x, hx', by rw [hdone, hremaining, leading_append_behind]⟩, ?_, ?_, ?_⟩
  · rw [hremaining]
    exact hsound.ordered target x hx
  · obtain ⟨l, hl⟩ := hrecalls.reached
    rw [hbody, hblock]
    exact ⟨_, hl.follow hedge⟩
  intro v place hplace havailable
  rw [hbody, hblock, hdone] at havailable
  rw [hdone, hscalars]
  by_cases hhere : place.block = target
  · unfold FlowGraph.Available at havailable
    rw [if_pos hhere] at havailable
    obtain ⟨x', n, hx'', hn, hlt⟩ := havailable
    cases hx.symm.trans hx''
    obtain ⟨i, hi, hindex⟩ := (Block.position?_iff distinct).mp hn
    have hi : i ∈ leading x.instructions := by
      rw [← leading_append_behind x.instructions, List.getElem?_append_left hlt] at hi
      exact List.mem_of_getElem? hi
    have hv : i.operation.written? = some v := by
      obtain ⟨x', j, hx'', hj, hindex', hv⟩ := hsound.named.definition.mp hplace
      rw [hhere] at hx''
      cases hx.symm.trans hx''
      rwa [Block.eq_of_index_eq distinct (leading_mem hi) hj (hindex.trans hindex'.symm)]
    obtain ⟨z, hz, hzv⟩ := (written v).mpr ⟨i, hi, hv⟩
    obtain ⟨c, hc⟩ := Option.isSome_iff_exists.mp
      (isSome_foldl_assign (a := a) (.inl ⟨z, hz, congrArg Variable.name hzv⟩))
    refine ⟨c, ?_, hc⟩
    have hplace' : place = ⟨a'.block, i.index⟩ := by
      obtain ⟨block, instruction⟩ := place
      rw [hblock, hindex, ← hhere]
    have hmem : (⟨place, v, c⟩ : Writing) ∈ a'.writings (leading x.instructions) :=
      mem_writings.mpr ⟨i, hi, hplace', hv, hscalars ▸ hc⟩
    refine History.latest?_append_of_mem hmem fun w hw hsame => ?_
    obtain ⟨j, hj, hj', hu, hd⟩ := mem_writings.mp hw
    obtain ⟨place', u, e⟩ := w
    have hindex' : j.index = i.index := by
      have := hj'.symm.trans (hsame.trans hplace')
      exact congrArg Location.instruction this
    cases Block.eq_of_index_eq distinct (leading_mem hj) (leading_mem hi) hindex'
    cases hv.symm.trans hu
    rw [hscalars] at hd
    cases hc.symm.trans hd
    cases hsame
    rfl
  · obtain ⟨y, n, hy, hn⟩ := hsound.named.position hplace
    have hbefore := havailable.over_edge hy hn hb hedge hhere
    rw [show b.instructions = front by rw [hinstructions, List.append_nil]] at hbefore
    obtain ⟨c, hlatest, hc⟩ := hrecalls.latest v place hplace hbefore
    refine ⟨c, ?_, ?_⟩
    · rw [History.latest?_append_of_ne, hlatest]
      intro w hw hsame
      obtain ⟨j, -, hplace', -⟩ := mem_writings.mp hw
      rw [hblock] at hplace'
      exact hhere (congrArg Location.block (hsame.symm.trans hplace'))
    · rw [get?_foldl_of_ne, hc]
      intro z hz hname
      obtain ⟨j, hj, hu⟩ := (written z.1).mp ⟨z, hz, rfl⟩
      exact hhere (congrArg Location.block (hsound.named.unique hplace hx (leading_mem hj) hu hname.symm))

def Informed (p : Program) (a : Activation) (front back : List Instruction) (h : History) : Prop :=
  ∃ name f d entry, p.function name = .ok f ∧ a.Recalls f d entry front back h

variable {p : Program}

theorem Informed.placed {h : History} (hinformed : a.Informed p front a.remaining h) : a.done = front := by
  obtain ⟨_, _, _, _, _, hrecalls⟩ := hinformed
  exact done_of_placed hrecalls.block

theorem Informed.step (hinformed : a.Informed p front (i :: back) h) (hassigns : a.Assigns i.operation.written? a')
    (hremaining : a'.remaining = back) :
    a'.Informed p a'.done a'.remaining (a'.writings a'.done.getLast?.toList ++ h) := by
  obtain ⟨name, f, d, entry, hf, hrecalls⟩ := hinformed
  have hstep := hrecalls.step hassigns
  rw [← hremaining] at hstep
  rw [done_of_placed hstep.block, List.getLast?_append, List.getLast?_singleton]
  exact ⟨name, f, d, entry, hf, hstep⟩

end Activation

def Program.Sound (p : Program) : Prop :=
  ∀ name f c, p.function name = .ok f → f.body = some c → ∃ d entry, f.Sound c d entry

open Activation in
/-- A call that has just begun knows everything: nothing is defined in front of it. -/
theorem Activation.informed_of_start {p : Program} (sound : p.Sound) {name : String} {f : Function} {body : FlowGraph}
    {entry : Nat} {m : Machine} {constants : List Constant} {w : Word} {receiver : Receiver} {a : Activation}
    (hf : p.function name = .ok f) (hbody : f.body = some body) (hentry : body.entry = some entry)
    (ha : Activation.enterBlock m ⟨body, entry, [], ∅, constants, w, receiver⟩ none entry = .ok a) :
    a.Informed p [] a.remaining [] ∧ a.receiver = receiver := by
  obtain ⟨d, entry', hsound⟩ := sound name f body hf hbody
  cases hsound.starts.symm.trans hentry
  rw [enterBlock_eq] at ha
  obtain ⟨x, hx, ha⟩ := bind_eq_ok.mp ha
  obtain ⟨values, hvalues, ha⟩ := bind_eq_ok.mp ha
  have hphis := phis_of_noPredecessor hvalues
  rw [hphis] at hvalues
  cases hvalues
  cases ha
  have hleading : leading x.instructions = [] := List.eq_nil_iff_forall_not_mem.mpr fun i hi => by
    obtain ⟨dst, incoming, ho⟩ := exists_phi (isPhi_of_leading hi)
    have := phi_mem hi ho
    rw [hphis] at this
    cases this
  refine ⟨⟨name, f, d, entry, hf, hsound, ⟨x, hx, ?_⟩, hsound.ordered entry x hx, ⟨_, .start⟩, fun v place _ h => ?_⟩, rfl⟩
  · have hsplit := leading_append_behind x.instructions
    rw [hleading] at hsplit
    exact hsplit.symm
  · exact absurd h FlowGraph.not_available_entry

namespace Processor

/-- Calls that wait for the result of another one know what was defined in front of their call instruction. -/
inductive Waiting (p : Program) : Receiver → List Activation → List History → Prop where
  | none (r : Receiver) : Waiting p r [] []
  | caller {a : Activation} {front : List Instruction} {i : Instruction} {h : History} {callers : List Activation}
    {hs : List History} (informed : a.Informed p front (i :: a.remaining) h)
    (waiting : Waiting p a.receiver callers hs) : Waiting p (.caller i.operation.written?) (a :: callers) (h :: hs)

/-- The innermost call knows what has been defined, and the others wait. -/
def Recalls (p : Program) (s : Processor) (hs : List History) : Prop :=
  ∀ a callers, s.calls = a :: callers →
    ∃ h rest, hs = h :: rest ∧ a.Informed p a.done a.remaining h ∧ Waiting p a.receiver callers rest

section Steps

variable {t : Task} {s s' : Processor} {hs : List History}

theorem recorded_eq {a a' : Activation} {callers callers' : List Activation} {h : History} {rest : List History}
    (hcalls : s.calls = a :: callers) (hcalls' : s'.calls = a' :: callers') :
    recorded s s' (h :: rest) =
      if callers'.length < callers.length then
        match rest with
        | g :: rest => (a'.writings a'.done.getLast?.toList ++ g) :: rest
        | [] => []
      else if callers.length < callers'.length then [] :: h :: rest
      else if a.remaining = [] then (a'.writings a'.done ++ h) :: rest
      else (a'.writings a'.done.getLast?.toList ++ h) :: rest := by
  cases s
  cases s'
  cases hcalls
  cases hcalls'
  rfl

/-- A step adds to the histories what makes the calls know what has been defined. -/
theorem recalls_step (sound : t.program.Sound) (hrecalls : Recalls t.program s hs)
    (hrun : (step t).runFrom s = (.ok .running, s')) : Recalls t.program s' (recorded s s' hs) := by
  obtain ⟨a, callers, hcalls, hmove⟩ := step_running hrun
  obtain ⟨h, rest, rfl, hinformed, hwaiting⟩ := hrecalls a callers hcalls
  rcases hmove with ⟨hended, b, hnext, rfl⟩ | ⟨i, back, hremaining, hrun⟩
  · rw [recorded_eq hcalls rfl, if_neg (Nat.lt_irrefl _), if_neg (Nat.lt_irrefl _), if_pos hended]
    rintro _ _ ⟨⟩
    obtain ⟨name, f, d, entry, hf, hrecalls⟩ := hinformed
    rw [hended] at hrecalls
    have hreceiver : b.receiver = a.receiver := by
      rw [Activation.nextBlock_eq] at hnext
      obtain ⟨target, -, hnext⟩ := bind_eq_ok.mp hnext
      obtain ⟨x, scalars, -, rfl⟩ := Activation.enterBlock_ok hnext
      rfl
    exact ⟨_, _, rfl, ⟨name, f, d, entry, hf, hrecalls.enter hnext⟩, hreceiver ▸ hwaiting⟩
  · have hrunning : a.remaining ≠ [] := by rw [hremaining]; exact List.cons_ne_nil i back
    rw [hremaining] at hinformed
    have hinformed : ({ a with remaining := back } : Activation).Informed t.program a.done (i :: back) h := by
      obtain ⟨name, f, d, entry, hf, hrecalls⟩ := hinformed
      exact ⟨name, f, d, entry, hf, hrecalls.sound, hrecalls.block, hrecalls.past, hrecalls.reached, hrecalls.latest⟩
    have hpassage := execute_passes hrun
    generalize hcalls' : s'.calls = calls' at hpassage
    intro b callers' hb
    rw [hb] at hcalls'
    subst hcalls'
    cases hpassage with
    | stays assigns =>
      rw [recorded_eq hcalls hb, if_neg (Nat.lt_irrefl _), if_neg (Nat.lt_irrefl _), if_neg hrunning]
      obtain ⟨scalars, hfixed⟩ := assigns.fixed
      have hreceiver : b.receiver = a.receiver := by rw [hfixed]; rfl
      exact ⟨_, _, rfl, hinformed.step assigns (by rw [hfixed]; rfl), hreceiver ▸ hwaiting⟩
    | enters function defined starts entered =>
      rw [recorded_eq hcalls hb, if_neg (by simp), if_pos (by simp)]
      obtain ⟨hstart, hreceiver⟩ := Activation.informed_of_start sound function defined starts entered
      refine ⟨_, _, rfl, hstart.placed.symm ▸ hstart, ?_⟩
      rw [hreceiver]
      exact .caller hinformed hwaiting
    | leaves suspended receiver assigns =>
      rename_i c dst
      subst suspended
      rw [recorded_eq hcalls hb, if_pos (by simp)]
      have hwaiting : Waiting t.program (.caller dst) (c :: callers') rest := receiver ▸ hwaiting
      cases hwaiting with
      | caller informed waiting =>
        obtain ⟨scalars, hfixed⟩ := assigns.fixed
        have hreceiver : b.receiver = c.receiver := by rw [hfixed]; rfl
        exact ⟨_, _, rfl, informed.step assigns (by rw [hfixed]; rfl), hreceiver ▸ waiting⟩

end Steps

end Processor

end RegionGuard

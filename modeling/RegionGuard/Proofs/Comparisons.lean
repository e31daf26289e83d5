import RegionGuard.Proofs.DefinedReads
import RegionGuard.Proofs.Histories
import RegionGuard.Proofs.Journeys
import RegionGuard.Proofs.LoopNests
set_option autoImplicit false

/-!
# What computations go on saying

What has been computed in front of the place where a call stands is still what its operands give: before one of them
can be written again, control leaves what the computation dominates. So the result of a comparison tells how its
operands compare.
-/

namespace RegionGuard

namespace FlowGraph

variable {c : FlowGraph} {entry k n : Nat} {place : Location}

theorem Available.reached (h : c.Available entry place k n) (hk : c.graph.IsReached entry k) :
    c.graph.IsReached entry place.block := by
  unfold Available at h
  split at h
  · rename_i heq
    exact heq ▸ hk
  · obtain ⟨l, hl⟩ := hk
    exact hl.exists_of_mem (h l hl)

theorem Available.dominates (h : c.Available entry place k n) : c.graph.Dominates entry place.block k := by
  unfold Available at h
  split at h
  · rename_i heq
    exact heq ▸ fun _ hway => hway.self_mem
  · exact h

/-- What is available in front of an instruction is available wherever the instruction's own result is. -/
theorem Available.trans (wired : c.graph.Wired) {origin : Location} {b : Block} {m : Nat}
    (hb : c.block place.block = .ok b) (hm : b.position? place.instruction = some m)
    (horigin : c.Available entry origin place.block m) (h : c.Available entry place k n)
    (hk : c.graph.IsReached entry k) : c.Available entry origin k n := by
  unfold Available
  split
  · rename_i heq
    by_cases hsame : place.block = k
    · unfold Available at horigin h
      rw [if_pos (heq.trans hsame.symm)] at horigin
      rw [if_pos hsame] at h
      obtain ⟨b', j, hb', hj, hlt⟩ := horigin
      obtain ⟨b'', m', hb'', hm', hlt'⟩ := h
      rw [← hsame] at hb''
      cases hb.symm.trans hb'
      cases hb.symm.trans hb''
      cases hm.symm.trans hm'
      exact ⟨b, j, hsame ▸ hb, hj, hlt.trans hlt'⟩
    · -- Two blocks would dominate each other.
      obtain ⟨l, hl⟩ := hk
      exact absurd (wired.dominates_antisymm hl h.dominates (heq ▸ horigin.dominates)) hsame
  · exact horigin.dominates.trans h.dominates

end FlowGraph

def DefUse.WrittenOutside (d : DefUse) (P : Location → Prop) (v : Value) : Prop :=
  ∀ x, v = .variable x → ∃ place, d.definition? x = some place ∧ ¬ P place

theorem DefUse.WrittenOutside.mono {d : DefUse} {P Q : Location → Prop} {v : Value} (h : d.WrittenOutside P v)
    (hQ : ∀ place, Q place → P place) : d.WrittenOutside Q v := fun x hx => by
  obtain ⟨place, hplace, hoff⟩ := h x hx
  exact ⟨place, hplace, fun hplace => hoff (hQ place hplace)⟩

namespace Function

variable {f : Function} {c : FlowGraph} {d : DefUse} {entry : Nat} {v : Variable} {o : Operation}

theorem Verified.standing (h : f.Verified c d entry) {l : Location} {i : Instruction} (hi : f.instruction? l = some i) :
    ∃ b n, c.block l.block = .ok b ∧ b.position? l.instruction = some n ∧ b.instructions[n]? = some i ∧
      i.index = l.instruction := by
  obtain ⟨c', hc', hi⟩ := Option.bind_eq_some_iff.mp hi
  cases h.body.symm.trans hc'
  obtain ⟨b, hb, hi⟩ := bind_eq_ok.mp (toOption_eq_some.mp hi)
  have hfind : b.instructions.find? (·.index == l.instruction) = some i := orRaise_eq_ok.mp hi
  have hindex : i.index = l.instruction := by simpa using List.find?_some hfind
  have distinct := (FlowGraph.addressable_iff.mp h.addressable _ b hb).2
  obtain ⟨n, hn⟩ := List.getElem?_of_mem (List.mem_of_find?_eq_some hfind)
  exact ⟨b, n, hb, (Block.position?_iff distinct).mpr ⟨i, hn, hindex⟩, hn, hindex⟩

theorem Verified.defining (h : f.Verified c d entry) {place : Location} (hplace : d.definition? v = some place)
    (ho : d.definingOperation? (.variable v) = some o) :
    ∃ b n i, c.block place.block = .ok b ∧ b.position? place.instruction = some n ∧ b.instructions[n]? = some i ∧
      i.index = place.instruction ∧ i.operation = o := by
  obtain ⟨i, hi, ho⟩ := Option.bind_eq_some_iff.mp ho
  cases ho
  obtain ⟨place', hplace', hi⟩ := Option.bind_eq_some_iff.mp hi
  cases hplace.symm.trans hplace'
  rw [DefUse.function_ofFunction h.definitions] at hi
  obtain ⟨b, n, hb, hn, hmem, hindex⟩ := h.standing hi
  exact ⟨b, n, i, hb, hn, hmem, hindex, rfl⟩

theorem Verified.writes (h : f.Verified c d entry) {place : Location} (hplace : d.definition? v = some place)
    (ho : d.definingOperation? (.variable v) = some o) : o.written? = some v := by
  obtain ⟨b, _, i, hb, -, hi, hindex, rfl⟩ := h.defining hplace ho
  obtain ⟨b', j, hb', hj, hindex', hwritten⟩ := h.definition.mp hplace
  cases hb.symm.trans hb'
  rwa [Block.eq_of_index_eq (FlowGraph.addressable_iff.mp h.addressable _ b hb).2 (List.mem_of_getElem? hi) hj
    (hindex.trans hindex'.symm)]

namespace Named

/-- Where an operand of an available operation is defined: not in the block that control has come to, unless the
operation stands there too, behind it. -/
theorem operand (h : f.Named c d entry) {place : Location} (hplace : d.definition? v = some place)
    (ho : d.definingOperation? (.variable v) = some o) (notPhi : o.isPhi = false) {k m : Nat}
    (havailable : c.Available entry place k m) (hk : c.graph.IsReached entry k) {x : Variable}
    (hx : .variable x ∈ o.reads) :
    ∃ origin, d.definition? x = some origin ∧ (origin.block = k → place.block = k ∧ ∃ b j n,
      c.block k = .ok b ∧ b.position? origin.instruction = some j ∧ b.position? place.instruction = some n ∧ j < n ∧ n < m) := by
  obtain ⟨b, n, i, hb, hn, hi, -, rfl⟩ := h.defining hplace ho
  obtain ⟨origin, horigin, hread⟩ := h.reads place.block b n i hb hi notPhi x hx
  have hread := hread (havailable.reached hk)
  refine ⟨origin, horigin, fun hblock => ?_⟩
  unfold FlowGraph.Available at hread havailable
  by_cases heq : place.block = k
  · rw [if_pos (hblock.trans heq.symm)] at hread
    rw [if_pos heq] at havailable
    obtain ⟨b', j, hb', hj, hlt⟩ := hread
    obtain ⟨b'', n', hb'', hn', hlt'⟩ := havailable
    rw [heq] at hb hb'
    cases hb.symm.trans hb'
    cases hb.symm.trans hb''
    cases hn.symm.trans hn'
    exact ⟨heq, b, j, n, hb, hj, hn, hlt, hlt'⟩
  · rw [if_neg fun hsame => heq (hsame.symm.trans hblock), hblock] at hread
    rw [if_neg heq] at havailable
    obtain ⟨l, hl⟩ := hk
    exact absurd (h.built.wired.dominates_antisymm hl havailable hread) heq

theorem operand_behind (h : f.Named c d entry) {place : Location} (hplace : d.definition? v = some place)
    (ho : d.definingOperation? (.variable v) = some o) (notPhi : o.isPhi = false) {k n : Nat} {b : Block}
    {i : Instruction} (hb : c.block k = .ok b) (hi : b.instructions[n]? = some i)
    (havailable : c.Available entry place k (n + 1)) (hk : c.graph.IsReached entry k) {u : Value} (hu : u ∈ o.reads) :
    d.WrittenOutside (· = ⟨k, i.index⟩) u := by
  rintro x rfl
  obtain ⟨origin, horigin, hbefore⟩ := h.operand hplace ho notPhi havailable hk hu
  refine ⟨origin, horigin, fun hhere => ?_⟩
  obtain ⟨-, b', j, n', hb', hj, -, hlt, hlt'⟩ := hbefore (by rw [hhere])
  cases hb.symm.trans hb'
  rw [hhere, (Block.position?_iff (FlowGraph.addressable_iff.mp h.addressable k b hb).2).mpr ⟨i, hi, rfl⟩] at hj
  cases hj
  omega

theorem operand_behind_phis (h : f.Named c d entry) {place : Location} (hplace : d.definition? v = some place)
    (ho : d.definingOperation? (.variable v) = some o) (notPhi : o.isPhi = false) {k : Nat} {b : Block}
    (hb : c.block k = .ok b) (havailable : c.Available entry place k (leading b.instructions).length)
    (hk : c.graph.IsReached entry k) :
    place.block ≠ k ∧ ∀ u ∈ o.reads, d.WrittenOutside (·.block = k) u := by
  have hne : place.block ≠ k := fun heq => by
    -- The operation is no phi, so it would have to stand behind the phis of the block.
    unfold FlowGraph.Available at havailable
    rw [if_pos heq] at havailable
    obtain ⟨b', n, hb', hn, hlt⟩ := havailable
    cases hb.symm.trans hb'
    obtain ⟨b', n', i, hb', hn', hi, -, hoperation⟩ := h.defining hplace ho
    rw [heq] at hb'
    cases hb.symm.trans hb'
    cases hn.symm.trans hn'
    rw [← leading_append_behind b.instructions, List.getElem?_append_left hlt] at hi
    have hphi := isPhi_of_leading (List.mem_of_getElem? hi)
    rw [hoperation, notPhi] at hphi
    cases hphi
  refine ⟨hne, ?_⟩
  rintro _ hu x rfl
  obtain ⟨origin, horigin, hbefore⟩ := h.operand hplace ho notPhi havailable hk hu
  exact ⟨origin, horigin, fun hhere => hne (hbefore hhere).1⟩

theorem name_ne (h : f.Named c d entry) {place : Location} (hplace : d.definition? v = some place) {k : Nat} {b : Block}
    {i : Instruction} (hb : c.block k = .ok b) (hi : i ∈ b.instructions) (hne : place ≠ ⟨k, i.index⟩) :
    ∀ u ∈ i.operation.written?, u.name ≠ v.name :=
  fun _ hu hname => hne (h.unique hplace hb hi hu hname)

end Named

end Function

namespace Activation

variable {f : Function} {c : FlowGraph} {d : DefUse} {entry : Nat} {a a' : Activation} {front : List Instruction}
  {m : Machine} {v : Value}

theorem value_image {n : Machine} (h : m.image = n.image) (a : Activation) (v : Value) : a.value m v = a.value n v := by
  unfold value
  rw [h]

theorem Assigns.value_eq {dst : Option Variable} (h : a.Assigns dst a')
    (hv : ∀ x, v = .variable x → ∀ u ∈ dst, u.name ≠ x.name) (m : Machine) : a'.value m v = a.value m v := by
  obtain ⟨scalars, rfl⟩ := h.fixed
  exact value_congr (fun x hx => h.get?_of_ne (hv x hx)) rfl

/-- A call of a body stands behind some instructions of a block that control gets to, and past its phis. -/
structure Stands (c : FlowGraph) (entry : Nat) (a : Activation) (front : List Instruction) : Prop where
  body : a.body = c
  block : ∃ b, c.block a.block = .ok b ∧ b.instructions = front ++ a.remaining
  past : ∀ i ∈ a.remaining, i.operation.isPhi = false
  reached : c.graph.IsReached entry a.block

/-- An instruction takes a call past itself, and changes no value but that of what it writes. -/
theorem Stands.performs (h : a.Stands c entry front) (named : f.Named c d entry) {i : Instruction}
    {rest : List Instruction} (hnext : a.remaining = i :: rest)
    (hperforms : Performs m { a with remaining := rest } i.operation a') :
    a'.Stands c entry (front ++ [i]) ∧ a'.block = a.block ∧
      ∀ v, d.WrittenOutside (· = ⟨a.block, i.index⟩) v → ∀ n, a'.value n v = a.value n v := by
  obtain ⟨b, hb, hinstructions⟩ := h.block
  have hi : i ∈ b.instructions := by
    rw [hinstructions, hnext]
    exact List.mem_append_right _ List.mem_cons_self
  have hassigns := hperforms.assigns
  obtain ⟨scalars, hfixed⟩ := hassigns.fixed
  have hblock : a'.block = a.block := by rw [hfixed]; rfl
  refine ⟨⟨by rw [hfixed]; exact h.body, ⟨b, by rw [hblock, hb], ?_⟩, ?_, by rw [hblock]; exact h.reached⟩, hblock, ?_⟩
  · rw [hinstructions, hnext, List.append_cons, hfixed]
    rfl
  · intro j hj
    rw [hfixed] at hj
    exact h.past j (hnext ▸ List.mem_cons_of_mem _ hj)
  · intro v hv n
    refine hassigns.value_eq (fun x hx => ?_) n
    obtain ⟨place, hplace, hne⟩ := hv x hx
    exact named.name_ne hplace hb hi hne

/-- The end of a block takes a call along an edge whose condition is met past the phis of another, which change no
value but those of what they write. -/
theorem Stands.goesOn (h : a.Stands c entry front) (named : f.Named c d entry) (hnext : a.nextBlock m = .ok a') :
    ∃ x e, c.block a'.block = .ok x ∧ a'.Stands c entry (leading x.instructions) ∧
      c.graph.edges.get? (a.block, a'.block) = some e ∧
      (∀ k ∈ e.condition, ∃ w, a.word m k.value = .ok w ∧ k.isSatisfiedBy w) ∧
      ∀ v, d.WrittenOutside (·.block = a'.block) v → ∀ n, a'.value n v = a.value n v := by
  have hbody := h.body
  rw [nextBlock_eq] at hnext
  obtain ⟨target, htarget, hnext⟩ := bind_eq_ok.mp hnext
  obtain ⟨e, hedge, hmet⟩ := exists_edge_of_next (hbody ▸ named.built.wired) (hbody ▸ named.built.filed) htarget
  rw [enterBlock_eq] at hnext
  obtain ⟨x, hx, hnext⟩ := bind_eq_ok.mp hnext
  obtain ⟨values, hvalues, hnext⟩ := bind_eq_ok.mp hnext
  rw [hbody] at hedge hx
  obtain ⟨scalars, hscalars⟩ := foldl_assign values a
  have hget : ∀ name, (∀ z ∈ values, name ≠ z.1.name) → scalars.get? name = a.scalars.get? name := fun name hname => by
    have hfold := get?_foldl_of_ne a hname
    rw [hscalars] at hfold
    exact hfold
  rw [hscalars] at hnext
  cases hnext
  refine ⟨x, e, hx, ⟨hbody, ⟨x, hx, (leading_append_behind _).symm⟩, named.ordered target x hx,
    h.reached.follow (by rw [hedge]; rfl)⟩, hedge, hmet, fun v hv n => ?_⟩
  have hvalue : (a.withScalars scalars).value n v = a.value n v := by
    refine value_congr (fun y hy => hget _ fun z hz hname => ?_) rfl
    obtain ⟨place, hplace, hne⟩ := hv y hy
    obtain ⟨i, hi, hwritten⟩ := mem_phis_fst.mp (phiValues_dst hvalues ▸ List.mem_map_of_mem hz)
    have hmem : i ∈ x.instructions := (List.takeWhile_sublist _).subset hi
    exact named.name_ne hplace hx hmem (fun heq => hne (by rw [heq])) z.1 hwritten hname.symm
  exact hvalue

theorem exists_get?_foldl {values : List (Variable × Constant)} (a : Activation) {name : String}
    (h : ∃ z ∈ values, z.1.name = name) : ∃ z ∈ values, z.1.name = name ∧
      (values.foldl (fun a e => a.assign e.1 e.2) a).scalars.get? name = some z.2 := by
  induction values generalizing a with
  | nil => exact absurd h fun ⟨z, hz, _⟩ => List.not_mem_nil hz
  | cons e rest ih =>
    by_cases hrest : ∃ z ∈ rest, z.1.name = name
    · obtain ⟨z, hz, hname, hget⟩ := ih (a.assign e.1 e.2) hrest
      exact ⟨z, List.mem_cons_of_mem _ hz, hname, hget⟩
    · obtain ⟨z, hz, hname⟩ := h
      rcases List.mem_cons.mp hz with rfl | hz
      · refine ⟨z, List.mem_cons_self, hname, ?_⟩
        rw [List.foldl_cons, get?_foldl_of_ne _ fun y hy heq => hrest ⟨y, hy, heq.symm⟩]
        change (a.scalars.insert z.1.name z.2).get? name = some z.2
        rw [Table.get?_insert, if_pos hname.symm]
      · exact absurd ⟨z, hz, hname⟩ hrest

theorem Stands.takes (h : a.Stands c entry front) (named : f.Named c d entry) (hnext : a.nextBlock m = .ok a')
    {place : Location} {dst : Variable} {incoming : List (Value × Nat)} (hplace : d.definition? dst = some place)
    (hblock : place.block = a'.block) (ho : d.definingOperation? (.variable dst) = some (.phi dst incoming)) :
    ∃ v r, (v, a.block) ∈ incoming ∧ a.value m v = .ok r ∧ a'.value m (.variable dst) = .ok r := by
  have hbody := h.body
  rw [nextBlock_eq] at hnext
  obtain ⟨target, -, hnext⟩ := bind_eq_ok.mp hnext
  rw [enterBlock_eq] at hnext
  obtain ⟨x, hx, hnext⟩ := bind_eq_ok.mp hnext
  obtain ⟨values, hvalues, hnext⟩ := bind_eq_ok.mp hnext
  cases hnext
  have hblock : place.block = target := hblock
  rw [hbody] at hx
  obtain ⟨b, n, i, hb, -, hi, hindex, hoperation⟩ := named.defining hplace ho
  rw [hblock] at hb
  cases hx.symm.trans hb
  have hi := List.mem_of_getElem? hi
  have hleading : i ∈ leading x.instructions := by
    rw [← leading_append_behind x.instructions] at hi
    refine (List.mem_append.mp hi).resolve_right fun hbehind => ?_
    have hphi := named.ordered target x hx i hbehind
    rw [hoperation] at hphi
    cases hphi
  obtain ⟨⟨u, r⟩, hmem, hname, hget⟩ : ∃ z ∈ values, z.1.name = dst.name ∧
      (values.foldl (fun a e => a.assign e.1 e.2) a).scalars.get? dst.name = some z.2 := by
    refine exists_get?_foldl a ?_
    have hdst := List.mem_map_of_mem (f := Prod.fst) (phi_mem hleading hoperation)
    rw [← phiValues_dst hvalues] at hdst
    obtain ⟨z, hz, hzdst⟩ := List.mem_map.mp hdst
    exact ⟨z, hz, congrArg Variable.name hzdst⟩
  -- The phi is the only one of its name.
  obtain ⟨⟨dst', incoming'⟩, hphi, hvalue⟩ := exists_of_mem_mapM hvalues hmem
  obtain ⟨r', hvalue, heq⟩ := bind_eq_ok.mp hvalue
  cases heq
  rw [phis_leading] at hphi
  obtain ⟨j, hj, hj'⟩ := mem_phis hphi
  have hjmem : j ∈ x.instructions := (List.takeWhile_sublist _).subset hj
  have hsame := named.unique hplace hx hjmem (by rw [hj']; rfl) hname
  have distinct := (FlowGraph.addressable_iff.mp named.addressable target x hx).2
  cases Block.eq_of_index_eq distinct hjmem hi (by rw [hindex, hsame])
  cases hj'.symm.trans hoperation
  obtain ⟨y, hy, hvalue⟩ := bind_eq_ok.mp hvalue
  cases hy
  obtain ⟨⟨v, k⟩, hfind, hvalue⟩ := bind_eq_ok.mp hvalue
  have hfind := orRaise_eq_ok.mp hfind
  obtain rfl : k = a.block := by simpa using List.find?_some hfind
  exact ⟨v, _, List.mem_of_find?_eq_some hfind, hvalue, orRaise_eq_ok.mpr hget⟩

theorem stands_of_start (named : f.Named c d entry) {constants : List Constant} {w : Word} {r : Receiver}
    (h : enterBlock m ⟨c, entry, [], ∅, constants, w, r⟩ none entry = .ok a) :
    a.Stands c entry [] ∧ a.block = entry := by
  rw [enterBlock_eq] at h
  obtain ⟨x, hx, h⟩ := bind_eq_ok.mp h
  obtain ⟨values, hvalues, h⟩ := bind_eq_ok.mp h
  have hphis := phis_of_noPredecessor hvalues
  rw [hphis] at hvalues
  cases hvalues
  cases h
  have hleading : leading x.instructions = [] := List.eq_nil_iff_forall_not_mem.mpr fun i hi => by
    obtain ⟨dst, incoming, ho⟩ := exists_phi (isPhi_of_leading hi)
    have hmem := phi_mem hi ho
    rw [hphis] at hmem
    cases hmem
  refine ⟨⟨rfl, ⟨x, hx, ?_⟩, named.ordered entry x hx, ⟨_, .start⟩⟩, rfl⟩
  have hsplit := leading_append_behind x.instructions
  rw [hleading] at hsplit
  exact hsplit.symm

/-- A variable holds what an operation computes from its operands as they are. -/
def Solves (x : Image) (a : Activation) (dst : Variable) (o : Operation) : Prop :=
  ∀ m, m.image = x → ∃ r, a.computed? m o = some (dst, .ok r) ∧ a.value m (.variable dst) = .ok r

theorem Solves.congr {x : Image} {dst : Variable} {o : Operation} (h : a.Solves x dst o)
    (hsame : ∀ v, v = .variable dst ∨ v ∈ o.reads → ∀ n, a'.value n v = a.value n v) : a'.Solves x dst o := by
  intro m hm
  obtain ⟨r, hr, hvalue⟩ := h m hm
  refine ⟨r, ?_, ?_⟩
  · rw [computed?_congr fun v hv => hsame v (.inr hv) m, hr]
  · rw [hsame _ (.inl rfl) m, hvalue]

/-- A call stands in a block, and whatever has been computed in front of it still is what the operands give. -/
structure Solved (c : FlowGraph) (d : DefUse) (entry : Nat) (x : Image) (a : Activation) (front : List Instruction) :
    Prop extends Stands c entry a front where
  solves : ∀ dst place o, d.definition? dst = some place → d.definingOperation? (.variable dst) = some o →
    o.computes? = some dst → c.Available entry place a.block front.length → a.Solves x dst o

variable {x : Image}

/-- What is computed is what the operands give, and what has been computed in front goes on to be. -/
theorem Solved.performs (h : a.Solved c d entry x front) (named : f.Named c d entry) (image : m.image = x)
    {i : Instruction} {rest : List Instruction} (hnext : a.remaining = i :: rest)
    (hperforms : Performs m { a with remaining := rest } i.operation a') :
    a'.Solved c d entry x (front ++ [i]) := by
  obtain ⟨hstands, hblock, hsame⟩ := h.toStands.performs named hnext hperforms
  refine ⟨hstands, fun dst place o hplace ho hcomputes havailable => ?_⟩
  obtain ⟨b, hb, hinstructions⟩ := h.block
  have hi : b.instructions[front.length]? = some i := by
    rw [hinstructions, hnext, List.getElem?_append_right (Nat.le_refl _), Nat.sub_self]
    rfl
  rw [hblock, List.length_append, List.length_singleton] at havailable
  have operand : ∀ u ∈ o.reads, ∀ n, a'.value n u = a.value n u := fun u hu =>
    hsame u (named.operand_behind hplace ho (Operation.isPhi_of_computes? hcomputes) hb hi havailable h.reached hu)
  by_cases hhere : place = ⟨a.block, i.index⟩
  · -- It is what has just been computed.
    subst hhere
    obtain ⟨b', n, j, hb', -, hj, hindex, rfl⟩ := named.defining hplace ho
    cases hb.symm.trans hb'
    cases Block.eq_of_index_eq (FlowGraph.addressable_iff.mp named.addressable _ b hb).2 (List.mem_of_getElem? hj)
      (List.mem_of_getElem? hi) hindex
    obtain ⟨r, hr, ha'⟩ := hperforms.computes dst hcomputes
    intro n hn
    refine ⟨r, ?_, ?_⟩
    · rw [← hr]
      exact computed?_congr fun u hu => (operand u hu n).trans (value_image (hn.trans image.symm) a u)
    · rw [ha']
      exact value_assign_self rfl n _ r
  · have hbefore := (havailable.behind named.addressable hb (hnext ▸ hinstructions)).resolve_left hhere
    refine (h.solves dst place o hplace ho hcomputes hbefore).congr fun v hv => ?_
    rcases hv with rfl | hv
    · refine hsame _ fun y hy => ?_
      cases hy
      exact ⟨place, hplace, hhere⟩
    · exact operand v hv

theorem Solved.goesOn (h : a.Solved c d entry x front) (named : f.Named c d entry) (ended : a.remaining = [])
    (hnext : a.nextBlock m = .ok a') : ∃ front', a'.Solved c d entry x front' := by
  obtain ⟨y, e, hy, hstands, hedge, -, hsame⟩ := h.toStands.goesOn named hnext
  refine ⟨_, hstands, fun dst place o hplace ho hcomputes havailable => ?_⟩
  obtain ⟨hne, operand⟩ :=
    named.operand_behind_phis hplace ho (Operation.isPhi_of_computes? hcomputes) hy havailable hstands.reached
  obtain ⟨b, hb, hinstructions⟩ := h.block
  obtain ⟨z, n, hz, hn⟩ := named.position hplace
  have hbefore := havailable.over_edge hz hn hb (by rw [hedge]; rfl) hne
  rw [hinstructions, ended, List.append_nil] at hbefore
  refine (h.solves dst place o hplace ho hcomputes hbefore).congr fun v hv => hsame v ?_
  rcases hv with rfl | hv
  · intro u hu
    cases hu
    exact ⟨place, hplace, hne⟩
  · exact operand v hv

theorem solved_of_start (named : f.Named c d entry) {constants : List Constant} {w : Word} {r : Receiver}
    (h : enterBlock m ⟨c, entry, [], ∅, constants, w, r⟩ none entry = .ok a) : a.Solved c d entry x [] := by
  obtain ⟨hstands, hblock⟩ := stands_of_start named h
  refine ⟨hstands, fun dst place o _ _ _ havailable => ?_⟩
  rw [hblock] at havailable
  exact absurd havailable FlowGraph.not_available_entry

def comparison (m : Machine) (a : Activation) (p : Predicate) (lhs rhs : Value) : Outcome Bool := do
  return Evaluation.holds p (← a.value m lhs) (← a.value m rhs)

theorem comparison_congr {n : Machine} {p : Predicate} {lhs rhs : Value} (hlhs : a'.value n lhs = a.value m lhs)
    (hrhs : a'.value n rhs = a.value m rhs) : a'.comparison n p lhs rhs = a.comparison m p lhs rhs := by
  unfold comparison
  rw [hlhs, hrhs]

def Compares (x : Image) (a : Activation) (dst : Variable) (p : Predicate) (lhs rhs : Value) : Prop :=
  ∀ m, m.image = x → ∃ r, a.comparison m p lhs rhs = .ok r ∧ a.word m (.variable dst) = .ok (if r then 1 else 0)

/-- What a comparison computes says how its operands compare. -/
theorem Solves.compares {x : Image} {dst : Variable} {p : Predicate} {lhs rhs : Value}
    (h : a.Solves x dst (.compare dst p lhs rhs)) : a.Compares x dst p lhs rhs := by
  intro m hm
  obtain ⟨r, hr, hvalue⟩ := h m hm
  obtain ⟨y, hy, hr⟩ := bind_eq_ok.mp (Prod.mk.inj (Option.some.inj hr)).2
  obtain ⟨z, hz, hr⟩ := bind_eq_ok.mp hr
  cases hr
  refine ⟨Evaluation.holds p y z, ?_, ?_⟩
  · unfold comparison
    rw [hy, hz]
    rfl
  · unfold word
    rw [hvalue]
    unfold Evaluation.compare
    cases Evaluation.holds p y z <;> rfl

/-- A call stands in a block, and every comparison in front of it still tells how its operands compare. -/
structure Compared (c : FlowGraph) (d : DefUse) (entry : Nat) (x : Image) (a : Activation) (front : List Instruction) :
    Prop extends Stands c entry a front where
  compares : ∀ dst place p lhs rhs, d.definition? dst = some place →
    d.definingOperation? (.variable dst) = some (.compare dst p lhs rhs) →
    c.Available entry place a.block front.length → a.Compares x dst p lhs rhs

theorem Solved.compared (h : a.Solved c d entry x front) : a.Compared c d entry x front :=
  ⟨h.toStands, fun dst place _ _ _ hplace ho havailable => (h.solves dst place _ hplace ho rfl havailable).compares⟩

end Activation

end RegionGuard

import RegionGuard.Proofs.Agreement
import RegionGuard.Proofs.Overlays
set_option autoImplicit false

namespace RegionGuard

open Stateful

namespace Graph

variable {ν ε : Type} {g : Graph ν ε} {v : Nat}

theorem Wired.exists_edgesOut (wired : g.Wired) (hv : (g.vertices.get? v).isSome) : ∃ es, g.edgesOut v = .ok es := by
  obtain ⟨s, hs⟩ := Option.isSome_iff_exists.mp ((wired.hasSuccessors v).trans hv)
  have hall : ∀ w ∈ s.keys, ∃ e, g.edges.get? (v, w) = some e := by
    intro w hw
    refine Option.isSome_iff_exists.mp ((wired.successors v w).mp ?_)
    unfold successorsOf
    rw [hs]
    exact hw
  have hes : ∃ es, List.Forall₂ (fun w e => g.edges.get? (v, w) = some e) s.keys es := by
    clear hs
    generalize s.keys = l at hall
    induction l with
    | nil => exact ⟨[], .nil⟩
    | cons w rest ih =>
      obtain ⟨e, he⟩ := hall w List.mem_cons_self
      obtain ⟨es, hes⟩ := ih fun w' hw' => hall w' (List.mem_cons_of_mem w hw')
      exact ⟨e :: es, .cons he hes⟩
  obtain ⟨es, hes⟩ := hes
  exact ⟨es, edgesOut_eq_ok.mpr ⟨s, hs, hes⟩⟩

theorem Wired.edgesOut_of_absent (wired : g.Wired) (hv : g.hasVertex v = false) :
    g.edgesOut v = .error (.error (.vertexNotFound v)) := by
  have hnone : g.successors.get? v = none :=
    Option.not_isSome_iff_eq_none.mp fun h => Bool.false_ne_true (hv.symm.trans ((wired.hasSuccessors v).symm.trans h))
  unfold edgesOut successorIndices
  rw [hnone]
  rfl

theorem mem_edgesOut [Arc ε] (wired : g.Wired) (filed : g.Filed) {es : List ε} (hes : g.edgesOut v = .ok es) {e : ε} :
    e ∈ es ↔ g.edges.get? (v, Arc.tail e) = some e := by
  obtain ⟨s, hs, hall⟩ := edgesOut_eq_ok.mp hes
  constructor
  · intro he
    obtain ⟨w, -, hw⟩ := exists_of_mem_forall₂ hall he
    rw [(filed v w e hw).2]
    exact hw
  · intro he
    have hmem : Arc.tail e ∈ s.keys := by
      have := (wired.successors v (Arc.tail e)).mpr (by rw [he]; rfl)
      unfold successorsOf at this
      rw [hs] at this
      exact this
    obtain ⟨e', he', hedge⟩ := exists_of_mem_forall₂ hall.flip hmem
    cases he.symm.trans hedge
    exact he'

end Graph

namespace Activation

variable {h : Hooks} {r : Routes} {a a' b b' : Activation} {M N : Machine}

section Values

variable {n : Nat} {ps ps' : List (Variable × List (Value × Nat))} {y y' : Nat} {vs ws : List Value}
  {values : List (Variable × Constant)}

def phiValues (m : Machine) (a : Activation) (previous : Option Nat) (ps : List (Variable × List (Value × Nat))) :
    Outcome (List (Variable × Constant)) :=
  ps.mapM fun (dst, incoming) => do return (dst, ← a.phiValue m previous dst incoming)

theorem enterBlock_eq (m : Machine) (a : Activation) (previous : Option Nat) (block : Nat) :
    enterBlock m a previous block = (do
      let x ← a.body.block block
      let values ← phiValues m a previous (phis x.instructions)
      return { values.foldl (fun a e => a.assign e.1 e.2) a with
        block := block
        remaining := behind x.instructions }) := rfl

theorem phiValue_of_arriving {dst : Variable} {incoming : List (Value × Nat)} {v : Value}
    (harriving : arriving? incoming y = some v) : a.phiValue M (some y) dst incoming = a.value M v := by
  obtain ⟨x, hx, rfl⟩ := Option.map_eq_some_iff.mp harriving
  change (do
    let arriving ← Failure.orRaise (incoming.find? (·.2 = y)) (.execution (.noIncoming dst y))
    a.value M arriving.1 : Outcome Constant) = _
  rw [hx]
  rfl

theorem phiValues_eq_ok {previous : Option Nat} : a.phiValues M previous ps = .ok values ↔
    List.Forall₂ (fun e z => e.1 = z.1 ∧ a.phiValue M previous e.1 e.2 = .ok z.2) ps values := by
  unfold phiValues
  rw [mapM_eq_ok]
  refine ⟨fun hall => hall.imp ?_, fun hall => hall.imp ?_⟩
  · rintro ⟨dst, incoming⟩ z hz
    obtain ⟨c, hc, hz⟩ := bind_eq_ok.mp hz
    cases hz
    exact ⟨rfl, hc⟩
  · rintro ⟨dst, incoming⟩ ⟨dst', c⟩ ⟨rfl, hc⟩
    exact bind_eq_ok.mpr ⟨c, hc, rfl⟩

theorem phiValues_dst {previous : Option Nat} (hvalues : a.phiValues M previous ps = .ok values) :
    values.map (·.1) = ps.map (·.1) := by
  have hall := phiValues_eq_ok.mp hvalues
  clear hvalues
  induction hall with
  | nil => rfl
  | cons hhead _ ih => rw [List.map_cons, List.map_cons, hhead.1, ih]

theorem phis_of_noPredecessor (hvalues : a.phiValues M none ps = .ok values) : ps = [] := by
  cases phiValues_eq_ok.mp hvalues with
  | nil => rfl
  | cons hhead _ => cases hhead.2

theorem phiValues_takes (hdst : ps'.map (·.1) = ps.map (·.1)) (htakes : Takes ps y vs) (htakes' : Takes ps' y' ws)
    (hsame : List.Forall₂ (fun v w => a.value M v = b.value N w) vs ws)
    (hvalues : b.phiValues N (some y') ps' = .ok values) : a.phiValues M (some y) ps = .ok values := by
  rw [phiValues_eq_ok] at hvalues ⊢
  induction htakes generalizing ps' ws values with
  | nil =>
    cases List.map_eq_nil_iff.mp hdst
    cases hvalues
    exact .nil
  | @cons e v ps vs he _ ih =>
    cases hsame with
    | cons hvw hsame =>
      cases htakes' with
      | cons he' htakes' =>
        cases hvalues with
        | cons hz hvalues =>
          obtain ⟨hname, hdst⟩ := List.cons.inj hdst
          refine .cons ⟨hname.symm.trans hz.1, ?_⟩ (ih hdst htakes' hsame hvalues)
          rw [phiValue_of_arriving he, hvw, ← phiValue_of_arriving he']
          exact hz.2

theorem get?_foldl_of_ne (a : Activation) {name : String} (hname : ∀ z ∈ values, name ≠ z.1.name) :
    (values.foldl (fun a e => a.assign e.1 e.2) a).scalars.get? name = a.scalars.get? name := by
  induction values generalizing a with
  | nil => rfl
  | cons z rest ih =>
    rw [List.foldl_cons, ih _ fun z' hz' => hname z' (List.mem_cons_of_mem z hz')]
    change (a.scalars.insert z.1.name z.2).get? name = _
    rw [Table.get?_insert, if_neg (hname z List.mem_cons_self)]

theorem get?_foldl_of_mem (a : Activation) (distinct : (values.map (·.1.name)).Nodup) {z : Variable × Constant}
    (hz : z ∈ values) : (values.foldl (fun a e => a.assign e.1 e.2) a).scalars.get? z.1.name = some z.2 := by
  induction values generalizing a with
  | nil => cases hz
  | cons z' rest ih =>
    obtain ⟨hnot, hrest⟩ := List.nodup_cons.mp distinct
    rw [List.foldl_cons]
    rcases List.mem_cons.mp hz with rfl | hz
    · rw [get?_foldl_of_ne _ fun z' hz' heq => hnot (List.mem_map.mpr ⟨z', hz', heq.symm⟩)]
      change (a.scalars.insert z.1.name z.2).get? z.1.name = _
      rw [Table.get?_insert, if_pos rfl]
    · exact ih _ hrest hz

theorem value_congr {scalars : Table String Constant} {v : Value}
    (hv : ∀ x, v = .variable x → scalars.get? x.name = a.scalars.get? x.name) (image : M.image = N.image) :
    (a.withScalars scalars).value M v = a.value N v := by
  unfold value withScalars
  rw [image]
  match v, hv with
  | .variable x, hv => simp only [hv x rfl]
  | .argument _, _ | .global _, _ | .function _, _ | .constant _, _ | .null, _ => rfl

theorem value_of_supplies (distinct : (ps.map (·.1.name)).Nodup) (hvalues : b.phiValues N (some y) ps = .ok values)
    {v w : Value} (hsupplies : Supplies ps y v w) :
    (values.foldl (fun b e => b.assign e.1 e.2) b).value N w = b.value N v := by
  have hnames : values.map (·.1.name) = ps.map (·.1.name) := by
    have := congrArg (List.map Variable.name) (phiValues_dst hvalues)
    rwa [List.map_map, List.map_map] at this
  obtain ⟨scalars, hs⟩ := foldl_assign values b
  rcases hsupplies with ⟨rfl, hother⟩ | ⟨e, he, rfl, harriving⟩
  · rw [hs]
    refine value_congr (fun x hx => ?_) rfl
    have hne : ∀ z ∈ values, x.name ≠ z.1.name := by
      intro z hz hname
      have hmem : x.name ∈ ps.map (·.1.name) := hnames ▸ List.mem_map.mpr ⟨z, hz, hname.symm⟩
      obtain ⟨e, he, heq⟩ := List.mem_map.mp hmem
      exact hother e he x hx heq.symm
    have hget := get?_foldl_of_ne b hne
    rw [hs] at hget
    exact hget
  · obtain ⟨z, hz, hdst, hc⟩ := exists_of_mem_forall₂ (phiValues_eq_ok.mp hvalues).flip he
    rw [phiValue_of_arriving harriving] at hc
    rw [hc, hdst]
    change Failure.orRaise ((values.foldl (fun b e => b.assign e.1 e.2) b).scalars.get? z.1.name) _ = _
    rw [get?_foldl_of_mem b (hnames ▸ distinct) hz]
    rfl

end Values

def next (m : Machine) (a : Activation) : Outcome Nat := do a.follow m (← a.body.graph.edgesOut a.block)

theorem nextBlock_eq (m : Machine) (a : Activation) :
    a.nextBlock m = a.next m >>= fun target => a.enterBlock m (some a.block) target := by
  unfold nextBlock next
  rw [bind_assoc]

/-- Two calls of the versions of a function that know the same. -/
structure Overlaid (h : Hooks) (r : Routes) (a b : Activation) : Prop where
  carries : FlowGraph.Carries h r a.body b.body
  plain : a.body.Plain
  agrees : Agrees a.body.nextTemp a b

structure Together (h : Hooks) (r : Routes) (a b : Activation) : Prop extends Overlaid h r a b where
  block : b.block = a.block
  known : ∃ x, a.body.block a.block = .ok x
  woven : Woven h a.body.nextTemp a.remaining b.remaining

/-- Two such calls, the first one at the end of a block, and the second one on its way to the next one. -/
structure Ahead (h : Hooks) (r : Routes) (M : Machine) (t : Nat) (vs : List Value) (a b : Activation) : Prop
    extends Overlaid h r a b where
  ended : a.remaining = []
  old : r.toward a.block = none
  next : a.next M = .ok t
  toward : r.toward b.block = some t
  offers : r.Offers a.body a.block t vs
  brought : List.Forall₂ (fun v w => a.value M v = b.value M w) vs (r.brings b.block)
  extra : ∀ z ∈ b.remaining, z.operation.IsExtra h a.body.nextTemp
  spares : ∀ z ∈ b.remaining, ∀ dst, z.operation.computes? = some dst →
    ∀ x, .variable x ∈ r.brings b.block → x.name ≠ dst.name

/-- Both calls enter the next block, or only the second one does. -/
def Proceeds (h : Hooks) (r : Routes) (M : Machine) (a b' : Activation) : Prop :=
  (∃ a', a.nextBlock M = .ok a' ∧ Together h r a' b') ∨ ∃ t vs, Ahead h r M t vs a b'

theorem Agrees.foldl_assign_right {n : Nat} (hab : Agrees n a b) {values : List (Variable × Constant)}
    (hup : ∀ z ∈ values, z.1.IsUpcoming n) : Agrees n a (values.foldl (fun b e => b.assign e.1 e.2) b) := by
  induction values generalizing b with
  | nil => exact hab
  | cons z rest ih =>
    exact ih (hab.assign_right (hup z List.mem_cons_self) z.2) fun z' hz' => hup z' (List.mem_cons_of_mem z hz')

theorem Overlaid.starts (hab : Overlaid h r a b) {entry : Nat} (hentry : a.body.entry = some entry)
    (hb' : enterBlock N b none entry = .ok b') : ∃ a', enterBlock M a none entry = .ok a' ∧ Together h r a' b' := by
  rw [enterBlock_eq] at hb'
  obtain ⟨y, hy, hb'⟩ := bind_eq_ok.mp hb'
  obtain ⟨values, hvalues, hb'⟩ := bind_eq_ok.mp hb'
  cases hb'
  obtain ⟨z, hz⟩ := hab.plain.started entry hentry
  obtain ⟨-, y', hy', hkept⟩ := hab.carries.kept entry z hz
  cases hy.symm.trans hy'
  have hnone := phis_of_noPredecessor hvalues
  have hphis := hkept.phis
  rw [hnone] at hphis hvalues
  cases hvalues
  refine ⟨{ a with block := entry, remaining := behind z.instructions }, ?_,
    ⟨hab.carries, hab.plain, hab.agrees.arguments, hab.agrees.stackPointer, hab.agrees.receiver, hab.agrees.scalars⟩,
    rfl, ⟨z, hz⟩, hkept.woven⟩
  rw [enterBlock_eq]
  refine bind_eq_ok.mpr ⟨z, hz, bind_eq_ok.mpr ⟨[], ?_, rfl⟩⟩
  rw [List.map_eq_nil_iff.mp hphis.symm]
  rfl

/-- The second call enters a block with what the phis there take, or pass on. -/
theorem Overlaid.arrive (hab : Overlaid h r a b) (image : M.image = N.image) {x t : Nat} {vs ws : List Value}
    (ended : a.remaining = []) (old : r.toward a.block = none) (next : a.next M = .ok t) (target : r.target x = t)
    (offers : r.Offers a.body a.block t vs) (accepts : r.Accepts b.body x b.block ws)
    (same : List.Forall₂ (fun v w => a.value M v = b.value M w) vs ws)
    (hb' : enterBlock N b (some b.block) x = .ok b') : Proceeds h r M a b' := by
  rw [enterBlock_eq] at hb'
  obtain ⟨y, hy, hb'⟩ := bind_eq_ok.mp hb'
  obtain ⟨values, hvalues, hb'⟩ := bind_eq_ok.mp hb'
  cases hb'
  obtain ⟨scalars', hs'⟩ := foldl_assign values b
  have same' : List.Forall₂ (fun v w => a.value M v = b.value N w) vs ws := same.imp fun v w hvw => by
    rw [hvw]
    exact value_congr (a := b) (fun _ _ => rfl) image
  cases hx : r.toward x with
  | none =>
    have htarget : x = t := by
      unfold Routes.target at target
      rw [hx] at target
      exact target
    subst htarget
    obtain ⟨y', hy', htakes'⟩ := accepts.old hx
    cases hy.symm.trans hy'
    obtain ⟨z, hz, htakes⟩ := offers.old old
    obtain ⟨-, y'', hy'', hkept⟩ := hab.carries.kept x z hz
    cases hy.symm.trans hy''
    have hvalues' := phiValues_takes hkept.phis htakes htakes' same' hvalues
    refine .inl ⟨{ values.foldl (fun a e => a.assign e.1 e.2) a with block := x, remaining := behind z.instructions }, ?_, ?_⟩
    · rw [nextBlock_eq, next]
      change enterBlock M a (some a.block) x = _
      rw [enterBlock_eq]
      exact bind_eq_ok.mpr ⟨z, hz, bind_eq_ok.mpr ⟨values, hvalues', rfl⟩⟩
    · have hagrees := hab.agrees.foldl_assign values
      obtain ⟨scalars, hs⟩ := foldl_assign values a
      rw [hs, hs'] at hagrees ⊢
      exact ⟨⟨hab.carries, hab.plain, hagrees.arguments, hagrees.stackPointer, hagrees.receiver, hagrees.scalars⟩,
        rfl, ⟨z, hz⟩, hkept.woven⟩
  | some t' =>
    have htarget : t' = t := by
      unfold Routes.target at target
      rw [hx] at target
      exact target
    subst htarget
    obtain ⟨y', hy', hsupplies⟩ := accepts.new (by rw [hx]; rfl)
    cases hy.symm.trans hy'
    obtain ⟨-, y'', hy'', hadded⟩ := hab.carries.added x t' hx
    cases hy.symm.trans hy''
    have hagrees : Agrees a.body.nextTemp a (values.foldl (fun b e => b.assign e.1 e.2) b) := by
      refine hab.agrees.foldl_assign_right fun z hz => ?_
      have hmem : z.1 ∈ (phis y.instructions).map (·.1) := phiValues_dst hvalues ▸ List.mem_map_of_mem hz
      obtain ⟨e, he, heq⟩ := List.mem_map.mp hmem
      exact heq ▸ hadded.temporary e he
    have hbrought : List.Forall₂ (fun v w => a.value M v = (values.foldl (fun b e => b.assign e.1 e.2) b).value M w) vs
        (r.brings x) := by
      refine forall₂_of_common same'.flip hsupplies fun w _ v w' hvw hww' => ?_
      rw [hvw, ← value_of_supplies hadded.distinct hvalues hww']
      exact (value_congr (a := values.foldl (fun b e => b.assign e.1 e.2) b) (fun _ _ => rfl) image).symm
    refine .inr ⟨t', vs, ?_⟩
    rw [hs'] at hagrees hbrought ⊢
    exact ⟨⟨hab.carries, hab.plain, hagrees.arguments, hagrees.stackPointer, hagrees.receiver, hagrees.scalars⟩,
      ended, old, next, hx, offers, hbrought, hadded.extra, hadded.spares⟩

theorem exists_of_follow {es : List Edge} {x : Nat} (hx : a.follow M es = .ok x) :
    ∃ e ∈ es, e.tail = x ∧ ∀ c ∈ e.condition, ∃ w, a.word M c.value = .ok w ∧ c.isSatisfiedBy w := by
  induction es with
  | nil => cases hx
  | cons e rest ih =>
    unfold follow at hx
    split at hx
    · rename_i hnone
      cases hx
      refine ⟨e, List.mem_cons_self, rfl, fun c hc => ?_⟩
      rw [hnone] at hc
      cases hc
    · rename_i c hc
      obtain ⟨w, hw, hx⟩ := bind_eq_ok.mp hx
      split at hx
      · rename_i hsatisfied
        cases hx
        refine ⟨e, List.mem_cons_self, rfl, fun c' hc' => ?_⟩
        cases hc.symm.trans hc'
        exact ⟨w, hw, hsatisfied⟩
      · obtain ⟨e', he', htail⟩ := ih hx
        exact ⟨e', List.mem_cons_of_mem e he', htail⟩

theorem exists_edge_of_next (wired : a.body.graph.Wired) (filed : a.body.graph.Filed) {x : Nat} (hx : a.next M = .ok x) :
    ∃ e, a.body.graph.edges.get? (a.block, x) = some e ∧
      ∀ c ∈ e.condition, ∃ w, a.word M c.value = .ok w ∧ c.isSatisfiedBy w := by
  obtain ⟨es, hes, hx⟩ := bind_eq_ok.mp hx
  obtain ⟨e, he, rfl, hmet⟩ := exists_of_follow hx
  exact ⟨e, (Graph.mem_edgesOut wired filed hes).mp he, hmet⟩

/-- In a graph whose blocks are left as tests leave them, an edge is taken if its condition is met. -/
theorem next_of_edge (decided : a.body.Decided) (wired : a.body.graph.Wired) (filed : a.body.graph.Filed) {t : Nat}
    {e : Edge} (he : a.body.graph.edges.get? (a.block, t) = some e)
    (met : ∀ c ∈ e.condition, ∃ w, a.word M c.value = .ok w ∧ c.isSatisfiedBy w) : a.next M = .ok t := by
  obtain ⟨es, hes⟩ := wired.exists_edgesOut (wired.ends a.block t (by rw [he]; rfl)).1
  have htail : e.tail = t := (filed _ _ _ he).2
  have hmem : e ∈ es := (Graph.mem_edgesOut wired filed hes).mpr (by rw [← htail] at he; exact he)
  refine bind_eq_ok.mpr ⟨es, hes, ?_⟩
  rcases decided a.block es hes with rfl | ⟨e₁, rfl, hnone⟩ | ⟨e₁, e₂, v, rfl, hconditions⟩
  · cases hmem
  · rw [List.mem_singleton.mp hmem] at htail
    unfold follow
    rw [hnone, htail]
    rfl
  · obtain ⟨c₁, c₂, hc₁, hc₂, hvalue, hopposite⟩ : ∃ c₁ c₂, e₁.condition = some c₁ ∧ e₂.condition = some c₂ ∧
        c₁.value = c₂.value ∧ ∀ w, c₁.isSatisfiedBy w = !c₂.isSatisfiedBy w := by
      rcases hconditions with ⟨hc₁, hc₂⟩ | ⟨hc₁, hc₂⟩
      · exact ⟨_, _, hc₁, hc₂, rfl, fun w => by unfold Condition.isSatisfiedBy; cases w != 0 <;> rfl⟩
      · exact ⟨_, _, hc₁, hc₂, rfl, fun w => by unfold Condition.isSatisfiedBy; cases w != 0 <;> rfl⟩
    unfold follow
    rw [hc₁]
    rcases List.mem_cons.mp hmem with rfl | hmem
    · obtain ⟨w, hw, hsatisfied⟩ := met c₁ hc₁
      refine bind_eq_ok.mpr ⟨w, hw, ?_⟩
      rw [if_pos hsatisfied, htail]
      rfl
    · cases List.mem_singleton.mp hmem
      obtain ⟨w, hw, hsatisfied⟩ := met c₂ hc₂
      refine bind_eq_ok.mpr ⟨w, hvalue ▸ hw, ?_⟩
      rw [hopposite, hsatisfied, if_neg (by decide)]
      unfold follow
      rw [hc₂]
      refine bind_eq_ok.mpr ⟨w, hw, ?_⟩
      rw [if_pos hsatisfied, htail]
      rfl

/-- At the end of a block the second call goes where the first one does, or sets out for there. -/
theorem Together.proceeds (hab : Together h r a b) (image : M.image = N.image) (ended : b.remaining = [])
    (hb' : b.nextBlock N = .ok b') : Proceeds h r M a b' := by
  have hended : a.remaining = [] := by
    have hwoven := hab.woven
    rw [ended] at hwoven
    generalize a.remaining = remaining at hwoven
    cases hwoven
    rfl
  obtain ⟨x₀, hx₀⟩ := hab.known
  have old := (hab.carries.kept a.block x₀ hx₀).1
  rw [nextBlock_eq] at hb'
  obtain ⟨x, hx, hb'⟩ := bind_eq_ok.mp hb'
  obtain ⟨e, hedge, hmet⟩ := exists_edge_of_next hab.carries.orderly.wired hab.carries.orderly.filed hx
  have hway := hab.carries.ways b.block x e hedge
  obtain ⟨vs, hoffers, haccepts⟩ := hway.values
  obtain ⟨e₀, he₀, hcondition⟩ := hway.old (hab.block ▸ old)
  rw [hab.block] at he₀ hoffers
  have hnext : a.next M = .ok (r.target x) := by
    refine next_of_edge hab.plain.decided hab.plain.wired hab.plain.tidy.filed he₀ fun c hc => ?_
    rcases hcondition with hnone | hsame
    · rw [hnone] at hc
      cases hc
    · obtain ⟨w, hw, hsatisfied⟩ := hmet c (hsame ▸ hc)
      exact ⟨w, (hab.agrees.word image ((hab.plain.tidy.edges _ _ _ he₀).2 c hc)).trans hw, hsatisfied⟩
  refine hab.toOverlaid.arrive image hended old hnext rfl hoffers haccepts ?_ hb'
  refine List.forall₂_same.mpr fun v hv => ?_
  exact hab.agrees.value rfl (hab.plain.toClean.avoids_of_offers old hoffers v hv)

/-- On its way the second call goes on to where the first one goes next. -/
theorem Ahead.proceeds {t : Nat} {vs : List Value} (hab : Ahead h r M t vs a b) (image : M.image = N.image)
    (hb' : b.nextBlock N = .ok b') : Proceeds h r M a b' := by
  rw [nextBlock_eq] at hb'
  obtain ⟨x, hx, hb'⟩ := bind_eq_ok.mp hb'
  obtain ⟨e, hedge, hmet⟩ := exists_edge_of_next hab.carries.orderly.wired hab.carries.orderly.filed hx
  have hway := hab.carries.ways b.block x e hedge
  obtain ⟨ws, hoffers, haccepts⟩ := hway.values
  have hbrings := hoffers.new (by rw [hab.toward]; rfl)
  exact hab.toOverlaid.arrive image hab.ended hab.old hab.next (hway.new t hab.toward) hab.offers haccepts
    (hbrings ▸ hab.brought) hb'

end Activation

end RegionGuard

import Mathlib.Algebra.Order.BigOperators.Group.List
import Mathlib.Algebra.Order.Ring.Nat
import RegionGuard.Flow.Dataflow
import RegionGuard.Proofs.Wiring
import RegionGuard.Proofs.Worklists
set_option autoImplicit false

namespace RegionGuard

/-- Two walks over a list that go on alike keep what relates them. -/
theorem foldlM_related {α β γ : Type} {P : β → γ → Prop} {f : β → α → Outcome β} {g : γ → α → Outcome γ} {l : List α}
    (step : ∀ a ∈ l, ∀ b x b' x', P b x → f b a = .ok b' → g x a = .ok x' → P b' x') {b b' : β} {x x' : γ}
    (hP : P b x) (hf : l.foldlM f b = .ok b') (hg : l.foldlM g x = .ok x') : P b' x' := by
  induction l generalizing b x with
  | nil =>
    cases hf
    cases hg
    exact hP
  | cons a rest ih =>
    rw [List.foldlM_cons] at hf hg
    obtain ⟨b₁, hb₁, hf⟩ := bind_eq_ok.mp hf
    obtain ⟨x₁, hx₁, hg⟩ := bind_eq_ok.mp hg
    exact ih (fun a' ha' => step a' (List.mem_cons_of_mem a ha'))
      (step a List.mem_cons_self b x b₁ x₁ hP hb₁ hx₁) hf hg

namespace DataflowProblem

variable {σ : Type} {p : DataflowProblem σ} {c : FlowGraph} {entry : Nat} {reachable : List Nat}
variable {ends ends' : Table Nat σ}

section Visits

variable {credit : σ → Nat}

def room (credit : σ → Nat) (blocks : List Nat) (ends : Table Nat σ) : Nat :=
  (blocks.map fun b => ((ends.get? b).map credit).getD 0).sum

theorem room_le {height : Nat} (hcredit : ∀ s, credit s ≤ height) (blocks : List Nat) (ends : Table Nat σ) :
    room credit blocks ends ≤ blocks.length * height := by
  have := List.sum_le_card_nsmul (blocks.map fun b => ((ends.get? b).map credit).getD 0) height fun n hn => by
    obtain ⟨b, -, rfl⟩ := List.mem_map.mp hn
    cases ends.get? b with
    | none => exact Nat.zero_le _
    | some s => exact hcredit s
  simpa [room] using this

theorem room_insert_lt {blocks : List Nat} {b : Nat} {s t : σ} (hb : b ∈ blocks) (ht : ends.get? b = some t)
    (hlt : credit s < credit t) : room credit blocks (ends.insert b s) < room credit blocks ends := by
  refine List.sum_lt_sum _ _ (fun b' _ => ?_) ⟨b, hb, ?_⟩
  · by_cases heq : b' = b
    · rw [heq, Table.get?_insert_self, ht]
      exact Nat.le_of_lt hlt
    · rw [Table.get?_insert_of_ne _ heq]
  · rw [Table.get?_insert_self, ht]
    exact hlt

theorem length_woken_le (reachable queue : List Nat) {successors : List Nat} (hnodup : successors.Nodup) :
    (successors.filter fun t => reachable.contains t && !queue.contains t).length ≤ reachable.length :=
  List.Nodup.length_le_of_subset (hnodup.filter _) fun t ht => by
    have := (List.mem_filter.mp ht).2
    simp_all

variable [DecidableEq σ]

/-- Visits that spend a credit whenever they change a state come to an end, unless a block fails. -/
theorem iterate_ends (hwired : c.graph.Wired) (hvertex : ∀ b ∈ reachable, (c.graph.vertices.get? b).isSome)
    {I : Table Nat σ → Prop}
    (hstep : ∀ b ∈ reachable, ∀ ends s, I ends → p.ending c entry reachable ends b = .ok s → ends.get? b ≠ some s →
      I (ends.insert b s) ∧ ∃ t, ends.get? b = some t ∧ credit s < credit t)
    {visits : Nat} {queue : List Nat} (hqueue : ∀ b ∈ queue, b ∈ reachable) (hI : I ends)
    (hvisits : queue.length + reachable.length * room credit reachable ends ≤ visits) :
    (∃ ends', I ends' ∧ p.iterate c entry reachable visits queue ends = .ok ends') ∨
      ∃ b ∈ reachable, ∃ ends' e, I ends' ∧ p.ending c entry reachable ends' b = .error e ∧
        p.iterate c entry reachable visits queue ends = .error e := by
  induction visits generalizing queue ends with
  | zero =>
    cases queue with
    | nil => exact .inl ⟨ends, hI, rfl⟩
    | cons block queue =>
      rw [List.length_cons] at hvisits
      omega
  | succ visits ih =>
    cases queue with
    | nil => exact .inl ⟨ends, hI, rfl⟩
    | cons block queue =>
      have hblock := hqueue block List.mem_cons_self
      have hrest : ∀ b ∈ queue, b ∈ reachable := fun b hb => hqueue b (List.mem_cons_of_mem block hb)
      rw [List.length_cons] at hvisits
      cases hs : p.ending c entry reachable ends block with
      | error e =>
        refine .inr ⟨block, hblock, ends, e, hI, hs, ?_⟩
        rw [iterate_cons, hs]
        rfl
      | ok s =>
        rw [iterate_cons, hs]
        change (∃ ends', I ends' ∧ (if ends.get? block = some s then _ else _) = _) ∨
          ∃ b ∈ reachable, ∃ ends' e, I ends' ∧ _ ∧ (if ends.get? block = some s then _ else _) = _
        by_cases hold : ends.get? block = some s
        · rw [if_pos hold]
          exact ih hrest hI (by omega)
        · rw [if_neg hold, show c.successors block = _ from hwired.successors_ok (hvertex block hblock)]
          obtain ⟨hI', t, ht, hlt⟩ := hstep block hblock ends s hI hs hold
          refine ih (fun b hb => ?_) hI' ?_
          · rcases List.mem_append.mp hb with hb | hb
            · exact hrest b hb
            · have := (List.mem_filter.mp hb).2
              simp_all
          · -- A state that has changed pays for all the blocks it wakes.
            have hwoken := length_woken_le reachable queue (Graph.nodup_neighbors c.graph.successors block)
            have hpaid := Nat.mul_le_mul_left reachable.length (room_insert_lt hblock ht hlt)
            rw [Nat.mul_succ] at hpaid
            rw [List.length_append]
            change _ + (List.filter _ (Graph.neighbors c.graph.successors block)).length + _ ≤ _
            omega

omit [DecidableEq σ] in
theorem room_le_visitBound (hcredit : ∀ s, credit s ≤ p.height) (blocks : List Nat) (ends : Table Nat σ) :
    blocks.length + blocks.length * room credit blocks ends ≤ p.visitBound blocks.length := by
  have := Nat.mul_le_mul_left blocks.length (room_le hcredit blocks ends)
  unfold visitBound
  rw [Nat.mul_succ, Nat.mul_assoc]
  omega

/-- More visits come to the same end, unless the first ones ran out. -/
theorem iterate_of_le {visits visits' : Nat} (hle : visits ≤ visits') {queue : List Nat}
    (hends : p.iterate c entry reachable visits queue ends ≠ .error (.fatal .unbounded)) :
    p.iterate c entry reachable visits' queue ends = p.iterate c entry reachable visits queue ends := by
  induction visits generalizing visits' queue ends with
  | zero =>
    cases queue with
    | nil => cases visits' <;> rfl
    | cons block queue => exact absurd rfl hends
  | succ visits ih =>
    obtain ⟨visits', rfl⟩ : ∃ n, visits' = n + 1 := ⟨visits' - 1, by omega⟩
    cases queue with
    | nil => rfl
    | cons block queue =>
      rw [iterate_cons] at hends
      rw [iterate_cons, iterate_cons]
      cases hs : p.ending c entry reachable ends block with
      | error e => rfl
      | ok s =>
        rw [hs] at hends
        change (if _ then _ else _) = (if _ then _ else _)
        change (if _ then _ else _) ≠ _ at hends
        split
        · rename_i hold
          rw [if_pos hold] at hends
          exact ih (Nat.le_of_succ_le_succ hle) hends
        · rename_i hnew
          rw [if_neg hnew] at hends
          cases hsuccessors : c.successors block with
          | error e => rfl
          | ok successors =>
            rw [hsuccessors] at hends
            exact ih (Nat.le_of_succ_le_succ hle) hends

end Visits

/-- Possible states are ordered so that none is above the one first assumed, and nothing that the problem does turns
the order round. A state has a credit that it spends by falling. -/
structure Falls (p : DataflowProblem σ) (c : FlowGraph) (possible : σ → Prop) (below : σ → σ → Prop)
    (credit : σ → Nat) : Prop where
  refl : ∀ s, below s s
  trans : ∀ s t u, below s t → below t u → below s u
  boundary : possible p.boundary
  top : possible p.top
  below_top : ∀ s, possible s → below s p.top
  transfer : ∀ k b, c.block k = .ok b → ∀ i ∈ b.instructions, ∀ s s', possible s →
    p.transfer ⟨b.index, i.index⟩ i s = .ok s' → possible s'
  transfer_below : ∀ k b, c.block k = .ok b → ∀ i ∈ b.instructions, ∀ s t s' t', possible s → possible t → below s t →
    p.transfer ⟨b.index, i.index⟩ i s = .ok s' → p.transfer ⟨b.index, i.index⟩ i t = .ok t' → below s' t'
  join : ∀ s t u, possible s → possible t → p.join s t = .ok u → possible u
  join_below : ∀ s s' t t' u u', possible s → possible s' → possible t → possible t' → below s s' → below t t' →
    p.join s t = .ok u → p.join s' t' = .ok u' → below u u'
  credit_le : ∀ s, credit s ≤ p.height
  credit_lt : ∀ s t, possible s → possible t → below s t → s ≠ t → credit s < credit t

namespace Falls

variable {possible : σ → Prop} {below : σ → σ → Prop} {credit : σ → Nat}

def Under (possible : σ → Prop) (below : σ → σ → Prop) (s t : σ) : Prop := possible s ∧ possible t ∧ below s t

def Sunk (possible : σ → Prop) (below : σ → σ → Prop) (blocks : List Nat) (ends ends' : Table Nat σ) : Prop :=
  ∀ b ∈ blocks, ∃ s t, ends.get? b = some s ∧ ends'.get? b = some t ∧ Under possible below s t

def Assigned (possible : σ → Prop) (blocks : List Nat) (ends : Table Nat σ) : Prop :=
  ∀ b ∈ blocks, ∃ s, ends.get? b = some s ∧ possible s

/-- Every end is the state first assumed, or was made of ends that have only been lowered since. -/
def Descended (p : DataflowProblem σ) (c : FlowGraph) (entry : Nat) (possible : σ → Prop) (below : σ → σ → Prop)
    (reachable : List Nat) (ends : Table Nat σ) : Prop :=
  ∀ b ∈ reachable, ∃ t, ends.get? b = some t ∧ possible t ∧
    (t = p.top ∨ ∃ old, Sunk possible below reachable ends old ∧ p.ending c entry reachable old b = .ok t)

variable (h : p.Falls c possible below credit)

include h

theorem under_of_join {s s' t t' u u' : σ} (hs : Under possible below s s') (ht : Under possible below t t')
    (hu : p.join s t = .ok u) (hu' : p.join s' t' = .ok u') : Under possible below u u' :=
  ⟨h.join s t u hs.1 ht.1 hu, h.join s' t' u' hs.2.1 ht.2.1 hu',
    h.join_below s s' t t' u u' hs.1 hs.2.1 ht.1 ht.2.1 hs.2.2 ht.2.2 hu hu'⟩

theorem under_of_joinEnds {blocks : List Nat} {s? t? : Option σ} (hsunk : Sunk possible below blocks ends ends')
    (hs : p.joinEnds ends blocks = .ok s?) (ht : p.joinEnds ends' blocks = .ok t?) :
    Option.Rel (Under possible below) s? t? := by
  refine foldlM_related (fun b hb s? t? s'? t'? hrel hs' ht' => ?_) .none hs ht
  obtain ⟨s, t, hs, ht, hunder⟩ := hsunk b hb
  change p.joinNext ends s? b = _ at hs'
  change p.joinNext ends' t? b = _ at ht'
  cases hrel with
  | none =>
    rw [joinNext_none hs] at hs'
    rw [joinNext_none ht] at ht'
    cases hs'
    cases ht'
    exact .some hunder
  | some hrel =>
    unfold joinNext at hs' ht'
    rw [hs] at hs'
    rw [ht] at ht'
    obtain ⟨u, hu, hs'⟩ := bind_eq_ok.mp (show (p.join _ s >>= _) = _ from hs')
    obtain ⟨u', hu', ht'⟩ := bind_eq_ok.mp (show (p.join _ t >>= _) = _ from ht')
    cases hs'
    cases ht'
    exact .some (h.under_of_join hrel hunder hu hu')

theorem under_of_entering {b : Nat} {s t : σ} (hsunk : Sunk possible below reachable ends ends')
    (hs : p.entering c entry reachable ends b = .ok s) (ht : p.entering c entry reachable ends' b = .ok t) :
    Under possible below s t := by
  have hboundary : Under possible below p.boundary p.boundary := ⟨h.boundary, h.boundary, h.refl _⟩
  unfold entering at hs ht
  split at hs
  · rename_i hout
    rw [if_pos hout] at ht
    cases hs
    cases ht
    exact hboundary
  · rename_i hin
    rw [if_neg hin] at ht
    obtain ⟨predecessors, hpredecessors, hs⟩ := bind_eq_ok.mp hs
    obtain ⟨_, hpredecessors', ht⟩ := bind_eq_ok.mp ht
    cases hpredecessors.symm.trans hpredecessors'
    obtain ⟨s?, hs?, hs⟩ := bind_eq_ok.mp hs
    obtain ⟨t?, ht?, ht⟩ := bind_eq_ok.mp ht
    have hrel := h.under_of_joinEnds
      (fun b hb => hsunk b (List.contains_iff_mem.mp (List.mem_filter.mp hb).2)) hs? ht?
    cases hs
    cases ht
    cases hrel with
    | none => exact hboundary
    | some hrel => exact hrel

theorem under_of_ending {b : Nat} {s t : σ} (hsunk : Sunk possible below reachable ends ends')
    (hs : p.ending c entry reachable ends b = .ok s) (ht : p.ending c entry reachable ends' b = .ok t) :
    Under possible below s t := by
  obtain ⟨s₀, hs₀, hs⟩ := bind_eq_ok.mp hs
  obtain ⟨t₀, ht₀, ht⟩ := bind_eq_ok.mp ht
  obtain ⟨B, hB, hs⟩ := bind_eq_ok.mp hs
  obtain ⟨_, hB', ht⟩ := bind_eq_ok.mp ht
  cases hB.symm.trans hB'
  refine foldlM_related (fun i hi s t s' t' hunder hs' ht' => ?_) (h.under_of_entering hsunk hs₀ ht₀) hs ht
  exact ⟨h.transfer b B hB i hi s s' hunder.1 hs', h.transfer b B hB i hi t t' hunder.2.1 ht',
    h.transfer_below b B hB i hi s t s' t' hunder.1 hunder.2.1 hunder.2.2 hs' ht'⟩

theorem descended_insert {b : Nat} {s : σ} (hb : b ∈ reachable)
    (hends : Descended p c entry possible below reachable ends) (hs : p.ending c entry reachable ends b = .ok s) :
    (∃ t, ends.get? b = some t ∧ Under possible below s t) ∧
      Descended p c entry possible below reachable (ends.insert b s) := by
  have hrefl : Sunk possible below reachable ends ends := fun b hb => by
    obtain ⟨t, ht, hpossible, -⟩ := hends b hb
    exact ⟨t, t, ht, ht, hpossible, hpossible, h.refl t⟩
  have hpossible : possible s := (h.under_of_ending hrefl hs hs).1
  have hbelow : ∃ t, ends.get? b = some t ∧ Under possible below s t := by
    obtain ⟨t, ht, hpossible', rfl | ⟨old, hsunk, hold⟩⟩ := hends b hb
    · exact ⟨_, ht, hpossible, hpossible', h.below_top s hpossible⟩
    · exact ⟨t, ht, h.under_of_ending hsunk hs hold⟩
  have hdown : Sunk possible below reachable (ends.insert b s) ends := fun b' hb' => by
    by_cases heq : b' = b
    · obtain ⟨t, ht, hunder⟩ := hbelow
      exact ⟨s, t, heq ▸ Table.get?_insert_self .., heq ▸ ht, hunder⟩
    · obtain ⟨t, t', ht, ht', hunder⟩ := hrefl b' hb'
      exact ⟨t, t', (Table.get?_insert_of_ne _ heq _).trans ht, ht', hunder⟩
  refine ⟨hbelow, fun b' hb' => ?_⟩
  by_cases heq : b' = b
  · exact ⟨s, heq ▸ Table.get?_insert_self .., hpossible, .inr ⟨ends, hdown, heq ▸ hs⟩⟩
  · obtain ⟨t, ht, hpossible', hmade⟩ := hends b' hb'
    refine ⟨t, (Table.get?_insert_of_ne _ heq _).trans ht, hpossible', hmade.imp_right ?_⟩
    rintro ⟨old, hsunk, hold⟩
    refine ⟨old, fun b'' hb'' => ?_, hold⟩
    obtain ⟨u, u', hu, hu', hunder⟩ := hdown b'' hb''
    obtain ⟨v, v', hv, hv', hunder'⟩ := hsunk b'' hb''
    cases hu'.symm.trans hv
    exact ⟨u, v', hu, hv', hunder.1, hunder'.2.1, h.trans _ _ _ hunder.2.2 hunder'.2.2⟩

/-- Where states can only fall, the visits that a solution allows for are enough, unless a block fails on possible
states. -/
theorem iterate_ends [DecidableEq σ] (hwired : c.graph.Wired)
    (hvertex : ∀ b ∈ reachable, (c.graph.vertices.get? b).isSome)
    (htop : ∀ b ∈ reachable, ends.get? b = some p.top) :
    (∃ ends', Assigned possible reachable ends' ∧
        p.iterate c entry reachable (p.visitBound reachable.length) reachable ends = .ok ends') ∨
      ∃ b ∈ reachable, ∃ ends' e, Assigned possible reachable ends' ∧ p.ending c entry reachable ends' b = .error e ∧
        p.iterate c entry reachable (p.visitBound reachable.length) reachable ends = .error e := by
  have hstart : Descended p c entry possible below reachable ends := fun b hb => ⟨_, htop b hb, h.top, .inl rfl⟩
  have hassigned : ∀ ends', Descended p c entry possible below reachable ends' → Assigned possible reachable ends' :=
    fun ends' hends b hb => (hends b hb).imp fun _ ht => ⟨ht.1, ht.2.1⟩
  have hstep : ∀ b ∈ reachable, ∀ ends s, Descended p c entry possible below reachable ends →
      p.ending c entry reachable ends b = .ok s → ends.get? b ≠ some s →
        Descended p c entry possible below reachable (ends.insert b s) ∧
          ∃ t, ends.get? b = some t ∧ credit s < credit t := fun b hb ends s hends hs hchanged => by
    obtain ⟨⟨t, ht, hunder⟩, hends'⟩ := h.descended_insert hb hends hs
    exact ⟨hends', t, ht, h.credit_lt s t hunder.1 hunder.2.1 hunder.2.2 fun heq => hchanged (heq ▸ ht)⟩
  rcases DataflowProblem.iterate_ends hwired hvertex hstep (fun b hb => hb) hstart
    (room_le_visitBound h.credit_le reachable ends) with ⟨ends', hends, hok⟩ | ⟨b, hb, ends', e, hends, he, herror⟩
  · exact .inl ⟨ends', hassigned ends' hends, hok⟩
  · exact .inr ⟨b, hb, ends', e, hassigned ends' hends, he, herror⟩

end Falls

end DataflowProblem

end RegionGuard

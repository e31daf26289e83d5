import RegionGuard.Proofs.Comparisons
import RegionGuard.Proofs.LastIterations
set_option autoImplicit false

namespace RegionGuard

open Stateful

namespace Activation

variable {x : Image} {m n : Machine} {a a' b : Activation} {l front mid : List Instruction} {v : Value}

inductive Executes (x : Image) (b : Activation) : List Instruction → Activation → Prop where
  | here : Executes x b [] b
  | next {l rest : List Instruction} {i : Instruction} {m : Machine} {a a' : Activation} (before : Executes x b l a)
    (image : m.image = x) (remaining : a.remaining = i :: rest)
    (performs : Performs m { a with remaining := rest } i.operation a') : Executes x b (l ++ [i]) a'

def Spared (v : Value) (l : List Instruction) : Prop :=
  ∀ y, v = .variable y → ∀ i ∈ l, ∀ u ∈ i.operation.written?, u.name ≠ y.name

namespace Executes

theorem fixed (h : Executes x b l a) : b.remaining = l ++ a.remaining ∧ a.body = b.body ∧ a.block = b.block := by
  induction h with
  | here => exact ⟨rfl, rfl, rfl⟩
  | @next l rest i m a a' _ _ remaining performs ih =>
    obtain ⟨scalars, rfl⟩ := performs.assigns.fixed
    obtain ⟨hremaining, hbody, hblock⟩ := ih
    refine ⟨?_, hbody, hblock⟩
    rw [hremaining, remaining, List.append_assoc]
    rfl

theorem value_eq (h : Executes x b l a) (hv : Spared v l) (n : Machine) : a.value n v = b.value n v := by
  induction h with
  | here => rfl
  | @next l rest i m a a' before _ _ performs ih =>
    rw [← ih fun y hy j hj => hv y hy j (List.mem_append_left _ hj)]
    exact performs.assigns.value_eq (fun y hy => hv y hy i (List.mem_append_right _ (List.mem_singleton_self i))) n

/-- Instructions that compute from their operands alone take a call where their operations take it. -/
theorem computes (h : Executes x b l a) (hl : ∀ i ∈ l, i.operation.computes?.isSome) (hm : m.image = x) :
    Computes m b (l.map (·.operation)) { a with remaining := b.remaining } := by
  induction h with
  | here => exact .done b
  | @next l rest i m' a a' before image remaining performs ih =>
    rw [List.map_append]
    refine (ih fun j hj => hl j (List.mem_append_left _ hj)).append ?_
    obtain ⟨dst, hdst⟩ := Option.isSome_iff_exists.mp (hl i (List.mem_append_right _ (List.mem_singleton_self i)))
    obtain ⟨r, hr, rfl⟩ := performs.computes dst hdst
    refine .next ?_ (.done _)
    rw [← hr]
    exact computed?_congr fun u _ => value_image (hm.trans image.symm) _ u

end Executes

theorem Placed.front_eq (h : a.Placed front) (h' : a.Placed mid) : front = mid := by
  rw [← done_of_placed h, done_of_placed h']

/-- Behind each part of a block that it has run, a call has stood on its journey. -/
theorem course_executes (x : Image) : Course x fun a j => (∃ l, a.Placed l) ∧ ∀ front mid, a.Placed (front ++ mid) →
    (∀ i ∈ mid, i.operation.isPhi = false) →
      ∃ newer b older, a :: j = newer ++ b :: older ∧ newer.length = mid.length ∧ Executes x b mid a where
  starts {m body entry constants w r b} _ _ hb := by
    obtain ⟨l, hl, hphis⟩ := placed_of_enterBlock hb
    refine ⟨⟨l, hl⟩, fun front mid hplaced hmid => ?_⟩
    cases hplaced.front_eq hl
    cases mid with
    | nil => exact ⟨[], b, [], rfl, rfl, .here⟩
    | cons i mid =>
      have hphi := hphis i (List.mem_append_right _ List.mem_cons_self)
      rw [hmid i List.mem_cons_self] at hphi
      cases hphi
  goesOn {m a b j} _ _ _ hb := by
    rw [nextBlock_eq] at hb
    obtain ⟨target, -, hb⟩ := bind_eq_ok.mp hb
    obtain ⟨l, hl, hphis⟩ := placed_of_enterBlock hb
    refine ⟨⟨l, hl⟩, fun front mid hplaced hmid => ?_⟩
    cases hplaced.front_eq hl
    cases mid with
    | nil => exact ⟨[], b, a :: j, rfl, rfl, .here⟩
    | cons i mid =>
      have hphi := hphis i (List.mem_append_right _ List.mem_cons_self)
      rw [hmid i List.mem_cons_self] at hphi
      cases hphi
  performs {m a i rest a' j} image ha hnext hperforms := by
    obtain ⟨⟨l, hl⟩, hwaypoints⟩ := ha
    obtain ⟨scalars, hfixed⟩ := hperforms.assigns.fixed
    have hplaced' : a'.Placed (l ++ [i]) := by
      obtain ⟨b, hb, hinstructions⟩ := hl
      rw [hfixed]
      exact ⟨b, hb, by rw [hinstructions, hnext, List.append_cons]; rfl⟩
    refine ⟨⟨_, hplaced'⟩, fun front mid hplaced hmid => ?_⟩
    rcases List.eq_nil_or_concat mid with rfl | ⟨mid, i', rfl⟩
    · exact ⟨[], a', a :: j, rfl, rfl, .here⟩
    · rw [List.concat_eq_append] at hplaced hmid ⊢
      have hsame := hplaced.front_eq hplaced'
      rw [← List.append_assoc] at hsame
      obtain ⟨rfl, hi⟩ := List.append_inj' hsame rfl
      cases hi
      obtain ⟨newer, b, older, hsplit, hlength, hexecutes⟩ :=
        hwaypoints front mid hl fun k hk => hmid k (List.mem_append_left _ hk)
      refine ⟨a' :: newer, b, older, congrArg (a' :: ·) hsplit, ?_, .next hexecutes image hnext hperforms⟩
      rw [List.length_cons, hlength, List.length_append]
      rfl

/-- Control goes on along an edge whose condition is met, and past the phis of the next block, which change what they
write and no more. -/
theorem edge_of_nextBlock (wired : a.body.graph.Wired) (filed : a.body.graph.Filed) (hnext : a.nextBlock m = .ok a') :
    ∃ y e, a.body.block a'.block = .ok y ∧ a'.body = a.body ∧ a'.remaining = behind y.instructions ∧
      a.body.graph.edges.get? (a.block, a'.block) = some e ∧
      (∀ k ∈ e.condition, ∃ w, a.word m k.value = .ok w ∧ k.isSatisfiedBy w) ∧
      ∀ v, Spared v (leading y.instructions) → ∀ n, a'.value n v = a.value n v := by
  rw [nextBlock_eq] at hnext
  obtain ⟨target, htarget, hnext⟩ := bind_eq_ok.mp hnext
  obtain ⟨e, hedge, hmet⟩ := exists_edge_of_next wired filed htarget
  rw [enterBlock_eq] at hnext
  obtain ⟨y, hy, hnext⟩ := bind_eq_ok.mp hnext
  obtain ⟨values, hvalues, hnext⟩ := bind_eq_ok.mp hnext
  obtain ⟨scalars, hscalars⟩ := foldl_assign values a
  have hget : ∀ name, (∀ z ∈ values, name ≠ z.1.name) → scalars.get? name = a.scalars.get? name := fun name hname => by
    have hfold := get?_foldl_of_ne a hname
    rw [hscalars] at hfold
    exact hfold
  rw [hscalars] at hnext
  cases hnext
  refine ⟨y, e, hy, rfl, rfl, hedge, hmet, fun v hv n => ?_⟩
  refine value_congr (a := a) (fun u hu => hget _ fun z hz hname => ?_) rfl
  obtain ⟨i, hi, hwritten⟩ := mem_phis_fst.mp (phiValues_dst hvalues ▸ List.mem_map_of_mem hz)
  exact hv u hu i hi z.1 hwritten hname.symm

/-- The condition of an edge is met on every machine with an image. -/
def Meets (x : Image) (a : Activation) (e : Edge) : Prop :=
  ∀ k ∈ e.condition, ∃ w, k.isSatisfiedBy w ∧ ∀ m : Machine, m.image = x → a.word m k.value = .ok w

end Activation

namespace FlowGraph

variable {c : FlowGraph} {root : Nat} {inner : Nat → Prop} {exits : Nat → Edge → Prop}

structure Gated (c : FlowGraph) (root : Nat) (inner : Nat → Prop) (exits : Nat → Edge → Prop) : Prop where
  wired : c.graph.Wired
  filed : c.graph.Filed
  starts : c.entry = some root
  outside : ¬ inner root
  enters : ∀ y k e, c.graph.IsReached root y → c.graph.edges.get? (y, k) = some e → inner k → ¬ inner y → exits y e

def SparedIn (c : FlowGraph) (inner : Nat → Prop) (v : Value) : Prop :=
  ∀ k b, inner k → c.block k = .ok b → Activation.Spared v b.instructions

end FlowGraph

/-- A call has come to the end of a block from which control goes on over one of certain edges, and has been in some
blocks only since. -/
def Journey.Enters (x : Image) (c : FlowGraph) (inner : Nat → Prop) (exits : Nat → Edge → Prop) (a : Activation)
    (j : Journey) : Prop :=
  ∃ newer b older e, j = newer ++ b :: older ∧ b.body = c ∧ b.remaining = [] ∧ exits b.block e ∧ b.Meets x e ∧
    ∀ v, c.SparedIn inner v → ∀ n, a.value n v = b.value n v

namespace Activation

variable {x : Image} {c : FlowGraph} {root : Nat} {inner : Nat → Prop} {exits : Nat → Edge → Prop}

theorem course_enters (gated : c.Gated root inner exits) (x : Image) : Course x fun a j => a.body = c →
    c.graph.IsReached root a.block ∧ (∃ l, a.Placed l) ∧ (inner a.block → j.Enters x c inner exits a) where
  starts {m body entry constants w r a} _ hentry ha hbody := by
    obtain ⟨l, hl, -⟩ := placed_of_enterBlock ha
    obtain ⟨y, scalars, -, rfl⟩ := enterBlock_ok ha
    obtain rfl : body = c := hbody
    cases gated.starts.symm.trans hentry
    exact ⟨⟨_, .start⟩, ⟨l, hl⟩, fun hinner => absurd hinner gated.outside⟩
  goesOn {m a b j} image ha hended hnext hbody := by
    have hplaced : ∃ l, b.Placed l := by
      have henters := hnext
      rw [nextBlock_eq] at henters
      obtain ⟨target, -, henters⟩ := bind_eq_ok.mp henters
      obtain ⟨l, hl, -⟩ := placed_of_enterBlock henters
      exact ⟨l, hl⟩
    have hsame : b.body = a.body := by
      rw [nextBlock_eq] at hnext
      obtain ⟨target, -, hnext⟩ := bind_eq_ok.mp hnext
      obtain ⟨y, scalars, -, rfl⟩ := enterBlock_ok hnext
      rfl
    have hbody : a.body = c := hsame.symm.trans hbody
    obtain ⟨hreached, -, henters⟩ := ha hbody
    obtain ⟨y, e, hy, -, -, hedge, hmet, hvalues⟩ := edge_of_nextBlock (hbody ▸ gated.wired) (hbody ▸ gated.filed) hnext
    rw [hbody] at hy hedge
    have hspared : inner b.block → ∀ v, c.SparedIn inner v → ∀ n, b.value n v = a.value n v := fun hinner v hv =>
      hvalues v fun u hu i hi => hv _ y hinner hy u hu i ((List.takeWhile_sublist _).subset hi)
    refine ⟨hreached.follow (by rw [hedge]; rfl), hplaced, fun hinner => ?_⟩
    by_cases hfrom : inner a.block
    · obtain ⟨newer, b₀, older, e₀, hsplit, hrest⟩ := henters hfrom
      obtain ⟨hbody₀, hended₀, hexits, hmeets, hvalues₀⟩ := hrest
      exact ⟨a :: newer, b₀, older, e₀, congrArg (a :: ·) hsplit, hbody₀, hended₀, hexits, hmeets, fun v hv n =>
        (hspared hinner v hv n).trans (hvalues₀ v hv n)⟩
    · refine ⟨[], a, j, e, rfl, hbody, hended, gated.enters _ _ e hreached hedge hinner hfrom, fun k hk => ?_, hspared hinner⟩
      obtain ⟨w, hw, hsatisfied⟩ := hmet k hk
      exact ⟨w, hsatisfied, fun n hn => (word_image (hn.trans image.symm) a k.value).trans hw⟩
  performs {m a i rest a' j} _ ha hnext hperforms hbody := by
    obtain ⟨scalars, hfixed⟩ := hperforms.assigns.fixed
    have hbody' : a.body = c := by
      rw [hfixed] at hbody
      exact hbody
    have hblock : a'.block = a.block := by rw [hfixed]; rfl
    obtain ⟨hreached, ⟨l, y, hy, hinstructions⟩, henters⟩ := ha hbody'
    rw [hblock]
    refine ⟨hreached, ⟨l ++ [i], y, ?_, ?_⟩, fun hinner => ?_⟩
    · rw [hfixed]
      exact hy
    · rw [hinstructions, hnext, List.append_cons, hfixed]
      rfl
    · obtain ⟨newer, b₀, older, e₀, hsplit, hbody₀, hended₀, hexits, hmeets, hvalues₀⟩ := henters hinner
      refine ⟨a :: newer, b₀, older, e₀, congrArg (a :: ·) hsplit, hbody₀, hended₀, hexits, hmeets, fun v hv n => ?_⟩
      rw [← hvalues₀ v hv n]
      refine hperforms.assigns.value_eq (fun u hu => hv _ y hinner (hbody' ▸ hy) u hu i ?_) n
      rw [hinstructions, hnext]
      exact List.mem_append_right _ List.mem_cons_self

end Activation

namespace Processor

variable {t : Task} {function : String} {arguments : List Word} {s s₀ s₁ u : Processor} {steps : Nat} {a b : Activation}
  {callers : List Activation} {j newer older : Journey} {js : List Journey}

/-- Some steps into a run, the innermost call has a state and a journey behind it. -/
structure Travels (t : Task) (function : String) (arguments : List Word) (s₀ : Processor) (steps : Nat) (u : Processor)
    (a : Activation) (j : Journey) : Prop where
  comes : Comes t function arguments s₀ steps u
  innermost : ∃ callers, u.calls = a :: callers
  journey : ∃ js, journeys t steps s₀ [[]] = j :: js

/-- Every state on a journey is one that the innermost call was in, or was on a journey from the start. -/
theorem exists_after_of_mem (h : after t steps s = some u) (hj : j ∈ journeys t steps s js) (hsplit : j = newer ++ b :: older) :
    (∃ j₀ ∈ js, b :: older <:+ j₀) ∨ ∃ k < steps, ∃ v callers rest, after t k s = some v ∧ v.calls = b :: callers ∧
      journeys t k s js = older :: rest := by
  induction steps generalizing s js with
  | zero => exact .inl ⟨j, hj, newer, hsplit.symm⟩
  | succ steps ih =>
    obtain ⟨s₁, hs₁, hafter⟩ := after_succ h
    unfold journeys at hj
    rw [hs₁] at hj
    rcases ih hafter hj with ⟨j₀, hj₀, hsuffix⟩ | ⟨k, hk, v, callers, rest, hv, hcalls, hrest⟩
    · unfold journeyed at hj₀
      split at hj₀
      · rename_i a callers j₁ rest a' callers' hcalls hcalls'
        have here : b :: older <:+ a :: j₁ → (∃ j₀ ∈ j₁ :: rest, b :: older <:+ j₀) ∨ ∃ k < steps + 1, ∃ v callers rest',
            after t k s = some v ∧ v.calls = b :: callers ∧ journeys t k s (j₁ :: rest) = older :: rest' := fun hsuffix => by
          rcases List.suffix_cons_iff.mp hsuffix with heq | hsuffix
          · cases heq
            exact .inr ⟨0, Nat.succ_pos _, s, callers, rest, rfl, hcalls, rfl⟩
          · exact .inl ⟨j₁, List.mem_cons_self, hsuffix⟩
        split at hj₀
        · exact .inl ⟨j₀, List.mem_cons_of_mem _ hj₀, hsuffix⟩
        · split at hj₀
          · rcases List.mem_cons.mp hj₀ with rfl | hj₀
            · exact absurd (List.suffix_nil.mp hsuffix) (List.cons_ne_nil _ _)
            · rcases List.mem_cons.mp hj₀ with rfl | hj₀
              · exact here hsuffix
              · exact .inl ⟨j₀, List.mem_cons_of_mem _ hj₀, hsuffix⟩
          · rcases List.mem_cons.mp hj₀ with rfl | hj₀
            · exact here hsuffix
            · exact .inl ⟨j₀, List.mem_cons_of_mem _ hj₀, hsuffix⟩
      · cases hj₀
    · refine .inr ⟨k + 1, Nat.succ_lt_succ hk, v, callers, rest, ?_, hcalls, ?_⟩
      · unfold after
        rw [hs₁]
        exact hv
      · unfold journeys
        rw [hs₁]
        exact hrest

theorem Comes.image (h : Comes t function arguments s₀ steps u) : u.machine.image = s₀.machine.image := by
  obtain ⟨⟨kind, m, hm, hstart⟩, hafter⟩ := h
  obtain ⟨f, -, henter⟩ := lift_bind_ok.mp hstart
  obtain ⟨body, entry, b, -, hentry, hb, rfl⟩ := enter_ok henter
  have hsound : u.machine.IsSound m.image :=
    after_induction (P := fun s => s.machine.IsSound m.image) (fun _ _ => step_image) (Machine.isSound_of_ofProgram hm) hafter
  exact (Machine.isSound_iff.mp hsound).1

/-- Every state on the journey of the innermost call is one that it was in before. -/
theorem Travels.earlier (h : Travels t function arguments s₀ steps u a j) (hsplit : j = newer ++ b :: older) :
    ∃ k < steps, ∃ v, Travels t function arguments s₀ k v b older ∧ v.machine.image = u.machine.image := by
  obtain ⟨js, hjs⟩ := h.journey
  rcases exists_after_of_mem h.comes.after (hjs ▸ List.mem_cons_self) hsplit with
    ⟨j₀, hj₀, hsuffix⟩ | ⟨k, hk, v, callers, rest, hv, hcalls, hrest⟩
  · rw [List.mem_singleton.mp hj₀] at hsuffix
    exact absurd (List.suffix_nil.mp hsuffix) (List.cons_ne_nil _ _)
  · have hcomes : Comes t function arguments s₀ k v := ⟨h.comes.started, hv⟩
    exact ⟨k, hk, v, ⟨hcomes, ⟨callers, hcalls⟩, rest, hrest⟩, hcomes.image.trans h.comes.image.symm⟩

theorem Travels.upholds (h : Travels t function arguments s₀ steps u a j) {P : Activation → Journey → Prop}
    (course : Activation.Course u.machine.image P) : P a j := by
  obtain ⟨callers, hcalls⟩ := h.innermost
  obtain ⟨js, hjs⟩ := h.journey
  obtain ⟨j', rest, hj', ha, -⟩ := h.comes.upholds course a callers hcalls
  cases hjs.symm.trans hj'
  exact ha

/-- Behind each part of its block that it has run, the innermost call has stood before. -/
theorem Travels.waypoint (h : Travels t function arguments s₀ steps u a j) {front mid : List Instruction}
    (hplaced : a.Placed (front ++ mid)) (hmid : ∀ i ∈ mid, i.operation.isPhi = false) :
    ∃ newer b older k v, a :: j = newer ++ b :: older ∧ k ≤ steps ∧ Travels t function arguments s₀ k v b older ∧
      v.machine.image = u.machine.image ∧ b.Placed front ∧ b.Executes u.machine.image mid a := by
  obtain ⟨-, hwaypoints⟩ := h.upholds (Activation.course_executes u.machine.image)
  obtain ⟨newer, b, older, hsplit, -, hexecutes⟩ := hwaypoints front mid hplaced hmid
  obtain ⟨hremaining, hbody, hblock⟩ := hexecutes.fixed
  have hfront : b.Placed front := by
    obtain ⟨y, hy, hinstructions⟩ := hplaced
    refine ⟨y, hbody ▸ hblock ▸ hy, ?_⟩
    rw [hinstructions, hremaining, List.append_assoc]
  cases newer with
  | nil =>
    cases hsplit
    exact ⟨[], a, j, steps, u, rfl, Nat.le_refl _, h, rfl, hfront, hexecutes⟩
  | cons a' newer =>
    cases hsplit
    obtain ⟨k, hk, v, htravels, himage⟩ := h.earlier rfl
    exact ⟨a :: newer, b, older, k, v, rfl, Nat.le_of_lt hk, htravels, himage, hfront, hexecutes⟩

end Processor

end RegionGuard

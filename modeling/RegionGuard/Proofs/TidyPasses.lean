import RegionGuard.Proofs.Instrumented
import RegionGuard.Proofs.Tidiness
set_option autoImplicit false

namespace RegionGuard

open FlowGraph Edit

theorem Block.mem_modify {b b' : Block} {index : Nat} {f : Instruction → Instruction}
    (h : b.modify index f = .ok b') {i : Instruction} (hi : i ∈ b'.instructions) :
    i ∈ b.instructions ∨ ∃ j ∈ b.instructions, i = f j := by
  obtain ⟨position, -, h⟩ := bind_eq_ok.mp h
  cases h
  obtain ⟨n, hn, rfl⟩ := List.mem_iff_getElem.mp hi
  simp only [List.length_modify] at hn
  simp only [List.getElem_modify]
  split
  · exact .inr ⟨_, List.getElem_mem hn, rfl⟩
  · exact .inl (List.getElem_mem hn)

theorem Block.mem_inject {b b' : Block} {position : Nat} {tags : List (String × String)}
    {operations : List Operation} (h : b.inject position tags operations = .ok b') {i : Instruction}
    (hi : i ∈ b'.instructions) : i ∈ b.instructions ∨ i.operation ∈ operations := by
  rw [Block.inject_ok h] at hi
  rcases List.mem_append.mp hi with hi | hi
  · exact .inl (List.mem_of_mem_take hi)
  · rcases List.mem_append.mp hi with hi | hi
    · right
      rw [← Instruction.drafted_operations tags b.nextIndex operations]
      exact List.mem_map_of_mem hi
    · exact .inl (List.mem_of_mem_drop hi)

section Steps

variable {c c' : FlowGraph} {temps blocks : Nat}

theorem keeps_tidy_inject (k : Nat) (position : Block → Nat) (tags : List (String × String))
    {operations : List Operation} (h : ∀ o ∈ operations, o.Within temps blocks) :
    Keeps (TidyFrom temps blocks) (step (·.modifyBlock k fun b => b.inject (position b) tags operations)) := by
  refine Keeps.step fun c c' hc hmodify => tidyFrom_of_modifyBlock hc (fun b b' hb hb' i hi => ?_) hmodify
  rcases Block.mem_inject hb' hi with hi | hi
  · exact .inl hi
  · exact .inr ((h _ hi).mono hc.temps hc.blocks)

end Steps

namespace Preheader

variable {temps blocks : Nat}

theorem keeps_tidy_redirect (head oldTail newTail : Nat) :
    Keeps (TidyFrom temps blocks) (redirect head oldTail newTail) := by
  refine Keeps.step fun c c' hc h => ?_
  unfold redirectEdge at h
  cases hr : c.graph.removeEdge head oldTail with
  | error e =>
    rw [hr] at h
    cases h
  | ok removed =>
    rw [hr] at h
    simp only at h
    split at h
    · cases h
    · rename_i g' hg'
      cases h
      refine tidyFrom_of_insertEdge (c := { c with graph := removed.2 }) (tidyFrom_of_removeEdge hc hr) ?_ hg'
      exact (hc.tidy.edges _ _ _ (Graph.removeEdge_ok hr).1).2

theorem keeps_tidy_insertEdge (head tail : Nat) :
    Keeps (TidyFrom temps blocks) (step (·.insertEdge head tail none)) := by
  refine Keeps.step fun c c' hc h => ?_
  obtain ⟨hg, hfields⟩ := insertEdge_ok h
  rw [hfields]
  exact tidyFrom_of_insertEdge hc (fun _ hx => (by cases hx)) hg

theorem tidy_merge {c c' : FlowGraph} {preheader : Nat} {dst : Variable} {arriving : List (Value × Nat)}
    {v : Value} (hc : c.TidyFrom temps blocks)
    (harriving : ∀ e ∈ arriving, e.1.Avoids temps ∧ e.2 < blocks)
    (h : (merge preheader dst arriving).run c = .ok (v, c')) :
    c'.TidyFrom temps blocks ∧ v.Avoids c'.nextTemp := by
  unfold merge at h
  split at h
  · rename_i common hcommon
    obtain ⟨rfl, rfl⟩ := pure_ok.mp h
    refine ⟨hc, ?_⟩
    unfold agree at hcommon
    split at hcommon
    · cases hcommon
    · rename_i first rest
      split at hcommon
      · cases hcommon
        exact (harriving _ List.mem_cons_self).1.mono hc.temps
      · cases hcommon
  · obtain ⟨temp, c₁, htemp, hrest⟩ := Edit.bind_ok.mp h
    obtain ⟨_, c₂, hinsert, hvalue⟩ := Edit.bind_ok.mp hrest
    obtain ⟨rfl, rfl⟩ := pure_ok.mp hvalue
    obtain ⟨hc₁, havoids⟩ := tidyFrom_of_temp hc (eval_ok.mp htemp)
    have hphi : (Operation.phi temp arriving).Within c₁.nextTemp c₁.nextBlock := by
      refine ⟨⟨?_, ?_⟩, ?_⟩
      · rintro _ ⟨⟩
        exact havoids temp rfl
      · intro w hw
        obtain ⟨e, he, rfl⟩ := List.mem_map.mp hw
        exact (harriving e he).1.mono hc₁.temps
      · rintro _ _ ⟨⟩ e he
        exact Nat.lt_of_lt_of_le (harriving e he).2 hc₁.blocks
    have hstep := Edit.step_ok.mp hinsert
    refine ⟨tidyFrom_of_modifyBlock hc₁ (fun b b' _ hb' i hi => ?_) hstep, ?_⟩
    · rw [Block.insertOperation_eq_inject] at hb'
      rcases Block.mem_inject hb' hi with hi | hi
      · exact .inl hi
      · rw [List.mem_singleton.mp hi]
        exact .inr hphi
    · obtain ⟨b, b', -, -, rfl⟩ := modifyBlock_ok hstep
      exact havoids

theorem keeps_tidy_reroute {header preheader : Nat} {outside : List Nat} {i : Instruction}
    (hi : i.operation.Within temps blocks) (hpreheader : preheader < blocks) :
    Keeps (TidyFrom temps blocks) (reroute header preheader outside i) := by
  unfold reroute
  split
  · rename_i dst incoming ho
    have hincoming : ∀ e ∈ incoming, e.1.Avoids temps ∧ e.2 < blocks := by
      intro e he
      refine ⟨hi.avoids.reads _ ?_, hi.known dst incoming ho e he⟩
      rw [ho]
      exact List.mem_map_of_mem he
    simp only
    split
    · exact Keeps.answer _
    · intro c u c' hc h
      obtain ⟨merged, c₁, hmerge, hset⟩ := Edit.bind_ok.mp h
      rw [List.partition_eq_filter_filter] at hmerge hset
      obtain ⟨hc₁, havoids⟩ := tidy_merge hc (fun e he => hincoming e (List.mem_of_mem_filter he)) hmerge
      refine tidyFrom_of_modifyBlock hc₁ (fun b b' hb hb' j hj => ?_) (Edit.step_ok.mp hset)
      rcases Block.mem_modify hb' hj with hj | ⟨x, hx, rfl⟩
      · exact .inl hj
      · right
        have hx' := hc₁.tidy.code _ b (block_eq_ok.mp hb) x hx
        unfold setIncoming
        split
        · rename_i dst' incoming' ho'
          have hall : ∀ e ∈ incoming.filter (not ∘ fun e => outside.contains e.2) ++ [(merged, preheader)],
              e.1.Avoids c₁.nextTemp ∧ e.2 < c₁.nextBlock := by
            intro e he
            rcases List.mem_append.mp he with he | he
            · obtain ⟨hv, hk⟩ := hincoming e (List.mem_of_mem_filter he)
              exact ⟨hv.mono hc₁.temps, Nat.lt_of_lt_of_le hk hc₁.blocks⟩
            · cases List.mem_singleton.mp he
              exact ⟨havoids, Nat.lt_of_lt_of_le hpreheader hc₁.blocks⟩
          refine ⟨⟨?_, ?_⟩, ?_⟩
          · rintro _ ⟨⟩
            apply hx'.avoids.written
            rw [ho']
            rfl
          · intro w hw
            obtain ⟨e, he, rfl⟩ := List.mem_map.mp hw
            exact (hall e he).1
          · rintro _ _ ⟨⟩ e he
            exact (hall e he).2
        · exact hx'
  · exact Keeps.answer _

theorem keeps_tidy_insert (header : Nat) (outside : List Nat) : Keeps Tidy (insert header outside) := by
  intro c u c' hc h
  obtain ⟨preheader, c₁, hnew, hrest⟩ := Edit.bind_ok.mp h
  have hc₁ := tidyFrom_of_newBlock (tidyFrom_zero.mpr hc) (eval_ok.mp hnew)
  obtain ⟨_, c₂, hredirect, hrest₂⟩ := Edit.bind_ok.mp hrest
  have hc₂ := Keeps.forIn (fun head _ => keeps_tidy_redirect head header preheader) _ _ _ hc₁ hredirect
  obtain ⟨_, c₃, hedge, hrest₃⟩ := Edit.bind_ok.mp hrest₂
  have hc₃ := keeps_tidy_insertEdge _ _ _ _ _ hc₂ hedge
  obtain ⟨b, c₄, hask, hrest₄⟩ := Edit.bind_ok.mp hrest₃
  obtain ⟨hb, hsame⟩ := ask_ok.mp hask
  rw [hsame] at hrest₄
  obtain ⟨_, c₅, hreroute, hlast⟩ := Edit.bind_ok.mp hrest₄
  obtain ⟨-, rfl⟩ := pure_ok.mp hlast
  have hcode := hc₃.tidy.code _ b (block_eq_ok.mp hb)
  exact (Keeps.forIn (fun i hi => keeps_tidy_reroute (hcode i hi) hc₃.blocks) _ _ _
    ⟨hc₃.tidy, Nat.le_refl _, Nat.le_refl _⟩ hreroute).tidy

theorem keeps_tidy_simplify : Keeps Tidy simplify := keeps_simplify_of keeps_tidy_insert

end Preheader

namespace Drafting

variable {α β : Type}

/-- Code that mentions no temporary from a number on, and has no phi. -/
def Plain (temps : Nat) (operations : List Operation) : Prop :=
  ∀ o ∈ operations, o.Avoids temps ∧ o.isPhi = false

/-- From temporary `n` on a computation takes temporaries only; it adds plain code, and its answer is one
that `A` allows. -/
def Yields (n : Nat) (x : Drafting α) (A : Nat → α → Prop) : Prop :=
  ∀ before c a after c', n ≤ c.nextTemp → Plain c.nextTemp before →
    (x.run before).run c = .ok ((a, after), c') →
      (∃ next, c.nextTemp ≤ next ∧ c' = c.withTemps next) ∧ Plain c'.nextTemp after ∧ A c'.nextTemp a

namespace Yields

variable {n : Nat} {A : Nat → α → Prop} {B : Nat → β → Prop}

theorem bind {x : Drafting α} {f : α → Drafting β} (hx : Yields n x A)
    (hf : ∀ a k, n ≤ k → A k a → Yields k (f a) B) : Yields n (x >>= f) B := by
  intro before c b after c' hn hbefore h
  obtain ⟨a, middle, c₁, h₁, h₂⟩ := Drafting.bind_ok.mp h
  obtain ⟨⟨next, hnext, rfl⟩, hmiddle, ha⟩ := hx before c a middle c₁ hn hbefore h₁
  obtain ⟨⟨next', hnext', rfl⟩, hafter, hb⟩ :=
    hf a next (Nat.le_trans hn hnext) ha middle _ b after c' (Nat.le_refl _) hmiddle h₂
  exact ⟨⟨next', Nat.le_trans hnext hnext', rfl⟩, hafter, hb⟩

theorem answer {a : α} (ha : ∀ k, n ≤ k → A k a) : Yields n (pure a : Drafting α) A := by
  intro before c b after c' hn hbefore h
  cases h
  exact ⟨⟨c.nextTemp, Nat.le_refl _, rfl⟩, hbefore, ha _ hn⟩

theorem fail (f : Failure) : Yields n (throw f : Drafting α) A := by
  intro before c a after c' _ _ h
  cases h

theorem perform {o : Operation} (ho : o.Avoids n) (hphi : o.isPhi = false) :
    Yields n (perform o) fun _ _ => True := by
  intro before c a after c' hn hbefore h
  cases h
  refine ⟨⟨c.nextTemp, Nat.le_refl _, rfl⟩, fun o' ho' => ?_, trivial⟩
  rcases List.mem_append.mp ho' with ho' | ho'
  · exact hbefore o' ho'
  · rw [List.mem_singleton.mp ho']
    exact ⟨ho.mono hn, hphi⟩

theorem convert {ty : Ty} {kind : CastKind} {v : Value} (hv : v.Avoids n) :
    Yields n (compute ty (.cast · kind v)) fun k v => v.Avoids k := by
  intro before c a after c' hn hbefore h
  obtain ⟨rfl, rfl, rfl⟩ := Drafting.compute_ok h
  have hnew : (Value.variable (.temporary c.nextTemp ty)).Avoids (c.nextTemp + 1) :=
    Value.avoids_temporary ty (Nat.lt_succ_self _)
  refine ⟨⟨_, Nat.le_succ _, rfl⟩, fun o ho => ?_, hnew⟩
  rcases List.mem_append.mp ho with ho | ho
  · exact ⟨(hbefore o ho).1.mono (Nat.le_succ _), (hbefore o ho).2⟩
  · rw [List.mem_singleton.mp ho]
    refine ⟨⟨?_, ?_⟩, rfl⟩
    · rintro _ ⟨⟩
      exact hnew _ rfl
    · intro w hw
      rw [List.mem_singleton.mp hw]
      exact hv.mono (Nat.le_succ_of_le hn)

theorem collect_ok {x : Drafting α} (hx : Yields n x A) {c c' : FlowGraph} {a : α}
    {operations : List Operation} (hn : n ≤ c.nextTemp) (h : x.collect.run c = .ok ((a, operations), c')) :
    (∃ next, c.nextTemp ≤ next ∧ c' = c.withTemps next) ∧ Plain c'.nextTemp operations := by
  obtain ⟨hnext, hplain, -⟩ := hx [] c a operations c' hn (fun o ho => (List.not_mem_nil ho).elim) h
  exact ⟨hnext, hplain⟩

end Yields

end Drafting

namespace ReportSite

open Drafting

def Avoids (n : Nat) : ReportSite → Prop
  | .allocation _ dst arguments => (Value.variable dst).Avoids n ∧ ∀ v ∈ arguments, v.Avoids n
  | .free pointer => pointer.Avoids n
  | .escape destination => destination.Avoids n

variable {n : Nat}

theorem yields_argument (l : Location) {arguments : List Value} (h : ∀ v ∈ arguments, v.Avoids n)
    (index : Nat) : Yields n (argument l arguments index) fun k v => v.Avoids k := by
  unfold argument
  cases ha : arguments[index]? with
  | none => exact Yields.fail _
  | some v => exact Yields.answer fun _ hk => (h v (List.mem_of_getElem? ha)).mono hk

theorem yields_widen {v : Value} (hv : v.Avoids n) : Yields n (widen v) fun k v => v.Avoids k := by
  unfold widen
  split
  · refine Yields.answer fun k _ => ?_
    rintro _ ⟨⟩
  · split
    · exact Yields.convert hv
    · split
      · exact Yields.convert hv
      · exact Yields.answer fun _ hk => hv.mono hk
  · exact Yields.answer fun _ hk => hv.mono hk

theorem yields_operations (h : Hooks) (l : Location) {s : ReportSite} (hs : s.Avoids n) :
    Yields n (s.operations h l) fun _ _ => True := by
  have two : ∀ {k : Nat} {v w : Value} {name : String}, v.Avoids k → w.Avoids k →
      Yields k (perform (.notify name [v, w])) fun _ _ => True := by
    intro k v w name hv hw
    exact Yields.perform (Operation.avoids_notify (by simp [hv, hw])) rfl
  have three : ∀ {k : Nat} {u v w : Value} {name : String}, u.Avoids k → v.Avoids k → w.Avoids k →
      Yields k (perform (.notify name [u, v, w])) fun _ _ => True := by
    intro k u v w name hu hv hw
    exact Yields.perform (Operation.avoids_notify (by simp [hu, hv, hw])) rfl
  cases s with
  | allocation kind dst arguments =>
    obtain ⟨hdst, harguments⟩ := hs
    have arg : ∀ {k : Nat}, n ≤ k → ∀ index, Yields k (argument l arguments index) fun k v => v.Avoids k :=
      fun hk => yields_argument l fun v hv => (harguments v hv).mono hk
    cases kind with
    | malloc =>
      refine (arg (Nat.le_refl _) 0).bind fun v k hk hv => (yields_widen hv).bind fun size k' hk' hsize => ?_
      exact two (hdst.mono (by omega)) hsize
    | calloc =>
      refine (arg (Nat.le_refl _) 0).bind fun v k hk hv => (yields_widen hv).bind fun count k₁ hk₁ hcount => ?_
      refine (arg (by omega) 1).bind fun w k₂ hk₂ hw => (yields_widen hw).bind fun size k₃ hk₃ hsize => ?_
      exact three (hdst.mono (by omega)) hsize (hcount.mono (by omega))
    | realloc =>
      refine (arg (Nat.le_refl _) 0).bind fun old k hk hold => ?_
      refine (arg hk 1).bind fun w k₁ hk₁ hw => (yields_widen hw).bind fun size k₂ hk₂ hsize => ?_
      exact three (hdst.mono (by omega)) hsize (hold.mono (by omega))
  | free pointer => exact Yields.perform (Operation.avoids_notify (List.forall_mem_singleton.mpr hs)) rfl
  | escape destination => exact Yields.perform (Operation.avoids_notify (List.forall_mem_singleton.mpr hs)) rfl

theorem keeps_tidy_report (h : Hooks) (l : Location) {s : ReportSite} (hs : s.Avoids n) :
    Keeps (TidyFrom n 0) (s.report h l) := by
  intro c u c' hc hrun
  obtain ⟨⟨_, operations⟩, c₁, hcollect, hrest⟩ := Edit.bind_ok.mp hrun
  obtain ⟨position, c₂, hask, hmodify⟩ := Edit.bind_ok.mp hrest
  obtain ⟨-, hsame⟩ := ask_ok.mp hask
  rw [hsame] at hmodify
  obtain ⟨⟨next, hnext, rfl⟩, hplain⟩ := (yields_operations h l hs).collect_ok hc.temps hcollect
  have hc₁ : (c.withTemps next).TidyFrom n 0 :=
    ⟨tidy_withTemps hc.tidy hnext, Nat.le_trans hc.temps hnext, Nat.zero_le _⟩
  refine tidyFrom_of_modifyBlock hc₁ (fun b b' hb hb' i hi => ?_) (Edit.step_ok.mp hmodify)
  obtain ⟨injected, hinjected, hb'⟩ := bind_eq_ok.mp hb'
  have hall : ∀ j ∈ injected.instructions, j.operation.Within (c.withTemps next).nextTemp
      (c.withTemps next).nextBlock := by
    intro j hj
    rcases Block.mem_inject hinjected hj with hj | hj
    · exact hc₁.tidy.code _ b (block_eq_ok.mp hb) j hj
    · exact Operation.within_of_notPhi (hplain _ hj).1 (hplain _ hj).2
  rcases Block.mem_modify hb' hi with hi | ⟨j, hj, rfl⟩
  · exact .inr (hall i hi)
  · exact .inr (hall j hj)

/-- What a tidy function reports mentions no temporary that it has yet to give out. -/
theorem avoids_of_mem {c : Configuration} {f : Function} {body : FlowGraph} (hbody : f.body = some body)
    (tidy : body.Tidy) {l : Location} {s : ReportSite} (hs : (l, s) ∈ ofFunction c f) :
    s.Avoids body.nextTemp := by
  obtain ⟨⟨l', i⟩, hi, hs⟩ := List.mem_filterMap.mp hs
  obtain ⟨s', hs', hpair⟩ := Option.map_eq_some_iff.mp hs
  cases hpair
  have havoids : i.operation.Avoids body.nextTemp := by
    unfold Function.located Function.blocks at hi
    rw [hbody] at hi
    obtain ⟨b, hb, hi⟩ := List.mem_flatMap.mp hi
    obtain ⟨j, hj, hpair⟩ := List.mem_map.mp hi
    cases hpair
    obtain ⟨k, hk⟩ := Table.mem_values_iff.mp hb
    exact (tidy.code k b hk _ hj).avoids
  simp only [ofInstruction] at hs'
  split at hs'
  · cases hs'
  · split at hs'
    · rename_i dst callee arguments ho
      rw [ho] at havoids
      unfold ofCall at hs'
      split at hs'
      · split at hs'
        · obtain ⟨dst', rfl, rfl⟩ := Option.map_eq_some_iff.mp hs'
          refine ⟨?_, havoids.reads⟩
          rintro _ ⟨⟩
          exact havoids.written _ rfl
        · cases hs'
      · split at hs'
        · obtain ⟨pointer, hpointer, rfl⟩ := Option.map_eq_some_iff.mp hs'
          exact havoids.reads _ (List.mem_of_mem_head? hpointer)
        · cases hs'
    · rename_i pointer value ho
      rw [ho] at havoids
      split at hs'
      · cases hs'
        exact havoids.reads _ List.mem_cons_self
      · cases hs'
    · cases hs'

end ReportSite

namespace Program

open Stateful

variable {p q : Program} {c : Configuration}

def Tidy (p : Program) : Prop := ∀ name f, p.function? name = some f → ∀ body ∈ f.body, body.Tidy

def AllBodies (P : FlowGraph → Prop) (p : Program) : Prop := ∀ name f, p.function? name = some f → ∀ body ∈ f.body, P body

section Bodies

variable {P Q : FlowGraph → Prop}

theorem allBodies_of_editFunctions {α : Type} {f : Function → Outcome (α × Function)} {answers : List α}
    (hf : ∀ g a g', (∀ body ∈ g.body, P body) → f g = .ok (a, g') → ∀ body ∈ g'.body, Q body)
    (hp : p.AllBodies P) (h : p.editFunctions f = .ok (answers, q)) : q.AllBodies Q := by
  intro name g' hg'
  obtain ⟨hnone, hsome⟩ := (editFunctions_ok h).2 name
  cases hg : p.function? name with
  | none =>
    rw [hnone hg] at hg'
    cases hg'
  | some g =>
    obtain ⟨a, k, hk, hq⟩ := hsome g hg
    rw [hg'] at hq
    cases hq
    exact hf g a g' (hp name g hg) hk

theorem AllBodies.setFunction {name : String} {f : Function} (hp : p.AllBodies P) (hf : ∀ body ∈ f.body, P body) :
    (p.setFunction name f).AllBodies P := by
  intro name' g hg
  unfold function? Program.setFunction at hg
  rw [Table.get?_insert] at hg
  split at hg
  · cases hg
    exact hf
  · exact hp name' g hg

theorem AllBodies.declareHooks (hp : p.AllBodies P) (h : Hooks) : (p.declareHooks h).AllBodies P :=
  declareHooks_induction hp fun _ _ _ hp _ => hp.setFunction (by rintro _ ⟨⟩)

theorem AllBodies.simplifyLoops {count : Nat} (hsimplify : Keeps P Preheader.simplify) (hp : p.AllBodies P)
    (h : p.simplifyLoops c = .ok (count, q)) : q.AllBodies P := by
  obtain ⟨⟨counts, q'⟩, hedit, h⟩ := bind_eq_ok.mp h
  cases h
  refine allBodies_of_editFunctions (fun g a g' hg hg' => ?_) hp hedit
  split at hg'
  · obtain ⟨body, body', hbody, hrun, rfl⟩ := Function.edit_ok hg'
    rintro _ ⟨⟩
    exact hsimplify _ _ _ (hg body hbody) hrun
  · cases hg'
    exact hg

theorem AllBodies.registerGlobals {log log' : List LogEntry} {count : Nat}
    (hregister : ∀ globals, Keeps P (registerIn c.hooks globals)) (hp : p.AllBodies P)
    (h : (p.registerGlobals c).runFrom log = (.ok (count, q), log')) : q.AllBodies P := by
  obtain ⟨globals, -, ⟨-, -, rfl⟩ | ⟨-, f, f', hf, hf', rfl⟩⟩ := registerGlobals_ok h
  · exact hp
  · obtain ⟨body, body', hbody, hrun, rfl⟩ := Function.edit_ok hf'
    apply hp.setFunction
    rintro _ ⟨⟩
    exact hregister _ _ _ _ (hp _ f hf body hbody) hrun

theorem AllBodies.reportAllocations {log log' : List LogEntry} {report : AllocationReport}
    (hreport : ∀ (f : Function) body a f', f.body = some body → P body → f.reportAllocations c = .ok (a, f') →
      ∀ body' ∈ f'.body, Q body')
    (hskip : ∀ body, P body → Q body) (hregister : ∀ globals, Keeps Q (registerIn c.hooks globals))
    (hp : p.AllBodies P) (h : (p.reportAllocations c).runFrom log = (.ok (report, q), log')) : q.AllBodies Q := by
  obtain ⟨reports, p', hedit, hrest⟩ := reportAllocations_ok h
  have hp' : p'.AllBodies Q := by
    refine allBodies_of_editFunctions (fun g a g' hg hg' => ?_) (hp.declareHooks c.hooks) hedit
    split at hg'
    · obtain ⟨body, -, hbody, -, -⟩ := Function.edit_ok hg'
      exact hreport g body a g' hbody (hg body hbody) hg'
    · cases hg'
      exact fun body hbody => hskip body (hg body hbody)
  rcases hrest with ⟨-, count, hglobals, -⟩ | ⟨-, rfl, -⟩
  · exact hp'.registerGlobals hregister hglobals
  · exact hp'

theorem AllBodies.prepare {log log' : List LogEntry} (hsimplify : Keeps P Preheader.simplify)
    (hreport : ∀ (f : Function) body a f', f.body = some body → P body → f.reportAllocations c = .ok (a, f') →
      ∀ body' ∈ f'.body, Q body')
    (hskip : ∀ body, P body → Q body) (hregister : ∀ globals, Keeps Q (registerIn c.hooks globals))
    (hp : p.AllBodies P) (h : (p.prepare c).runFrom log = (.ok q, log')) : q.AllBodies Q := by
  obtain ⟨-, h⟩ := guarded_bind_ok.mp h
  obtain ⟨⟨preheaders, p₁⟩, hsimplified, h⟩ := lift_bind_ok.mp h
  obtain ⟨⟨allocation, p₂⟩, log₁, hreported, h⟩ := runFrom_bind_ok.mp h
  simp only [runFrom_pure, Prod.mk.injEq, Except.ok.injEq] at h
  obtain ⟨rfl, -⟩ := h
  have hp₁ := (hp.declareHooks c.hooks).simplifyLoops hsimplify hsimplified
  exact (hp₁.reportAllocations hreport hskip hregister hreported).declareHooks c.hooks

end Bodies

theorem tidy_of_declareHooks (hp : p.Tidy) (h : Hooks) : (p.declareHooks h).Tidy := AllBodies.declareHooks hp h

theorem keeps_tidy_registerIn (h : Hooks) (globals : List (String × Word)) :
    Keeps FlowGraph.Tidy (registerIn h globals) := by
  refine (Keeps.ask _).bind fun entry => (Keeps.ask _).bind fun b => ?_
  split
  · exact Keeps.answer _
  · refine Keeps.bind ?_ fun _ => Keeps.answer _
    intro c u c' hc hrun
    refine (keeps_tidy_inject _ _ _ (fun o ho => ?_) _ _ _ (tidyFrom_zero.mpr hc) hrun).tidy
    obtain ⟨id, hid, rfl⟩ := List.mem_mapIdx.mp ho
    refine Operation.within_of_notPhi (Operation.avoids_notify fun v hv => ?_) rfl
    simp only [List.mem_cons, List.not_mem_nil, or_false] at hv
    rcases hv with rfl | rfl | rfl <;> rintro _ ⟨⟩

theorem tidy_of_prepare {log log' : List LogEntry} (hp : p.Tidy)
    (h : (p.prepare c).runFrom log = (.ok q, log')) : q.Tidy := by
  refine AllBodies.prepare Preheader.keeps_tidy_simplify (fun f body a f' hbody tidy hf' => ?_) (fun _ tidy => tidy)
    (fun globals => keeps_tidy_registerIn c.hooks globals) hp h
  obtain ⟨body₀, body', hbody₀, hrun, rfl⟩ := Function.edit_ok hf'
  cases hbody.symm.trans hbody₀
  rintro _ ⟨⟩
  have keeps : ∀ s ∈ ReportSite.ofFunction c f,
      Keeps (TidyFrom body.nextTemp 0) (s.2.report c.hooks s.1) := fun s hs =>
    ReportSite.keeps_tidy_report c.hooks s.1 (ReportSite.avoids_of_mem hbody tidy hs)
  exact (((Keeps.forIn keeps).bind fun _ => Keeps.answer _) _ _ _
    ⟨tidy, Nat.le_refl _, Nat.zero_le _⟩ hrun).tidy

end Program

end RegionGuard

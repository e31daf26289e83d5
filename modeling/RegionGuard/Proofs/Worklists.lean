import RegionGuard.Proofs.Wiring
set_option autoImplicit false

namespace RegionGuard

namespace DataflowProblem

variable {σ : Type} (p : DataflowProblem σ) (c : FlowGraph) (entry : Nat) (reachable : List Nat)

def ending (ends : Table Nat σ) (block : Nat) : Outcome σ := do
  let s ← p.entering c entry reachable ends block
  let b ← c.block block
  p.throughBlock b s

def joinNext (ends : Table Nat σ) (s? : Option σ) (b : Nat) : Outcome (Option σ) := do
  let s' ← Failure.orStop (ends.get? b) .missingEntry
  match s? with
  | none => return some s'
  | some s => return some (← p.join s s')

variable {p c entry reachable}

theorem joinEnds_eq (ends : Table Nat σ) (blocks : List Nat) :
    p.joinEnds ends blocks = blocks.foldlM (p.joinNext ends) none := rfl

theorem joinNext_none {ends : Table Nat σ} {b : Nat} {s : σ} (h : ends.get? b = some s) :
    p.joinNext ends none b = .ok (some s) := by
  unfold joinNext
  rw [h]
  rfl

theorem joinNext_some {ends : Table Nat σ} {b : Nat} {s t u : σ} (h : ends.get? b = some t)
    (hu : p.join s t = .ok u) : p.joinNext ends (some s) b = .ok (some u) := by
  unfold joinNext
  rw [h]
  change (p.join s t >>= _) = _
  rw [hu]
  rfl

theorem joinEnds_congr {ends ends' : Table Nat σ} {blocks : List Nat}
    (h : ∀ b ∈ blocks, ends.get? b = ends'.get? b) : p.joinEnds ends blocks = p.joinEnds ends' blocks := by
  unfold joinEnds
  generalize (none : Option σ) = s?
  induction blocks generalizing s? with
  | nil => rfl
  | cons b rest ih =>
    rw [List.foldlM_cons, List.foldlM_cons, h b List.mem_cons_self]
    exact congrArg _ (funext fun s => ih (fun b' hb' => h b' (List.mem_cons_of_mem b hb')) s)

theorem ending_congr {ends ends' : Table Nat σ} {block : Nat}
    (h : ∀ b ∈ c.graph.predecessorsOf block, ends.get? b = ends'.get? b) :
    p.ending c entry reachable ends block = p.ending c entry reachable ends' block := by
  have hentering : p.entering c entry reachable ends block = p.entering c entry reachable ends' block := by
    unfold entering
    split
    · rfl
    · cases hpredecessors : c.predecessors block with
      | error e => rfl
      | ok predecessors =>
        have hlist : c.graph.predecessorsOf block = predecessors := Graph.predecessorsOf_of_ok hpredecessors
        change (p.joinEnds ends _ >>= _) = (p.joinEnds ends' _ >>= _)
        rw [joinEnds_congr fun b hb => h b (hlist ▸ (List.mem_filter.mp hb).1)]
  rw [ending, ending, hentering]

variable [DecidableEq σ]

theorem iterate_cons (visits block : Nat) (queue : List Nat) (ends : Table Nat σ) :
    p.iterate c entry reachable (visits + 1) (block :: queue) ends = (do
      let s ← p.ending c entry reachable ends block
      if ends.get? block = some s then p.iterate c entry reachable visits queue ends
      else
        let successors ← c.successors block
        p.iterate c entry reachable visits
          (queue ++ successors.filter fun t => reachable.contains t && !queue.contains t) (ends.insert block s)) := by
  unfold ending
  simp only [bind_assoc]
  rfl

theorem iterate_induction {I : List Nat → Table Nat σ → Prop}
    (hsame : ∀ block queue ends s, I (block :: queue) ends → p.ending c entry reachable ends block = .ok s →
      ends.get? block = some s → I queue ends)
    (hnew : ∀ block queue ends s successors, I (block :: queue) ends →
      p.ending c entry reachable ends block = .ok s → c.successors block = .ok successors →
        I (queue ++ successors.filter fun t => reachable.contains t && !queue.contains t) (ends.insert block s))
    {visits : Nat} {queue : List Nat} {ends ends' : Table Nat σ} (hI : I queue ends)
    (h : p.iterate c entry reachable visits queue ends = .ok ends') : I [] ends' := by
  induction visits generalizing queue ends with
  | zero =>
    cases queue with
    | nil =>
      cases h
      exact hI
    | cons block queue => cases h
  | succ visits ih =>
    cases queue with
    | nil =>
      cases h
      exact hI
    | cons block queue =>
      rw [iterate_cons] at h
      obtain ⟨s, hs, h⟩ := bind_eq_ok.mp h
      split at h
      · rename_i hold
        exact ih (hsame block queue ends s hI hs hold) h
      · obtain ⟨successors, hsuccessors, h⟩ := bind_eq_ok.mp h
        exact ih (hnew block queue ends s successors hI hs hsuccessors) h

theorem settled_of_iterate (hwired : c.graph.Wired) {visits : Nat} {queue : List Nat} {ends ends' : Table Nat σ}
    (hqueue : ∀ b ∈ reachable, b ∈ queue) (h : p.iterate c entry reachable visits queue ends = .ok ends') :
    ∀ b ∈ reachable, ∃ s, p.ending c entry reachable ends' b = .ok s ∧ ends'.get? b = some s := by
  refine fun b hb => iterate_induction (I := fun queue ends => ∀ b ∈ reachable, b ∉ queue →
    ∃ s, p.ending c entry reachable ends b = .ok s ∧ ends.get? b = some s) ?_ ?_
    (fun b hb hqueued => absurd (hqueue b hb) hqueued) h b hb (List.not_mem_nil)
  · intro block queue ends s hI hs hold b hb hqueued
    by_cases hblock : b = block
    · exact ⟨s, hblock ▸ hs, hblock ▸ hold⟩
    · exact hI b hb fun hmem => (List.mem_cons.mp hmem).elim hblock hqueued
  · intro block queue ends s successors hI hs hsuccessors b hb hqueued
    -- A block behind the changed one is in the queue again, so this one is not behind it.
    have hbehind : block ∉ c.graph.predecessorsOf b := by
      intro hmem
      have hsuccessor : b ∈ successors := by
        rw [← Graph.successorsOf_of_ok hsuccessors, hwired.successors]
        exact (hwired.predecessors block b).mp hmem
      refine hqueued (List.mem_append.mpr ?_)
      by_cases hqueue : b ∈ queue
      · exact .inl hqueue
      · exact .inr (List.mem_filter.mpr ⟨hsuccessor, by simp [hb, hqueue]⟩)
    have hsame : p.ending c entry reachable (ends.insert block s) b = p.ending c entry reachable ends b :=
      ending_congr fun b' hb' => by
        rw [Table.get?_insert]
        exact if_neg fun he : b' = block => hbehind (he ▸ hb')
    rw [hsame, Table.get?_insert]
    by_cases hblock : b = block
    · exact ⟨s, hblock ▸ hs, if_pos hblock⟩
    · rw [if_neg hblock]
      exact hI b hb fun hmem =>
        (List.mem_cons.mp hmem).elim hblock fun hq => hqueued (List.mem_append_left _ hq)

end DataflowProblem

end RegionGuard

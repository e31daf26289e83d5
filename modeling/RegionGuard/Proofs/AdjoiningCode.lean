import RegionGuard.Proofs.Tallies
set_option autoImplicit false

/-!
# Adjoining code

Directly behind an instruction that was not injected there may be injected code, up to the next instruction that was not.
Some of it is about the instruction. What is injected elsewhere, or is about something else, leaves that as it is; what
is injected behind the instruction and nothing but injected code joins it. Read backwards, the same holds of injected
code directly in front of an instruction.
-/

namespace RegionGuard

open Instruction

/-- What a test selects of the injected code directly behind the instruction of a number performs some operations. -/
def FollowedBy (test : Instruction → Bool) (index : Nat) (operations : List Operation) (l : List Instruction) : Prop :=
  ∃ front i back, l = front ++ i :: back ∧ i.index = index ∧ i.isInjected = false ∧
    ((back.takeWhile isInjected).filter test).map (·.operation) = operations

theorem append_eq_append_cons {α : Type} {a b front back : List α} {x : α} (h : front ++ back = a ++ x :: b) :
    (∃ a', a = front ++ a' ∧ back = a' ++ x :: b) ∨ ∃ b', front = a ++ x :: b' ∧ b = b' ++ back := by
  rcases List.append_eq_append_iff.mp h with ⟨a', ha, hback⟩ | ⟨rest, hfront, hrest⟩
  · exact .inl ⟨a', ha, hback⟩
  · cases rest with
    | nil => exact .inl ⟨[], by simpa using hfront.symm, hrest.symm⟩
    | cons y b' =>
      obtain ⟨rfl, rfl⟩ := List.cons.inj hrest
      exact .inr ⟨b', hfront, rfl⟩

theorem takeWhile_append_cons {α : Type} {p : α → Bool} {x : α} (hx : p x = false) (l back : List α) :
    (l ++ x :: back).takeWhile p = l.takeWhile p := by
  induction l with
  | nil => rw [List.nil_append, List.takeWhile_cons, hx, List.takeWhile_nil, if_neg Bool.false_ne_true]
  | cons y l ih => rw [List.cons_append, List.takeWhile_cons, List.takeWhile_cons, ih]

namespace FollowedBy

variable {test : Instruction → Bool} {index : Nat} {operations : List Operation} {i : Instruction}
  {l front run new back : List Instruction}

theorem of_mem (hi : i ∈ l) (own : i.isInjected = false) (hl : ∀ j ∈ l, test j = false) :
    FollowedBy test i.index [] l := by
  obtain ⟨front, back, rfl⟩ := List.append_of_mem hi
  refine ⟨front, i, back, rfl, rfl, own, ?_⟩
  rw [List.filter_eq_nil_iff.mpr, List.map_nil]
  intro j hj
  rw [hl j (List.mem_append_right _ (List.mem_cons_of_mem _ (List.takeWhile_subset _ hj)))]
  exact Bool.false_ne_true

/-- The code behind an instruction may change as long as its numbers and what is selected stay. -/
theorem map {f : Instruction → Instruction} (hf : ∀ j, (f j).index = j.index ∧ (f j).isInjected = j.isInjected ∧
    test (f j) = test j ∧ (f j).operation = j.operation) (h : FollowedBy test index operations l) :
    FollowedBy test index operations (l.map f) := by
  obtain ⟨front, i, back, rfl, hindex, own, hback⟩ := h
  refine ⟨front.map f, f i, back.map f, by simp, (hf i).1.trans hindex, (hf i).2.1.trans own, ?_⟩
  rw [List.takeWhile_map, List.filter_map, List.map_map]
  simp only [Function.comp_def, hf]
  exact hback

/-- Injected code of which nothing is selected may go anywhere. -/
theorem insert_quiet (h : FollowedBy test index operations (front ++ back))
    (hnew : ∀ j ∈ new, j.isInjected = true ∧ test j = false) :
    FollowedBy test index operations (front ++ (new ++ back)) := by
  obtain ⟨a, i, b, hsplit, hindex, own, hb⟩ := h
  rcases append_eq_append_cons hsplit with ⟨a', rfl, rfl⟩ | ⟨b', rfl, rfl⟩
  · exact ⟨front ++ (new ++ a'), i, b, by simp, hindex, own, hb⟩
  · refine ⟨a, i, b' ++ (new ++ back), by simp, hindex, own, ?_⟩
    by_cases hall : ∀ x ∈ b', x.isInjected = true
    · have hquiet : new.filter test = [] := List.filter_eq_nil_iff.mpr fun j hj => by
        rw [(hnew j hj).2]
        exact Bool.false_ne_true
      rw [List.takeWhile_append_of_pos hall, List.filter_append] at hb
      rw [List.takeWhile_append_of_pos hall, List.takeWhile_append_of_pos fun j hj => (hnew j hj).1, List.filter_append,
        List.filter_append, hquiet, List.nil_append]
      exact hb
    · -- Something else is in front of the new code.
      obtain ⟨y, hy, hown⟩ := not_forall₂.mp hall
      obtain ⟨m, z, rfl⟩ := List.append_of_mem hy
      rw [Bool.not_eq_true] at hown
      simp only [List.append_assoc, List.cons_append, takeWhile_append_cons hown] at hb ⊢
      exact hb

theorem insert_other {j : Instruction} (h : FollowedBy test index operations (front ++ j :: (run ++ back)))
    (own : j.isInjected = false) (hj : j.index ≠ index) (hrun : ∀ x ∈ run, x.isInjected = true) :
    FollowedBy test index operations (front ++ j :: (run ++ (new ++ back))) := by
  obtain ⟨a, i, b, hsplit, hindex, hi, hb⟩ := h
  rcases append_eq_append_cons hsplit with ⟨a', rfl, hback⟩ | ⟨b', rfl, rfl⟩
  · cases a' with
    | nil =>
      obtain ⟨rfl, -⟩ := List.cons.inj hback
      exact absurd hindex hj
    | cons y a' =>
      obtain ⟨rfl, htail : run ++ back = a' ++ i :: b⟩ := List.cons.inj hback
      rcases append_eq_append_cons htail with ⟨a'', rfl, rfl⟩ | ⟨b', rfl, -⟩
      · exact ⟨front ++ j :: (run ++ (new ++ a'')), i, b, by simp, hindex, hi, hb⟩
      · rw [hrun i (by simp)] at hi
        cases hi
  · refine ⟨a, i, b' ++ j :: (run ++ (new ++ back)), by simp, hindex, hi, ?_⟩
    rw [takeWhile_append_cons own] at hb ⊢
    exact hb

/-- What is injected directly behind an instruction, or behind some of the injected code there, joins it. -/
theorem insert_own (h : FollowedBy test index [] (front ++ i :: (run ++ back)))
    (distinct : ((front ++ i :: (run ++ back)).map (·.index)).Nodup) (hi : i.index = index)
    (hrun : ∀ x ∈ run, x.isInjected = true) (hnew : ∀ x ∈ new, x.isInjected = true) :
    FollowedBy test index ((new.filter test).map (·.operation)) (front ++ i :: (run ++ (new ++ back))) := by
  obtain ⟨a, j, b, hsplit, hj, own, hb⟩ := h
  -- No other instruction has the number.
  obtain ⟨rfl, rfl, rfl⟩ : a = front ∧ j = i ∧ b = run ++ back := by
    rw [List.map_append, List.map_cons] at distinct
    have hfront : ∀ x ∈ front, x.index ≠ i.index := fun x hx hindex =>
      (List.nodup_append.mp distinct).2.2 _ (List.mem_map_of_mem hx) _ List.mem_cons_self hindex
    have hback : ∀ x ∈ run ++ back, x.index ≠ i.index := fun x hx hindex =>
      (List.nodup_cons.mp (List.nodup_append.mp distinct).2.1).1 (hindex ▸ List.mem_map_of_mem hx)
    rcases append_eq_append_cons hsplit with ⟨a', rfl, hrest⟩ | ⟨b', rfl, -⟩
    · cases a' with
      | nil =>
        obtain ⟨rfl, rfl⟩ := List.cons.inj hrest
        exact ⟨by simp, rfl, rfl⟩
      | cons y a' =>
        obtain ⟨rfl, htail : run ++ back = a' ++ j :: b⟩ := List.cons.inj hrest
        exact absurd (hj.trans hi.symm) (hback j (by rw [htail]; simp))
    · exact absurd (hj.trans hi.symm) (hfront j (by simp))
  refine ⟨a, j, run ++ (new ++ back), rfl, hi, own, ?_⟩
  rw [List.takeWhile_append_of_pos hrun, List.filter_append, List.map_append, List.append_eq_nil_iff] at hb
  rw [List.takeWhile_append_of_pos hrun, List.takeWhile_append_of_pos hnew, List.filter_append, List.filter_append,
    List.map_append, List.map_append, hb.1, hb.2, List.nil_append, List.append_nil]

end FollowedBy

end RegionGuard

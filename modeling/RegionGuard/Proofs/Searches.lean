import Mathlib.Logic.Relation
import RegionGuard.Graph.Search
import RegionGuard.Proofs.Entries
set_option autoImplicit false

namespace RegionGuard

open Relation

/-- Fewer members pass a test that is stricter, and strictly so at one of them. -/
theorem countP_lt {α : Type} {p q : α → Bool} {l : List α} (hpq : ∀ x ∈ l, p x = true → q x = true) {y : α}
    (hy : y ∈ l) (hp : p y = false) (hq : q y = true) : l.countP p < l.countP q := by
  induction l with
  | nil => cases hy
  | cons x rest ih =>
    have hrest : rest.countP p ≤ rest.countP q :=
      List.countP_mono_left fun z hz => hpq z (List.mem_cons_of_mem x hz)
    rw [List.countP_cons, List.countP_cons]
    rcases List.mem_cons.mp hy with rfl | hy
    · simp only [hp, hq, Bool.false_eq_true, if_false, if_true]
      omega
    · have hlt := ih (fun z hz => hpq z (List.mem_cons_of_mem x hz)) hy
      by_cases hx : p x = true
      · rw [if_pos hx, if_pos (hpq x List.mem_cons_self hx)]
        omega
      · rw [if_neg hx]
        split <;> omega

namespace Search

variable {next : Nat → List Nat} {keys : List Nat}

/-- Whether a vertex can be reached from another. -/
abbrev Reaches (next : Nat → List Nat) : Nat → Nat → Prop := ReflTransGen fun v w => w ∈ next v

def unseen (keys : List Nat) (s : Search) : Nat := keys.countP fun v => decide (v ∉ s.seen)

/-- A search has gone on and found new vertices: each once, with all that lies one step behind them. -/
structure Extends (next : Nat → List Nat) (s s' : Search) (found : List Nat) : Prop where
  finished : s'.finished = found ++ s.finished
  seen : ∀ v, v ∈ s'.seen ↔ v ∈ found ∨ v ∈ s.seen
  fresh : ∀ v ∈ found, v ∉ s.seen
  nodup : found.Nodup
  closed : ∀ v ∈ found, ∀ w ∈ next v, w ∈ s'.seen

theorem Extends.refl (next : Nat → List Nat) (s : Search) : Extends next s s [] where
  finished := rfl
  seen v := by simp
  fresh v hv := (List.not_mem_nil hv).elim
  nodup := List.nodup_nil
  closed v hv := (List.not_mem_nil hv).elim

theorem Extends.trans {s s' s'' : Search} {found found' : List Nat} (h : Extends next s s' found)
    (h' : Extends next s' s'' found') : Extends next s s'' (found' ++ found) where
  finished := by rw [h'.finished, h.finished, List.append_assoc]
  seen v := by rw [h'.seen, h.seen, List.mem_append, or_assoc]
  fresh v hv := by
    rcases List.mem_append.mp hv with hv | hv
    · exact fun hs => h'.fresh v hv ((h.seen v).mpr (.inr hs))
    · exact h.fresh v hv
  nodup := List.nodup_append.mpr ⟨h'.nodup, h.nodup, fun v hv' w hv hvw =>
    h'.fresh v hv' ((h.seen v).mpr (.inl (hvw ▸ hv)))⟩
  closed v hv w hw := by
    rcases List.mem_append.mp hv with hv | hv
    · exact h'.closed v hv w hw
    · exact (h'.seen w).mpr (.inr (h.closed v hv w hw))

theorem Extends.unseen_le {s s' : Search} {found : List Nat} (h : Extends next s s' found) :
    unseen keys s' ≤ unseen keys s :=
  List.countP_mono_left fun v _ hv => by
    have hv := of_decide_eq_true hv
    exact decide_eq_true fun hs => hv ((h.seen v).mpr (.inr hs))

theorem Extends.enter {s inner : Search} {v : Nat} {found : List Nat}
    (h : Extends next { s with seen := v :: s.seen } inner found) (hv : v ∉ s.seen)
    (hnext : ∀ w ∈ next v, w ∈ inner.seen) :
    Extends next s { inner with finished := v :: inner.finished } (v :: found) where
  finished := congrArg (v :: ·) h.finished
  seen w := by
    change w ∈ inner.seen ↔ _
    rw [h.seen, List.mem_cons, List.mem_cons, or_left_comm, or_assoc]
  fresh w hw := by
    rcases List.mem_cons.mp hw with rfl | hw
    · exact hv
    · exact fun hs => h.fresh w hw (List.mem_cons_of_mem v hs)
  nodup := List.nodup_cons.mpr ⟨fun hfound => h.fresh v hfound List.mem_cons_self, h.nodup⟩
  closed w hw u hu := by
    rcases List.mem_cons.mp hw with rfl | hw
    · exact hnext u hu
    · exact h.closed w hw u hu

/-- A search has found what is new behind some vertices, and nothing else. -/
def Finds (next : Nat → List Nat) (s s' : Search) (roots : List Nat) : Prop :=
  ∃ found, Extends next s s' found ∧ (∀ v ∈ roots, v ∈ s'.seen) ∧ ∀ w ∈ found, ∃ v ∈ roots, Reaches next v w

theorem foldl_finds {visit : Search → Nat → Search} {bound : Nat}
    (hvisit : ∀ s v, unseen keys s < bound → Finds next s (visit s v) [v]) (l : List Nat) (s : Search)
    (hs : l ≠ [] → unseen keys s < bound) : Finds next s (l.foldl visit s) l := by
  induction l generalizing s with
  | nil => exact ⟨[], .refl next s, fun v hv => (List.not_mem_nil hv).elim, fun w hw => (List.not_mem_nil hw).elim⟩
  | cons v rest ih =>
    have hbound := hs (List.cons_ne_nil v rest)
    obtain ⟨found, hfound, hv, hreach⟩ := hvisit s v hbound
    obtain ⟨found', hfound', hrest, hreach'⟩ := ih (visit s v) fun _ => Nat.lt_of_le_of_lt hfound.unseen_le hbound
    refine ⟨found' ++ found, hfound.trans hfound', fun w hw => ?_, fun w hw => ?_⟩
    · rcases List.mem_cons.mp hw with rfl | hw
      · exact (hfound'.seen w).mpr (.inr (hv w List.mem_cons_self))
      · exact hrest w hw
    · rcases List.mem_append.mp hw with hw | hw
      · obtain ⟨u, hu, hreaches⟩ := hreach' w hw
        exact ⟨u, List.mem_cons_of_mem v hu, hreaches⟩
      · obtain ⟨u, hu, hreaches⟩ := hreach w hw
        exact ⟨u, List.mem_singleton.mp hu ▸ List.mem_cons_self, hreaches⟩

theorem unseen_enter (hkeys : ∀ v, next v ≠ [] → v ∈ keys) {s : Search} {depth v : Nat} (hs : unseen keys s < depth + 1)
    (hv : v ∉ s.seen) (hne : next v ≠ []) : unseen keys { s with seen := v :: s.seen } < depth := by
  have : unseen keys { s with seen := v :: s.seen } < unseen keys s :=
    countP_lt (fun w _ hw => by simp_all) (hkeys v hne) (by simp) (by simpa using hv)
  omega

/-- A search that goes as deep as there are unseen vertices with neighbors misses nothing. -/
theorem visit_finds (hkeys : ∀ v, next v ≠ [] → v ∈ keys) (depth : Nat) (s : Search) (v : Nat)
    (hs : unseen keys s < depth) : Finds next s (visit next depth s v) [v] := by
  induction depth generalizing s v with
  | zero => exact absurd hs (Nat.not_lt_zero _)
  | succ depth ih =>
    unfold visit
    split
    · rename_i hseen
      exact ⟨[], .refl next s, fun w hw => List.mem_singleton.mp hw ▸ hseen, fun w hw => (List.not_mem_nil hw).elim⟩
    · rename_i hseen
      obtain ⟨found, hfound, hnext, hreach⟩ := foldl_finds ih (next v) _ (unseen_enter hkeys hs hseen)
      refine ⟨v :: found, hfound.enter hseen hnext, fun w hw => ?_, fun w hw => ⟨v, List.mem_cons_self, ?_⟩⟩
      · exact List.mem_singleton.mp hw ▸ (hfound.seen v).mpr (.inr List.mem_cons_self)
      · rcases List.mem_cons.mp hw with rfl | hw
        · exact .refl
        · obtain ⟨u, hu, hreaches⟩ := hreach w hw
          exact .head hu hreaches

end Search

namespace Graph

variable {ν ε : Type} {g : Graph ν ε}

theorem mem_keys_of_successorsOf {v : Nat} (h : g.successorsOf v ≠ []) : v ∈ g.successors.keys := by
  rw [Table.mem_keys_iff]
  unfold successorsOf at h
  cases hv : g.successors.get? v with
  | none =>
    rw [hv] at h
    exact absurd rfl h
  | some s => rfl

theorem unseen_lt_depth (g : Graph ν ε) (excluded : List Nat) :
    Search.unseen g.successors.keys ⟨excluded, []⟩ < g.successors.size + 2 := by
  have hle : Search.unseen g.successors.keys ⟨excluded, []⟩ ≤ g.successors.keys.length := List.countP_le_length
  have hlength : g.successors.keys.length = g.successors.size := List.length_map _
  omega

theorem searchAvoiding_extends (g : Graph ν ε) (excluded : List Nat) (root : Nat) :
    Search.Extends g.successorsOf ⟨excluded, []⟩ (g.searchAvoiding excluded root)
        (g.searchAvoiding excluded root).finished ∧
      root ∈ (g.searchAvoiding excluded root).seen ∧
      ∀ v ∈ (g.searchAvoiding excluded root).finished, Search.Reaches g.successorsOf root v := by
  obtain ⟨found, hfound, hroot, hreach⟩ :=
    Search.visit_finds (fun v => mem_keys_of_successorsOf) _ ⟨excluded, []⟩ root (g.unseen_lt_depth excluded)
  have hfinished : (g.searchAvoiding excluded root).finished = found := by
    rw [searchAvoiding, hfound.finished, List.append_nil]
  rw [hfinished]
  refine ⟨hfound, hroot root List.mem_cons_self, fun v hv => ?_⟩
  obtain ⟨u, hu, hreaches⟩ := hreach v hv
  exact List.mem_singleton.mp hu ▸ hreaches

theorem mem_searchAvoiding_nil {root v : Nat} :
    v ∈ (g.searchAvoiding [] root).finished ↔ Search.Reaches g.successorsOf root v := by
  obtain ⟨hext, hroot, hreach⟩ := g.searchAvoiding_extends [] root
  refine ⟨hreach v, fun h => ?_⟩
  induction h with
  | refl => simpa using (hext.seen root).mp hroot
  | tail _ hw ih => simpa using (hext.seen _).mp (hext.closed _ ih _ hw)

theorem reversePostOrder_of_absent {root : Nat} (hroot : g.hasVertex root = false) :
    g.reversePostOrder root = .error (.error (.vertexNotFound root)) := by
  unfold reversePostOrder
  rw [hroot]
  rfl

theorem reversePostOrder_eq {root : Nat} (hroot : g.hasVertex root) : g.reversePostOrder root =
    if (g.searchAvoiding [] root).finished.all g.successors.contains then .ok (g.searchAvoiding [] root).finished
    else .error (.fatal .missingEntry) := by
  unfold reversePostOrder
  rw [if_pos hroot]
  dsimp only
  split
  · rfl
  · rfl

theorem hasVertex_of_reversePostOrder {root : Nat} {order : List Nat} (h : g.reversePostOrder root = .ok order) :
    g.hasVertex root = true := by
  cases hroot : g.hasVertex root with
  | false =>
    rw [reversePostOrder_of_absent hroot] at h
    cases h
  | true => rfl

theorem eq_of_reversePostOrder {root : Nat} {order : List Nat} (h : g.reversePostOrder root = .ok order) :
    order = (g.searchAvoiding [] root).finished := by
  rw [reversePostOrder_eq (hasVertex_of_reversePostOrder h)] at h
  split at h
  · cases h
    rfl
  · cases h

theorem reversePostOrder_ok {root : Nat} {order : List Nat} (h : g.reversePostOrder root = .ok order) :
    order.Nodup ∧ ∀ v, v ∈ order ↔ Search.Reaches g.successorsOf root v := by
  rw [eq_of_reversePostOrder h]
  exact ⟨(g.searchAvoiding_extends [] root).1.nodup, fun v => mem_searchAvoiding_nil⟩

end Graph

end RegionGuard

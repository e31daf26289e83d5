import Mathlib.Logic.Function.Iterate
import RegionGuard.Proofs.LoopNests
set_option autoImplicit false

namespace RegionGuard

namespace Search

variable {next : Nat → List Nat} {keys seen roots found : List Nat} {s s' : Search} {root v w : Nat}

/-- How a search lists what it finds from some roots, where some vertices were seen before: behind a vertex that leads to
it, unless it is a root, and in front of its successors, unless they were seen before or lead back to it. -/
structure Arranged (next : Nat → List Nat) (seen roots found : List Nat) : Prop where
  entered : ∀ v ∈ found, v ∈ roots ∨ ∃ u, v ∈ next u ∧ [u, v].Sublist found
  left : ∀ v ∈ found, ∀ w ∈ next v, w ∈ seen ∨ [v, w].Sublist found ∨ Reaches next w v

theorem arranged_nil : Arranged next seen roots [] :=
  ⟨fun _ hv => (List.not_mem_nil hv).elim, fun _ hv => (List.not_mem_nil hv).elim⟩

theorem Arranged.append {seen' roots' found' : List Nat} (h : Arranged next seen roots found)
    (h' : Arranged next seen' roots' found') (hseen : ∀ w ∈ seen', w ∈ found ∨ w ∈ seen) :
    Arranged next seen (roots ++ roots') (found' ++ found) where
  entered v hv := by
    rcases List.mem_append.mp hv with hv | hv
    · rcases h'.entered v hv with hroot | ⟨u, hu, hbefore⟩
      · exact .inl (List.mem_append_right roots hroot)
      · exact .inr ⟨u, hu, hbefore.trans (List.sublist_append_left found' found)⟩
    · rcases h.entered v hv with hroot | ⟨u, hu, hbefore⟩
      · exact .inl (List.mem_append_left roots' hroot)
      · exact .inr ⟨u, hu, hbefore.trans (List.sublist_append_right found' found)⟩
  left v hv w hw := by
    rcases List.mem_append.mp hv with hv | hv
    · rcases h'.left v hv w hw with hold | hbefore | hback
      · rcases hseen w hold with hfound | hold
        · exact .inr (.inl ((List.singleton_sublist.mpr hv).append (List.singleton_sublist.mpr hfound)))
        · exact .inl hold
      · exact .inr (.inl (hbefore.trans (List.sublist_append_left found' found)))
      · exact .inr (.inr hback)
    · rcases h.left v hv w hw with hold | hbefore | hback
      · exact .inl hold
      · exact .inr (.inl (hbefore.trans (List.sublist_append_right found' found)))
      · exact .inr (.inr hback)

theorem Arranged.enter (h : Arranged next (v :: seen) (next v) found) (hreach : ∀ w ∈ found, Reaches next v w)
    (hnext : ∀ w ∈ next v, w ∈ found ∨ w ∈ v :: seen) : Arranged next seen [v] (v :: found) where
  entered w hw := by
    rcases List.mem_cons.mp hw with rfl | hw
    · exact .inl (List.mem_singleton_self w)
    · rcases h.entered w hw with hroot | ⟨u, hu, hbefore⟩
      · exact .inr ⟨v, hroot, (List.singleton_sublist.mpr hw).cons_cons v⟩
      · exact .inr ⟨u, hu, hbefore.cons v⟩
  left u hu w hw := by
    rcases List.mem_cons.mp hu with rfl | hbehind
    · rcases hnext w hw with hfound | hold
      · exact .inr (.inl ((List.singleton_sublist.mpr hfound).cons_cons u))
      · rcases List.mem_cons.mp hold with rfl | hold
        · exact .inr (.inr .refl)
        · exact .inl hold
    · rcases h.left u hbehind w hw with hold | hbefore | hback
      · rcases List.mem_cons.mp hold with rfl | hold
        · exact .inr (.inr (hreach u hbehind))
        · exact .inl hold
      · exact .inr (.inl (hbefore.cons v))
      · exact .inr (.inr hback)

theorem Extends.unique {found' : List Nat} (h : Extends next s s' found) (h' : Extends next s s' found') :
    found = found' := List.append_cancel_right (h.finished.symm.trans h'.finished)

theorem foldl_arranged {visit : Search → Nat → Search} {bound : Nat}
    (hfinds : ∀ s v, unseen keys s < bound → Finds next s (visit s v) [v])
    (hvisit : ∀ s v found, unseen keys s < bound → Extends next s (visit s v) found → Arranged next s.seen [v] found)
    (l : List Nat) (s : Search) (hs : l ≠ [] → unseen keys s < bound) (found : List Nat)
    (hfound : Extends next s (l.foldl visit s) found) : Arranged next s.seen l found := by
  induction l generalizing s found with
  | nil =>
    rw [hfound.unique (.refl next s)]
    exact arranged_nil
  | cons v rest ih =>
    have hbound := hs (List.cons_ne_nil v rest)
    obtain ⟨first, hfirst, -⟩ := hfinds s v hbound
    have hlater : unseen keys (visit s v) < bound := Nat.lt_of_le_of_lt hfirst.unseen_le hbound
    obtain ⟨later, hextends, -⟩ := foldl_finds hfinds rest (visit s v) fun _ => hlater
    rw [hfound.unique (hfirst.trans hextends)]
    exact (hvisit s v first hbound hfirst).append (ih (visit s v) (fun _ => hlater) later hextends)
      fun w hw => (hfirst.seen w).mp hw

/-- A search that goes deep enough lists what it finds in order. -/
theorem visit_arranged (hkeys : ∀ v, next v ≠ [] → v ∈ keys) (depth : Nat) (s : Search) (v : Nat) (found : List Nat)
    (hs : unseen keys s < depth) (hfound : Extends next s (visit next depth s v) found) :
    Arranged next s.seen [v] found := by
  induction depth generalizing s v found with
  | zero => exact absurd hs (Nat.not_lt_zero _)
  | succ depth ih =>
    unfold visit at hfound
    split at hfound
    · rw [hfound.unique (.refl next s)]
      exact arranged_nil
    · rename_i hseen
      have hinner := unseen_enter hkeys hs hseen
      obtain ⟨behind, hbehind, hnext, hreach⟩ := foldl_finds (visit_finds hkeys depth) (next v) _ hinner
      rw [hfound.unique (hbehind.enter hseen hnext)]
      refine (foldl_arranged (visit_finds hkeys depth) (fun s v found => ih s v found) (next v) _ hinner behind
        hbehind).enter (fun w hw => ?_) fun w hw => (hbehind.seen w).mp (hnext w hw)
      obtain ⟨u, hu, hreaches⟩ := hreach w hw
      exact .head hu hreaches

/-- What is listed in front of something comes before it, if nothing is listed twice. -/
theorem idxOf_lt_of_sublist (nodup : found.Nodup) (h : [v, w].Sublist found) : found.idxOf v < found.idxOf w := by
  induction found with
  | nil => cases h
  | cons x rest ih =>
    obtain ⟨hx, hrest⟩ := List.nodup_cons.mp nodup
    cases h with
    | cons _ h =>
      have hv : x ≠ v := fun heq => hx (heq ▸ h.subset List.mem_cons_self)
      have hw : x ≠ w := fun heq => hx (heq ▸ h.subset (List.mem_cons_of_mem v List.mem_cons_self))
      rw [List.idxOf_cons_ne _ hv, List.idxOf_cons_ne _ hw]
      exact Nat.succ_lt_succ (ih hrest h)
    | cons_cons _ h =>
      have hw : v ≠ w := fun heq => hx (heq ▸ List.singleton_sublist.mp h)
      rw [List.idxOf_cons_self, List.idxOf_cons_ne _ hw]
      exact Nat.succ_pos _

theorem Arranged.head? (h : Arranged next seen [root] found) (nodup : found.Nodup) (hroot : root ∈ found) :
    found.head? = some root := by
  cases found with
  | nil => cases hroot
  | cons v rest =>
    rcases h.entered v List.mem_cons_self with hv | ⟨u, -, hbefore⟩
    · exact congrArg some (List.mem_singleton.mp hv)
    · have hlt := idxOf_lt_of_sublist nodup hbefore
      rw [List.idxOf_cons_self] at hlt
      exact absurd hlt (Nat.not_lt_zero _)

theorem Arranged.before (h : Arranged next [] roots found) (nodup : found.Nodup) (hv : v ∈ found) (hw : w ∈ next v) :
    found.idxOf v < found.idxOf w ∨ Reaches next w v := by
  rcases h.left v hv w hw with hold | hbefore | hback
  · exact (List.not_mem_nil hold).elim
  · exact .inl (idxOf_lt_of_sublist nodup hbefore)
  · exact .inr hback

/-- A way along the neighbors, with the vertices that it passes through, the last one first. -/
inductive Way (next : Nat → List Nat) (root : Nat) : Nat → List Nat → Prop where
  | start : Way next root root [root]
  | follow {v w : Nat} {l : List Nat} (hl : Way next root v l) (hw : w ∈ next v) : Way next root w (w :: l)

/-- To every vertex that is listed leads a way along which all are listed, and none of them behind it. -/
theorem Arranged.exists_way (h : Arranged next seen [root] found) (nodup : found.Nodup) (hv : v ∈ found) :
    ∃ l, Way next root v l ∧ ∀ u ∈ l, u ∈ found ∧ found.idxOf u ≤ found.idxOf v := by
  induction hn : found.idxOf v using Nat.strongRecOn generalizing v with
  | ind n ih =>
    rcases h.entered v hv with hroot | ⟨u, hu, hbefore⟩
    · cases List.mem_singleton.mp hroot
      refine ⟨[root], .start, fun u hu => ?_⟩
      cases List.mem_singleton.mp hu
      exact ⟨hv, Nat.le_of_eq hn⟩
    · have hlt := hn ▸ idxOf_lt_of_sublist nodup hbefore
      obtain ⟨l, hl, hle⟩ := ih _ hlt (hbefore.subset List.mem_cons_self) rfl
      refine ⟨v :: l, hl.follow hu, fun w hw => ?_⟩
      rcases List.mem_cons.mp hw with rfl | hw
      · exact ⟨hv, Nat.le_of_eq hn⟩
      · exact ⟨(hle w hw).1, Nat.le_of_lt (Nat.lt_of_le_of_lt (hle w hw).2 hlt)⟩

theorem Arranged.dominator_before (h : Arranged next seen [root] found) (nodup : found.Nodup) (hw : w ∈ found)
    (hdominates : ∀ l, Way next root w l → v ∈ l) (hne : v ≠ w) : found.idxOf v < found.idxOf w := by
  obtain ⟨l, hl, hle⟩ := h.exists_way nodup hw
  obtain ⟨hv, hle⟩ := hle v (hdominates l hl)
  exact Nat.lt_of_le_of_ne hle fun heq => hne ((List.idxOf_inj hv).mp heq)

theorem visit_of_seen {depth : Nat} (hv : v ∈ s.seen) : visit next depth s v = s := by
  cases depth with
  | zero => rfl
  | succ depth => exact if_pos hv

end Search

structure Agenda where
  /-- The vertices to look at, the next one first. The marked ones have been entered and are to be left. -/
  pending : List (Nat × Bool)
  search : Search

namespace Agenda

variable {next : Nat → List Nat} {keys : List Nat} {a b c : Agenda}

def start (root : Nat) : Agenda := ⟨[(root, false)], ⟨[], []⟩⟩

/-- Leaves the next vertex if it is marked, and enters it otherwise, unless that was done before. -/
def step (next : Nat → List Nat) (a : Agenda) : Agenda :=
  match a.pending with
  | [] => a
  | (v, true) :: rest => ⟨rest, { a.search with finished := v :: a.search.finished }⟩
  | (v, false) :: rest =>
    if v ∈ a.search.seen then { a with pending := rest }
    else
      let seen := v :: a.search.seen
      ⟨((next v).filter (· ∉ seen)).map (·, false) ++ (v, true) :: rest, { a.search with seen := seen }⟩

/-- Steps lead from one state to another. -/
def Becomes (next : Nat → List Nat) (a b : Agenda) : Prop := ∃ n, (step next)^[n] a = b

theorem Becomes.refl (next : Nat → List Nat) (a : Agenda) : Becomes next a a := ⟨0, rfl⟩

theorem Becomes.trans (h : Becomes next a b) (h' : Becomes next b c) : Becomes next a c := by
  obtain ⟨n, rfl⟩ := h
  obtain ⟨m, rfl⟩ := h'
  exact ⟨m + n, Function.iterate_add_apply _ m n a⟩

theorem Becomes.step (h : a.step next = b) : Becomes next a b := ⟨1, h⟩

/-- Looking at the vertices that were not seen when they were put on the stack is a search from all of them. -/
theorem foldl_becomes {depth : Nat}
    (hvisit : ∀ s v rest, Search.unseen keys s < depth →
      Becomes next ⟨(v, false) :: rest, s⟩ ⟨rest, Search.visit next depth s v⟩)
    (hkeys : ∀ v, next v ≠ [] → v ∈ keys) (base l : List Nat) (s : Search) (rest : List (Nat × Bool))
    (hbase : base ⊆ s.seen) (hs : l ≠ [] → Search.unseen keys s < depth) :
    Becomes next ⟨(l.filter (· ∉ base)).map (·, false) ++ rest, s⟩ ⟨rest, l.foldl (Search.visit next depth) s⟩ := by
  induction l generalizing s with
  | nil => exact .refl next _
  | cons v l ih =>
    have hbound := hs (List.cons_ne_nil v l)
    obtain ⟨found, hfound, -⟩ := Search.visit_finds hkeys depth s v hbound
    have hrest := ih (Search.visit next depth s v) (fun w hw => (hfound.seen w).mpr (.inr (hbase hw)))
      fun _ => Nat.lt_of_le_of_lt hfound.unseen_le hbound
    by_cases hv : v ∈ base
    · rw [List.filter_cons_of_neg (by simpa using hv)]
      rw [Search.visit_of_seen (hbase hv)] at hrest
      rw [List.foldl_cons, Search.visit_of_seen (hbase hv)]
      exact hrest
    · rw [List.filter_cons_of_pos (by simpa using hv)]
      exact (hvisit s v _ hbound).trans hrest

theorem visit_becomes (hkeys : ∀ v, next v ≠ [] → v ∈ keys) (depth : Nat) (s : Search) (v : Nat)
    (rest : List (Nat × Bool)) (hs : Search.unseen keys s < depth) :
    Becomes next ⟨(v, false) :: rest, s⟩ ⟨rest, Search.visit next depth s v⟩ := by
  induction depth generalizing s v rest with
  | zero => exact absurd hs (Nat.not_lt_zero _)
  | succ depth ih =>
    unfold Search.visit
    split
    · rename_i hseen
      exact .step (if_pos hseen)
    · rename_i hseen
      let entered : Search := { s with seen := v :: s.seen }
      have henter : Becomes next ⟨(v, false) :: rest, s⟩
          ⟨((next v).filter (· ∉ entered.seen)).map (·, false) ++ (v, true) :: rest, entered⟩ := .step (if_neg hseen)
      have hinner := foldl_becomes ih hkeys entered.seen (next v) entered ((v, true) :: rest) (List.Subset.refl _)
        (Search.unseen_enter hkeys hs hseen)
      exact (henter.trans hinner).trans (.step rfl)

end Agenda

namespace Graph

variable {ν ε : Type} {g : Graph ν ε} {root v : Nat}

theorem agenda_becomes (g : Graph ν ε) (root : Nat) :
    Agenda.Becomes g.successorsOf (.start root) ⟨[], g.searchAvoiding [] root⟩ :=
  Agenda.visit_becomes (fun _ => mem_keys_of_successorsOf) _ _ root [] (g.unseen_lt_depth [])

theorem arranged_searchAvoiding (g : Graph ν ε) (root : Nat) :
    Search.Arranged g.successorsOf [] [root] (g.searchAvoiding [] root).finished :=
  Search.visit_arranged (fun _ => mem_keys_of_successorsOf) _ ⟨[], []⟩ root _ (g.unseen_lt_depth [])
    (g.searchAvoiding_extends [] root).1

theorem Wired.way_iff (wired : g.Wired) {l : List Nat} : Search.Way g.successorsOf root v l ↔ g.Way root v l := by
  constructor
  · intro h
    induction h with
    | start => exact .start
    | follow _ hw ih => exact ih.follow ((wired.successors _ _).mp hw)
  · intro h
    induction h with
    | start => exact .start
    | follow _ hedge ih => exact ih.follow ((wired.successors _ _).mpr hedge)

/-- The reverse postorder lists all that the successors lead to from a vertex, each vertex once and the root first. It is what
a search with a stack lists in the end. A vertex stands in front of each of its successors, unless it is reached from there,
and behind all that every way to it passes through. There is an order unless the root is no vertex, which is an error, or a
vertex that is reached has no entry. Where the neighbors agree with the edges the order always exists, and is one of the edges. -/
theorem reversePostOrder_spec (g : Graph ν ε) (root : Nat) :
    (∀ order, g.reversePostOrder root = .ok order →
      (∃ seen, Agenda.Becomes g.successorsOf (.start root) ⟨[], ⟨seen, order⟩⟩) ∧
      order.Nodup ∧ (∀ v, v ∈ order ↔ Search.Reaches g.successorsOf root v) ∧ order.head? = some root ∧
      (∀ u v, u ∈ order → v ∈ g.successorsOf u → order.idxOf u < order.idxOf v ∨ Search.Reaches g.successorsOf v u) ∧
      ∀ u v, v ∈ order → (∀ l, Search.Way g.successorsOf root v l → u ∈ l) → u ≠ v → order.idxOf u < order.idxOf v) ∧
    (g.hasVertex root = false → g.reversePostOrder root = .error (.error (.vertexNotFound root))) ∧
    (g.hasVertex root = true →
      ((∀ v, Search.Reaches g.successorsOf root v → g.successors.contains v) →
        ∃ order, g.reversePostOrder root = .ok order) ∧
      ∀ v, Search.Reaches g.successorsOf root v → g.successors.contains v = false →
        g.reversePostOrder root = .error (.fatal .missingEntry)) ∧
    (g.Wired → g.hasVertex root = true → ∃ order, g.reversePostOrder root = .ok order ∧
      order.Nodup ∧ (∀ v, v ∈ order ↔ g.IsReached root v) ∧ order.head? = some root ∧
      (∀ u v, u ∈ order → (g.edges.get? (u, v)).isSome → order.idxOf u < order.idxOf v ∨ g.IsReached v u) ∧
      ∀ u v, v ∈ order → g.Dominates root u v → u ≠ v → order.idxOf u < order.idxOf v) := by
  have arranged := g.arranged_searchAvoiding root
  have nodup := (g.searchAvoiding_extends [] root).1.nodup
  have hmem : ∀ v, v ∈ (g.searchAvoiding [] root).finished ↔ Search.Reaches g.successorsOf root v := fun _ =>
    mem_searchAvoiding_nil
  have hhead := arranged.head? nodup ((hmem root).mpr .refl)
  refine ⟨fun order horder => ?ordered, reversePostOrder_of_absent,
    fun hroot => ⟨fun hall => ?found, fun v hv hmissing => ?missing⟩, fun wired hroot => ?wired⟩
  case ordered =>
    cases eq_of_reversePostOrder horder
    exact ⟨⟨_, g.agenda_becomes root⟩, nodup, hmem, hhead, fun u v hu hv => arranged.before nodup hu hv,
      fun u v hv hdominates hne => arranged.dominator_before nodup hv hdominates hne⟩
  case found =>
    refine ⟨_, (reversePostOrder_eq hroot).trans (if_pos ?_)⟩
    exact List.all_eq_true.mpr fun v hv => hall v ((hmem v).mp hv)
  case missing =>
    refine (reversePostOrder_eq hroot).trans (if_neg fun hall => ?_)
    exact Bool.false_ne_true (hmissing.symm.trans (List.all_eq_true.mp hall v ((hmem v).mpr hv)))
  case wired =>
    refine ⟨_, wired.reversePostOrder_ok hroot, nodup, fun v => wired.mem_reachable_iff, hhead, fun u v hu hedge => ?_,
      fun u v hv hdominates hne => ?_⟩
    · exact (arranged.before nodup hu ((wired.successors u v).mpr hedge)).imp_right wired.reached_iff.mpr
    · exact arranged.dominator_before nodup hv (fun l hl => hdominates l (wired.way_iff.mp hl)) hne

/-- Two branches meet in front of an edge that goes back, and a block out of reach leads into the loop. The branches come
one after the other and behind the exit, and the edge that goes back is the only one against the order. There is no order from
a block that does not exist, or without the successors. -/
theorem reversePostOrder_spec_two_branches :
    ∃ c, FlowGraph.build [[], [], [], [], [], [], []]
        [(0, 1, none), (1, 2, none), (1, 3, none), (1, 5, none), (2, 4, none), (3, 4, none), (4, 1, none), (6, 4, none)]
        (some 0) = .ok c ∧
      c.graph.Wired ∧ c.graph.hasVertex 0 = true ∧ c.graph.reversePostOrder 0 = .ok [0, 1, 5, 3, 2, 4] ∧
      (∃ seen, Agenda.Becomes c.graph.successorsOf (.start 0) ⟨[], ⟨seen, [0, 1, 5, 3, 2, 4]⟩⟩) ∧
      (∀ v, c.graph.IsReached 0 v ↔ v < 6) ∧ c.graph.IsReached 1 4 ∧ ¬ c.graph.Dominates 0 2 3 ∧
      c.graph.reversePostOrder 7 = .error (.error (.vertexNotFound 7)) ∧
      { c.graph with successors := ∅ }.reversePostOrder 0 = .error (.fatal .missingEntry) := by
  have hbuild : (FlowGraph.build [[], [], [], [], [], [], []]
      [(0, 1, none), (1, 2, none), (1, 3, none), (1, 5, none), (2, 4, none), (3, 4, none), (4, 1, none), (6, 4, none)]
      (some 0)).toOption.any fun c =>
        c.graph.hasVertex 0 ∧ c.graph.hasVertex 7 = false ∧ (c.graph.edges.get? (4, 1)).isSome ∧
          (c.graph.reversePostOrder 0).toOption = some [0, 1, 5, 3, 2, 4] := by
    decide +kernel
  obtain ⟨c, hc, h⟩ := (Option.any_eq_true ..).mp hbuild
  obtain ⟨hroot, habsent, hedge, horder⟩ := of_decide_eq_true h
  have hc := toOption_eq_some.mp hc
  have horder := toOption_eq_some.mp horder
  have wired := (FlowGraph.made_of_build hc).wired
  obtain ⟨hordered, -, -, hwired⟩ := reversePostOrder_spec c.graph 0
  obtain ⟨order, horder', -, hmem, -, hedges, hdominators⟩ := hwired wired hroot
  cases horder.symm.trans horder'
  refine ⟨c, hc, wired, hroot, horder, (hordered _ horder).1, fun v => ?_,
    (hedges 4 1 (by decide) hedge).resolve_left (by decide), fun h => ?_, (reversePostOrder_spec c.graph 7).2.1 habsent, ?_⟩
  · rw [← hmem]
    simp only [List.mem_cons, List.not_mem_nil, or_false]
    omega
  · exact absurd (hdominators 2 3 (by decide) h (by decide)) (by decide)
  · exact ((reversePostOrder_spec { c.graph with successors := ∅ } 0).2.2.1 hroot).2 0 .refl rfl

end Graph

end RegionGuard

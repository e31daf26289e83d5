import RegionGuard.Proofs.Entries
import RegionGuard.Region.Index
set_option autoImplicit false

namespace RegionGuard

def Region.Rising (l : List Region) : Prop := l.Pairwise fun r s => r.start < s.start

namespace Region.Rising

variable {l : List Region} {r s : Region}

theorem eq_of_start (h : Rising l) (hr : r ∈ l) (hs : s ∈ l) (hstart : r.start = s.start) : r = s := by
  induction l with
  | nil => cases hr
  | cons q rest ih =>
    obtain ⟨hq, hrest⟩ := List.pairwise_cons.mp h
    rcases List.mem_cons.mp hr with hrq | hr <;> rcases List.mem_cons.mp hs with hsq | hs
    · rw [hrq, hsq]
    · exact absurd hstart (UInt64.ne_of_lt (hrq ▸ hq s hs))
    · exact absurd hstart.symm (UInt64.ne_of_lt (hsq ▸ hq r hr))
    · exact ih hrest hr hs

theorem pairwise_below (h : Rising l) (w : Word) :
    l.Pairwise fun r s => decide (s.start < w) = true → decide (r.start < w) = true :=
  h.imp fun hrs hs => decide_eq_true (UInt64.lt_trans hrs (of_decide_eq_true hs))

theorem eq_or_lt_last (h : Rising l) (hlast : l.getLast? = some s) (hr : r ∈ l) : r = s ∨ r.start < s.start := by
  obtain ⟨front, rfl⟩ := List.getLast?_eq_some_iff.mp hlast
  rcases List.mem_append.mp hr with hr | hr
  · exact .inr ((List.pairwise_append.mp h).2.2 r hr s List.mem_cons_self)
  · exact .inl (List.mem_singleton.mp hr)

theorem eq_of_perm {l' : List Region} (h : Rising l) (h' : Rising l') (perm : l.Perm l') : l = l' :=
  perm.eq_of_pairwise (fun _ _ _ _ hab hba => absurd (UInt64.lt_trans hab hba) (UInt64.lt_irrefl _)) h h'

theorem perm_cons_filter (h : Rising l) (hr : r ∈ l) :
    (r :: l.filter fun s => !decide (s.start = r.start)).Perm l := by
  induction l with
  | nil => cases hr
  | cons q rest ih =>
    obtain ⟨hq, hrest⟩ := List.pairwise_cons.mp h
    rcases List.mem_cons.mp hr with rfl | hr
    · have hall : rest.filter (fun s => !decide (s.start = r.start)) = rest :=
        List.filter_eq_self.mpr fun s hs => by simpa using (UInt64.ne_of_lt (hq s hs)).symm
      rw [List.filter_cons_of_neg (by simp), hall]
    · rw [List.filter_cons_of_pos (by simpa using UInt64.ne_of_lt (hq r hr))]
      exact (List.Perm.swap q r _).trans ((ih hrest hr).cons q)

theorem find?_le (h : Rising l) {w : Word} {q s : Region}
    (hq : (l.find? fun r => decide (w ≤ r.start)) = some q) (hs : s ∈ l) (hws : w ≤ s.start) : q.start ≤ s.start := by
  obtain ⟨-, front, back, rfl, hfront⟩ := List.find?_eq_some_iff_append.mp hq
  rcases List.mem_append.mp hs with hs | hs
  · exact absurd hws (by simpa using hfront s hs)
  · rcases List.mem_cons.mp hs with rfl | hs
    · exact UInt64.le_refl _
    · exact UInt64.le_of_lt ((List.pairwise_cons.mp (List.pairwise_append.mp h).2.1).1 s hs)

end Region.Rising

/-- The fields that a mask selects are the same. -/
structure Region.AgreesOn (m : MatchMask) (r query : Region) : Prop where
  start : m.start = true → r.start = query.start
  physicalStart : m.physicalStart = true → r.physicalStart = query.physicalStart
  length : m.length = true → r.length = query.length
  protection : m.protection = true → r.protection = query.protection

theorem Region.agrees_iff {r query : Region} {m : MatchMask} : r.agrees query m = true ↔ AgreesOn m r query := by
  have hfield : ∀ {α : Type} [DecidableEq α] (selected : Bool) (v w : α),
      (!selected || v == w) = true ↔ (selected = true → v = w) := by
    intro α _ selected v w
    cases selected <;> simp
  unfold agrees
  rw [Bool.and_eq_true, Bool.and_eq_true, Bool.and_eq_true, hfield, hfield, hfield, hfield]
  exact ⟨fun ⟨⟨⟨hs, hp⟩, hl⟩, hm⟩ => ⟨hs, hp, hl, hm⟩, fun ⟨hs, hp, hl, hm⟩ => ⟨⟨⟨hs, hp⟩, hl⟩, hm⟩⟩

theorem Region.start_of_agrees {r query : Region} {m : MatchMask} (h : r.agrees query m = true) (hm : m.start = true) :
    r.start = query.start := (agrees_iff.mp h).start hm

def Region.place (r : Region) (l : List Region) : List Region :=
  l.takeWhile (fun s => decide (s.start < r.start)) ++ r :: l.dropWhile fun s => decide (s.start < r.start)

theorem Region.place_perm (r : Region) (l : List Region) : (r.place l).Perm (r :: l) := by
  refine List.perm_middle.trans (List.Perm.cons r ?_)
  rw [List.takeWhile_append_dropWhile]

theorem Region.Rising.place {l : List Region} (h : Rising l) {r : Region} (fresh : ∀ s ∈ l, s.start ≠ r.start) :
    Rising (r.place l) := by
  induction l with
  | nil => exact List.pairwise_singleton _ _
  | cons s rest ih =>
    obtain ⟨hs, hrest⟩ := List.pairwise_cons.mp h
    have hfresh := fun q hq => fresh q (List.mem_cons_of_mem _ hq)
    unfold Region.place
    rw [List.takeWhile_cons, List.dropWhile_cons]
    by_cases hlt : s.start < r.start
    · rw [if_pos (decide_eq_true hlt), if_pos (decide_eq_true hlt)]
      refine List.pairwise_cons.mpr ⟨fun q hq => ?_, ih hrest hfresh⟩
      rcases List.mem_cons.mp ((Region.place_perm r rest).mem_iff.mp hq) with rfl | hq
      · exact hlt
      · exact hs q hq
    · rw [if_neg (by simpa using hlt), if_neg (by simpa using hlt)]
      have hr : r.start < s.start :=
        UInt64.lt_of_le_of_ne (UInt64.not_lt.mp hlt) fun e => fresh s List.mem_cons_self e.symm
      refine List.pairwise_cons.mpr ⟨fun q hq => ?_, h⟩
      rcases List.mem_cons.mp hq with rfl | hq
      · exact hr
      · exact UInt64.lt_trans hr (hs q hq)

/-- Changing the region at a start, which itself stays, keeps the order. -/
theorem Region.Rising.map_at {l : List Region} (h : Rising l) {w : Word} {f : Region → Region}
    (hf : ∀ r ∈ l, r.start = w → (f r).start = w) :
    Rising (l.map fun r => if r.start = w then f r else r) := by
  have hstart : ∀ q ∈ l, (if q.start = w then f q else q).start = q.start := by
    intro q hq
    split
    · rename_i hw
      rw [hf q hq hw, hw]
    · rfl
  refine List.pairwise_map.mpr (h.imp_of_mem fun {r s} hr hs hlt => ?_)
  rw [hstart r hr, hstart s hs]
  exact hlt

theorem Region.Rising.find?_start {l : List Region} (h : Rising l) (w : Word) (p : Region → Bool)
    (hp : ∀ r, p r = true → r.start = w) :
    (l.find? fun r => decide (r.start = w)).filter p = l.find? p := by
  induction l with
  | nil => rfl
  | cons r rest ih =>
    obtain ⟨hr, hrest⟩ := List.pairwise_cons.mp h
    rw [List.find?_cons, List.find?_cons]
    by_cases hw : r.start = w
    · rw [decide_eq_true hw, Option.filter_some]
      cases hpr : p r with
      | true => rfl
      | false =>
        refine (List.find?_eq_none.mpr fun s hs hps => ?_).symm
        exact absurd (hw.trans (hp s hps).symm) (UInt64.ne_of_lt (hr s hs))
    · have hfalse : p r = false := by
        cases hpr : p r with
        | false => rfl
        | true => exact absurd (hp r hpr) hw
      rw [decide_eq_false hw, hfalse, ih hrest]

namespace RegionIndex

section Bisection

variable {a : Array Region} {p : Region → Bool}

/-- In a list that a test splits in two, the members in front are those that pass. -/
theorem lt_takeWhile_iff {l : List Region} (h : l.Pairwise fun r s => p s = true → p r = true) {n : Nat}
    {r : Region} (hr : l[n]? = some r) : n < (l.takeWhile p).length ↔ p r = true := by
  induction l generalizing n with
  | nil => cases hr
  | cons s rest ih =>
    obtain ⟨hs, hrest⟩ := List.pairwise_cons.mp h
    rw [List.takeWhile_cons]
    cases n with
    | zero =>
      cases hr
      cases p r <;> simp
    | succ n =>
      have hr : rest[n]? = some r := hr
      cases hp : p s with
      | true => simp [← ih hrest hr]
      | false =>
        have := hs r (List.mem_of_getElem? hr)
        simp_all

theorem bisect_eq (h : a.toList.Pairwise fun r s => p s = true → p r = true) (low high : Nat)
    (hlow : low ≤ (a.toList.takeWhile p).length) (hhigh : (a.toList.takeWhile p).length ≤ high)
    (hsize : high ≤ a.size) : bisect a p low high = (a.toList.takeWhile p).length := by
  fun_induction bisect a p low high with
  | case1 low high hlt middle r hr hp ih =>
    have := (lt_takeWhile_iff h (by simpa using hr)).mpr hp
    exact ih (by omega) hhigh hsize
  | case2 low high hlt middle r hr hp ih =>
    have := mt (lt_takeWhile_iff h (by simpa using hr)).mp hp
    exact ih hlow (by omega) (by omega)
  | case3 low high hlt middle hnone =>
    rw [Array.getElem?_eq_none_iff] at hnone
    omega
  | case4 low high hge => omega

/-- Bisection finds how many regions in front pass a test. -/
theorem partitionPoint_eq (h : a.toList.Pairwise fun r s => p s = true → p r = true) :
    partitionPoint a p = (a.toList.takeWhile p).length := by
  have hle : (a.toList.takeWhile p).length ≤ a.size :=
    (List.takeWhile_prefix p).length_le
  exact bisect_eq h 0 a.size (Nat.zero_le _) hle (Nat.le_refl _)

theorem getElem?_partitionPoint (h : a.toList.Pairwise fun r s => p s = true → p r = true) :
    a[partitionPoint a p]? = (a.toList.dropWhile p).head? := by
  rw [partitionPoint_eq h, ← Array.getElem?_toList]
  calc a.toList[(a.toList.takeWhile p).length]?
      = (a.toList.takeWhile p ++ a.toList.dropWhile p)[(a.toList.takeWhile p).length]? := by
        rw [List.takeWhile_append_dropWhile]
    _ = (a.toList.dropWhile p).head? := by
        rw [List.getElem?_append_right (Nat.le_refl _), Nat.sub_self, List.head?_eq_getElem?]

theorem before?_partitionPoint (h : a.toList.Pairwise fun r s => p s = true → p r = true) :
    before? a (partitionPoint a p) = (a.toList.takeWhile p).getLast? := by
  rw [partitionPoint_eq h, List.getLast?_eq_getElem?]
  cases hn : (a.toList.takeWhile p).length with
  | zero =>
    rw [List.length_eq_zero_iff.mp hn]
    rfl
  | succ n =>
    calc a[n]? = (a.toList.takeWhile p ++ a.toList.dropWhile p)[n]? := by
          rw [List.takeWhile_append_dropWhile, Array.getElem?_toList]
      _ = (a.toList.takeWhile p)[n + 1 - 1]? := by
          rw [List.getElem?_append_left (by omega), Nat.add_sub_cancel]

end Bisection

/-- In a list that a test splits in two, the members that pass it stand in front. -/
theorem filter_eq_takeWhile {l : List Region} {p : Region → Bool}
    (h : l.Pairwise fun r s => p s = true → p r = true) : l.filter p = l.takeWhile p := by
  induction l with
  | nil => rfl
  | cons r rest ih =>
    obtain ⟨hr, hrest⟩ := List.pairwise_cons.mp h
    rw [List.filter_cons, List.takeWhile_cons, ih hrest]
    cases hp : p r with
    | true => rfl
    | false =>
      have hnone : rest.takeWhile p = [] := by
        rw [← ih hrest, List.filter_eq_nil_iff]
        intro s hs hps
        rw [hr s hs hps] at hp
        cases hp
      simp [hnone]

theorem find?_eq_head?_dropWhile (p : Region → Bool) (l : List Region) :
    l.find? p = (l.dropWhile fun r => !p r).head? := by
  induction l with
  | nil => rfl
  | cons r rest ih =>
    rw [List.find?_cons, List.dropWhile_cons]
    cases p r <;> simp [ih]

/-- Under every key stands the region that starts there, and an array is in order. -/
def Ordered : RegionIndex → Prop
  | .keyed t => ∀ e ∈ t.entries, e.1 = e.2.start
  | .sorted a => Region.Rising a.toList

theorem ordered_empty (kind : IndexKind) : (empty kind).Ordered := by
  cases kind
  · exact fun e he => (List.not_mem_nil he).elim
  · exact List.Pairwise.nil

theorem toList_empty (kind : IndexKind) : (empty kind).toList = [] := by cases kind <;> rfl

theorem ordered_clear (x : RegionIndex) : x.clear.Ordered := by
  cases x
  · exact fun e he => (List.not_mem_nil he).elim
  · exact List.Pairwise.nil

theorem toList_clear (x : RegionIndex) : x.clear.toList = [] := by cases x <;> rfl

/-- What adding a region to an index comes to: it goes to its place, unless another starts where it does. -/
def Places (x : RegionIndex) (r : Region) : Prop :=
  (∃ s ∈ x.toList, s.start = r.start) ∧ x.insert r = .error (.error (.regionOverlap r.start)) ∨
    (∀ s ∈ x.toList, s.start ≠ r.start) ∧
      ∃ y, x.insert r = .ok y ∧ y.Ordered ∧ y.toList = r.place x.toList

variable {x : RegionIndex} {r : Region}

namespace Ordered

theorem rising (h : x.Ordered) : Region.Rising x.toList := by
  cases x with
  | keyed t =>
    refine List.pairwise_map.mpr (t.sorted.imp_of_mem fun he hd hlt => ?_)
    rw [← h _ he, ← h _ hd]
    exact Std.compare_eq_lt.mp hlt
  | sorted a => exact h

theorem entries_eq {t : Table Word Region} (h : (keyed t).Ordered) :
    t.entries = t.values.map fun r => (r.start, r) := by
  unfold Table.values
  rw [List.map_map]
  exact (List.map_id _).symm.trans (List.map_congr_left fun e he => Prod.ext (h e he) rfl)

theorem get?_eq {t : Table Word Region} (h : (keyed t).Ordered) (w : Word) :
    t.get? w = t.values.find? fun r => decide (r.start = w) := by
  unfold Table.get?
  rw [h.entries_eq]
  induction t.values with
  | nil => rfl
  | cons r rest ih =>
    rw [List.map_cons, Table.lookup_cons_if, List.find?_cons, ih]
    by_cases hw : r.start = w
    · simp [hw]
    · simp [hw, Ne.symm hw]

theorem get?_start {t : Table Word Region} (h : (keyed t).Ordered) (hr : r ∈ t.values) :
    t.get? r.start = some r := by
  rw [h.get?_eq]
  cases hfind : t.values.find? (fun s => decide (s.start = r.start)) with
  | none => simpa using List.find?_eq_none.mp hfind r hr
  | some s =>
    have hs : s.start = r.start := by simpa using List.find?_some hfind
    rw [h.rising.eq_of_start (List.mem_of_find?_eq_some hfind) hr hs]

theorem head?_eq {l : List Region} (h : Region.Rising l) (w : Word) (p : Region → Bool)
    (hp : ∀ r, p r = true → r.start = w) :
    ((l.dropWhile fun r => decide (r.start < w)).head?).filter p = l.find? p := by
  induction l with
  | nil => rfl
  | cons r rest ih =>
    obtain ⟨hr, hrest⟩ := List.pairwise_cons.mp h
    rw [List.dropWhile_cons, List.find?_cons]
    by_cases hlt : r.start < w
    · have hfalse : p r = false := by
        cases hpr : p r with
        | false => rfl
        | true => exact absurd (hp r hpr) (UInt64.ne_of_lt hlt)
      rw [if_pos (decide_eq_true hlt), hfalse, ih hrest]
    · rw [if_neg (by simpa using hlt), List.head?_cons, Option.filter_some]
      cases hpr : p r with
      | true => rfl
      | false =>
        refine (List.find?_eq_none.mpr fun s hs hps => hlt ?_).symm
        exact hp s hps ▸ hr s hs

theorem find?_sorted {a : Array Region} (h : Region.Rising a.toList) (q : Region) (m : MatchMask) :
    (sorted a).find? q m = a.toList.find? fun r => r.agrees q m := by
  change (positionOf? a q m).bind (fun position => a[position]?) = _
  unfold positionOf?
  cases hm : m.start with
  | true =>
    have hfirst := getElem?_partitionPoint (h.pairwise_below q.start)
    have hfound := head?_eq h q.start (fun r => r.agrees q m) fun r hr =>
      Region.start_of_agrees hr hm
    rw [if_pos rfl, ← hfound, ← hfirst]
    change _ = Option.filter _ a[lowerBound a q.start]?
    simp only
    cases hr : a[lowerBound a q.start]? with
    | none => rfl
    | some r =>
      simp only [Option.filter_some]
      split
      · exact hr
      · rfl
  | false =>
    rw [if_neg Bool.false_ne_true]
    change Option.bind (a.findIdx? fun r => r.agrees q m) _ = _
    have hlist : a.findIdx? (fun r => r.agrees q m) = a.toList.findIdx? fun r => r.agrees q m := by
      rw [← List.findIdx?_toArray]
    rw [hlist, List.find?_eq_getElem?_findIdx]
    cases hn : a.toList.findIdx? (fun r => r.agrees q m) with
    | none =>
      rw [List.findIdx?_eq_none_iff] at hn
      rw [List.findIdx_eq_length_of_false hn, List.getElem?_eq_none (Nat.le_refl _)]
      rfl
    | some n =>
      rw [(List.findIdx?_eq_some_iff_findIdx_eq.mp hn).2, Option.bind_some, Array.getElem?_toList]

theorem find?_eq (h : x.Ordered) (q : Region) (m : MatchMask) :
    x.find? q m = x.toList.find? fun r => r.agrees q m := by
  cases x with
  | sorted a => exact find?_sorted h q m
  | keyed t =>
    change (keyOf? t q m).bind t.get? = t.values.find? _
    unfold keyOf?
    cases hm : m.start with
    | true =>
      have hfound := h.rising.find?_start q.start (fun r => r.agrees q m) fun r hr =>
        Region.start_of_agrees hr hm
      rw [if_pos rfl, get?_eq h]
      change (t.values.find? _).filter _ = t.values.find? _ at hfound
      rw [← hfound]
      cases hr : t.values.find? (fun r => decide (r.start = q.start)) with
      | none => rfl
      | some r =>
        rw [Option.filter_some]
        change Option.bind (if r.agrees q m then some r.start else none) t.get? = _
        split
        · exact h.get?_start (List.mem_of_find?_eq_some hr)
        · rfl
    | false =>
      rw [if_neg Bool.false_ne_true]
      cases hr : t.values.find? (fun r => r.agrees q m) with
      | none => rfl
      | some r => exact h.get?_start (List.mem_of_find?_eq_some hr)

theorem nextFrom?_eq (h : x.Ordered) (w : Word) : x.nextFrom? w = x.toList.find? fun r => decide (w ≤ r.start) := by
  cases x with
  | keyed t =>
    change (t.entries.find? fun e => decide (w ≤ e.1)).map (·.2) = t.values.find? _
    rw [h.entries_eq, List.find?_map, Option.map_map]
    exact congrFun Option.map_id _
  | sorted a =>
    change a[lowerBound a w]? = _
    rw [show a[lowerBound a w]? = _ from getElem?_partitionPoint (h.rising.pairwise_below w), find?_eq_head?_dropWhile]
    congr 2
    funext r
    rw [← decide_not]
    exact decide_eq_decide.mpr UInt64.not_le.symm

theorem nextFrom?_eq_some_iff (h : x.Ordered) {w : Word} :
    x.nextFrom? w = some r ↔ r ∈ x.toList ∧ w ≤ r.start ∧ ∀ s ∈ x.toList, w ≤ s.start → r.start ≤ s.start := by
  have hleast : ∀ {s}, x.nextFrom? w = some s →
      s ∈ x.toList ∧ w ≤ s.start ∧ ∀ s' ∈ x.toList, w ≤ s'.start → s.start ≤ s'.start := by
    intro s hs
    rw [h.nextFrom?_eq] at hs
    exact ⟨List.mem_of_find?_eq_some hs, of_decide_eq_true (List.find?_some hs :), fun _ => h.rising.find?_le hs⟩
  refine ⟨hleast, fun ⟨hr, hle, hfirst⟩ => ?_⟩
  cases hnext : x.nextFrom? w with
  | none =>
    rw [h.nextFrom?_eq] at hnext
    exact absurd (decide_eq_true hle) (List.find?_eq_none.mp hnext r hr)
  | some s =>
    obtain ⟨hs, hle', hfirst'⟩ := hleast hnext
    have hstart : s.start = r.start := UInt64.le_antisymm (hfirst' r hr hle) (hfirst s hs hle')
    rw [h.rising.eq_of_start hs hr hstart]

theorem nextFrom?_eq_none_iff (h : x.Ordered) {w : Word} : x.nextFrom? w = none ↔ ∀ s ∈ x.toList, s.start < w := by
  rw [h.nextFrom?_eq, List.find?_eq_none]
  refine forall₂_congr fun s _ => ?_
  rw [decide_eq_true_iff, UInt64.not_le]

theorem last?_eq {t : Table Word Region} (h : (keyed t).Ordered) (p : Word → Bool) :
    t.last? p = (t.values.filter fun r => p r.start).getLast? := by
  unfold Table.last?
  rw [h.entries_eq, List.filter_map, List.getLast?_map, Option.map_map]
  exact congrFun Option.map_id _

/-- The only region that may overlap another is the last of those that start below its end. -/
theorem overlapping?_eq (h : x.Ordered) (q : Region) :
    x.overlapping? q = if q.length = 0 then none else
      ((x.toList.filter fun r => decide (r.start < q.stop)).getLast?).filter fun r => decide (q.start < r.stop) := by
  unfold overlapping?
  split
  · rfl
  · cases x with
    | keyed t =>
      change (t.last? fun w => decide (w < q.stop)).filter _ = _
      rw [h.last?_eq]
      rfl
    | sorted a =>
      have hbelow := h.rising.pairwise_below q.stop
      change (before? a (lowerBound a q.stop)).filter _ = _
      rw [show before? a (lowerBound a q.stop) = _ from before?_partitionPoint hbelow, filter_eq_takeWhile hbelow]
      rfl

theorem containing?_eq (h : x.Ordered) (address : Word) :
    x.containing? address = ((x.toList.filter fun r => decide (r.start ≤ address)).getLast?).filter
      fun r => r.containsAddress address := by
  unfold containing?
  cases x with
  | keyed t =>
    change (t.last? fun w => decide (w ≤ address)).filter _ = _
    rw [h.last?_eq]
    rfl
  | sorted a =>
    have hbelow : a.toList.Pairwise fun r s => decide (s.start ≤ address) = true → decide (r.start ≤ address) = true :=
      h.rising.imp fun hlt hle => decide_eq_true (UInt64.le_of_lt (UInt64.lt_of_lt_of_le hlt (of_decide_eq_true hle)))
    change (before? a (partitionPoint a fun r => decide (r.start ≤ address))).filter _ = _
    rw [before?_partitionPoint hbelow, ← filter_eq_takeWhile hbelow]
    rfl

theorem insertEntry_eq {l : List Region} (h : Region.Rising l) (fresh : ∀ s ∈ l, s.start ≠ r.start) :
    Table.insertEntry r.start r (l.map fun s => (s.start, s)) = (r.place l).map fun s => (s.start, s) := by
  induction l with
  | nil => rfl
  | cons s rest ih =>
    obtain ⟨hs, hrest⟩ := List.pairwise_cons.mp h
    unfold Region.place
    rw [List.map_cons, List.takeWhile_cons, List.dropWhile_cons]
    simp only [Table.insertEntry]
    by_cases hlt : s.start < r.start
    · have hgt : compare r.start s.start = .gt := Std.compare_eq_gt.mpr hlt
      rw [hgt, if_pos (decide_eq_true hlt), if_pos (decide_eq_true hlt)]
      exact congrArg _ (ih hrest fun q hq => fresh q (List.mem_cons_of_mem _ hq))
    · have hrs : r.start < s.start :=
        UInt64.lt_of_le_of_ne (UInt64.not_lt.mp hlt) fun e => fresh s List.mem_cons_self e.symm
      have hcompare : compare r.start s.start = .lt := Std.compare_eq_lt.mpr hrs
      rw [hcompare, if_neg (by simpa using hlt), if_neg (by simpa using hlt)]
      rfl

theorem places_keyed {t : Table Word Region} (h : (keyed t).Ordered) (r : Region) : (keyed t).Places r := by
  have hinsert : (keyed t).insert r = if (t.get? r.start).isSome then Failure.raise (.regionOverlap r.start)
      else pure (.keyed (t.insert r.start r)) := rfl
  cases hget : t.get? r.start with
  | some s =>
    rw [hget] at hinsert
    refine .inl ⟨⟨s, Table.mem_values_of_get? hget, ?_⟩, hinsert⟩
    rw [h.get?_eq] at hget
    simpa using List.find?_some hget
  | none =>
    rw [hget] at hinsert
    have fresh : ∀ s ∈ t.values, s.start ≠ r.start := by
      rw [h.get?_eq] at hget
      simpa using hget
    have hentries : (t.insert r.start r).entries = (r.place t.values).map fun s => (s.start, s) := by
      change Table.insertEntry r.start r t.entries = _
      rw [h.entries_eq]
      exact insertEntry_eq h.rising fresh
    refine .inr ⟨fresh, .keyed (t.insert r.start r), hinsert, ?_, ?_⟩
    · intro e he
      rw [hentries] at he
      obtain ⟨s, -, rfl⟩ := List.mem_map.mp he
      rfl
    · change (t.insert r.start r).entries.map (·.2) = r.place t.values
      rw [hentries, List.map_map]
      exact List.map_id _

theorem insertIdx_takeWhile (p : Region → Bool) (l : List Region) (r : Region) :
    l.insertIdx (l.takeWhile p).length r = l.takeWhile p ++ r :: l.dropWhile p := by
  induction l with
  | nil => rfl
  | cons s rest ih =>
    rw [List.takeWhile_cons, List.dropWhile_cons]
    cases p s with
    | true => exact congrArg _ ih
    | false => rfl

theorem places_sorted {a : Array Region} (h : Region.Rising a.toList) (r : Region) : (sorted a).Places r := by
  have hbelow := h.pairwise_below r.start
  have hlength : lowerBound a r.start = (a.toList.takeWhile fun s => decide (s.start < r.start)).length :=
    partitionPoint_eq hbelow
  have hsize : lowerBound a r.start ≤ a.size := hlength ▸ (List.takeWhile_prefix _).length_le
  have hhead := head?_eq h r.start (fun s => decide (s.start = r.start)) fun s hs => of_decide_eq_true hs
  rw [← show a[lowerBound a r.start]? = _ from getElem?_partitionPoint hbelow] at hhead
  have hinsert : (sorted a).insert r =
      (a[lowerBound a r.start]?.filter fun s => decide (s.start = r.start)).elim
        (pure (.sorted (a.insertIdxIfInBounds (lowerBound a r.start) r)))
        fun _ => Failure.raise (.regionOverlap r.start) := by
    unfold insert
    simp only
    cases a[lowerBound a r.start]? with
    | none => rfl
    | some s =>
      simp only
      by_cases hs : s.start = r.start
      · rw [if_pos hs, Option.filter_some, if_pos (by simpa using hs)]
        rfl
      · rw [if_neg hs, Option.filter_some, if_neg (by simpa using hs)]
        rfl
  rw [hhead] at hinsert
  cases hfind : a.toList.find? (fun s => decide (s.start = r.start)) with
  | some s =>
    rw [hfind] at hinsert
    exact .inl ⟨⟨s, List.mem_of_find?_eq_some hfind, by simpa using List.find?_some hfind⟩, hinsert⟩
  | none =>
    rw [hfind] at hinsert
    have fresh : ∀ s ∈ a.toList, s.start ≠ r.start := by simpa using hfind
    have hlist : (a.insertIdxIfInBounds (lowerBound a r.start) r).toList = r.place a.toList := by
      rw [Array.insertIdxIfInBounds, dif_pos hsize, Array.toList_insertIdx, hlength]
      exact insertIdx_takeWhile _ _ r
    refine .inr ⟨fresh, _, hinsert, ?_, hlist⟩
    change Region.Rising _
    rw [hlist]
    exact h.place fresh

/-- A region goes to its place, unless another starts where it does. -/
theorem places (h : x.Ordered) (r : Region) : x.Places r := by
  cases x with
  | keyed t => exact places_keyed h r
  | sorted a => exact places_sorted h r

theorem eraseIdx_eq {l : List Region} (h : Region.Rising l) {n : Nat} (hr : l[n]? = some r) :
    l.eraseIdx n = l.filter fun s => !decide (s.start = r.start) := by
  induction l generalizing n with
  | nil => rfl
  | cons s rest ih =>
    obtain ⟨hs, hrest⟩ := List.pairwise_cons.mp h
    cases n with
    | zero =>
      cases hr
      rw [List.eraseIdx_cons_zero, List.filter_cons, decide_eq_true rfl]
      refine (List.filter_eq_self.mpr fun q hq => ?_).symm
      simpa using (UInt64.ne_of_lt (hs q hq)).symm
    | succ n =>
      have hr : rest[n]? = some r := hr
      have hne : s.start ≠ r.start := UInt64.ne_of_lt (hs r (List.mem_of_getElem? hr))
      rw [List.eraseIdx_cons_succ, List.filter_cons, ih hrest hr, decide_eq_false hne]
      rfl

/-- Of the regions that agree with a question, the first one goes; all others stay. -/
theorem remove?_cases (h : x.Ordered) (q : Region) (m : MatchMask) :
    x.find? q m = none ∧ x.remove? q m = none ∨
      ∃ r y, x.find? q m = some r ∧ x.remove? q m = some (r, y) ∧ y.Ordered ∧
        y.toList = x.toList.filter fun s => !decide (s.start = r.start) := by
  have hrising := h.rising
  cases x with
  | keyed t =>
    have hfind : (keyed t).find? q m = (keyOf? t q m).bind t.get? := rfl
    have hremove : (keyed t).remove? q m =
        (keyOf? t q m).bind fun key => (t.get? key).bind fun r => some (r, .keyed (t.erase key)) := rfl
    cases hkey : keyOf? t q m with
    | none => exact .inl ⟨by rw [hfind, hkey]; rfl, by rw [hremove, hkey]; rfl⟩
    | some key =>
      rw [hkey, Option.bind_some] at hfind hremove
      cases hget : t.get? key with
      | none => exact .inl ⟨hfind.trans hget, by rw [hremove, hget]; rfl⟩
      | some r =>
        have hstart : key = r.start := by
          rw [h.get?_eq] at hget
          have hr : r.start = key := by simpa using List.find?_some hget
          exact hr.symm
        refine .inr ⟨r, .keyed (t.erase key), hfind.trans hget, by rw [hremove, hget]; rfl, ?_, ?_⟩
        · exact fun e he => h e (List.mem_filter.mp he).1
        · change (t.entries.filter fun e => !(e.1 == key)).map (·.2) = t.values.filter _
          rw [h.entries_eq, List.filter_map, List.map_map, hstart]
          exact List.map_id _
  | sorted a =>
    have hfind : (sorted a).find? q m = (positionOf? a q m).bind fun position => a[position]? := rfl
    have hremove : (sorted a).remove? q m = (positionOf? a q m).bind fun position =>
        a[position]?.bind fun r => some (r, .sorted (a.eraseIdxIfInBounds position)) := rfl
    cases hposition : positionOf? a q m with
    | none => exact .inl ⟨by rw [hfind, hposition]; rfl, by rw [hremove, hposition]; rfl⟩
    | some n =>
      rw [hposition, Option.bind_some] at hfind hremove
      cases hget : a[n]? with
      | none => exact .inl ⟨hfind.trans hget, by rw [hremove, hget]; rfl⟩
      | some r =>
        obtain ⟨hn, -⟩ := Array.getElem?_eq_some_iff.mp hget
        have hlist : (a.eraseIdxIfInBounds n).toList = a.toList.filter fun s => !decide (s.start = r.start) := by
          rw [Array.eraseIdxIfInBounds, dif_pos hn, Array.toList_eraseIdx]
          exact eraseIdx_eq hrising (by rw [Array.getElem?_toList]; exact hget)
        refine .inr ⟨r, .sorted (a.eraseIdxIfInBounds n), hfind.trans hget, by rw [hremove, hget]; rfl, ?_, hlist⟩
        change Region.Rising (a.eraseIdxIfInBounds n).toList
        rw [hlist]
        exact hrising.filter _

theorem find?_self (h : x.Ordered) (hr : r ∈ x.toList) {q : Region} (hq : q.start = r.start) :
    x.find? q .byStart = some r := by
  have hagrees : ∀ s : Region, s.agrees q .byStart = true ↔ s.start = r.start := by
    intro s
    simp [Region.agrees, MatchMask.byStart, hq]
  rw [h.find?_eq]
  cases hfind : x.toList.find? (fun s => s.agrees q .byStart) with
  | none => exact absurd ((hagrees r).mpr rfl) (List.find?_eq_none.mp hfind r hr)
  | some s =>
    exact congrArg some
      (h.rising.eq_of_start (List.mem_of_find?_eq_some hfind) hr ((hagrees s).mp (List.find?_some hfind :)))

theorem remove?_self (h : x.Ordered) (hr : r ∈ x.toList) :
    ∃ y, x.find? r .byStart = some r ∧ x.remove? r .byStart = some (r, y) ∧ y.Ordered ∧
      y.toList = x.toList.filter fun s => !decide (s.start = r.start) := by
  have hfound := h.find?_self hr rfl
  rcases h.remove?_cases r .byStart with ⟨hnone, -⟩ | ⟨q, y, hfind, hremove, hordered, hlist⟩
  · rw [hfound] at hnone
    cases hnone
  · obtain rfl := Option.some.inj (hfound.symm.trans hfind)
    exact ⟨y, hfound, hremove, hordered, hlist⟩

theorem set_eq {l : List Region} (h : Region.Rising l) {n : Nat} (hr : l[n]? = some r) (f : Region → Region) :
    l.set n (f r) = l.map fun s => if s.start = r.start then f s else s := by
  induction l generalizing n with
  | nil => cases hr
  | cons s rest ih =>
    obtain ⟨hs, hrest⟩ := List.pairwise_cons.mp h
    cases n with
    | zero =>
      cases hr
      rw [List.set_cons_zero, List.map_cons, if_pos rfl]
      refine congrArg _ ((List.map_id _).symm.trans (List.map_congr_left fun q hq => ?_))
      exact (if_neg (UInt64.ne_of_lt (hs q hq)).symm).symm
    | succ n =>
      have hr : rest[n]? = some r := hr
      have hne : s.start ≠ r.start := UInt64.ne_of_lt (hs r (List.mem_of_getElem? hr))
      rw [List.set_cons_succ, List.map_cons, if_neg hne, ih hrest hr]

theorem modify_eq (h : x.Ordered) {w : Word} {f : Region → Region}
    (hf : ∀ r ∈ x.toList, r.start = w → (f r).start = w) :
    (x.modify w f).Ordered ∧ (x.modify w f).toList = x.toList.map fun r => if r.start = w then f r else r := by
  have hrising := h.rising
  have same : (∀ r ∈ x.toList, r.start ≠ w) →
      x.toList.map (fun r => if r.start = w then f r else r) = x.toList := fun hne =>
    (List.map_congr_left fun r hr => if_neg (hne r hr)).trans (List.map_id _)
  cases x with
  | keyed t =>
    cases hget : t.get? w with
    | none =>
      have hmodify : (keyed t).modify w f = .keyed t := by simp only [modify, hget]
      rw [hmodify, same]
      · exact ⟨h, rfl⟩
      · rw [h.get?_eq] at hget
        change ∀ r ∈ t.values, r.start ≠ w
        simpa using hget
    | some r =>
      have hmodify : (keyed t).modify w f = .keyed (t.insert w (f r)) := by simp only [modify, hget]
      have hr := h.get?_eq w ▸ hget
      have hmem := List.mem_of_find?_eq_some hr
      have hstart : r.start = w := by simpa using List.find?_some hr
      have hentries : (t.insert w (f r)).entries =
          (t.values.map fun r => if r.start = w then f r else r).map fun s => (s.start, s) := by
        change Table.insertEntry w (f r) t.entries = _
        rw [Table.insertEntry_of_key t.sorted ((t.get?_eq_some_iff w r).mp hget), h.entries_eq, List.map_map,
          List.map_map]
        refine List.map_congr_left fun s hs => ?_
        by_cases hw : s.start = w
        · obtain rfl : s = r := hrising.eq_of_start hs hmem (hw.trans hstart.symm)
          simp [hw, hf s hmem hstart]
        · simp [hw]
      rw [hmodify]
      refine ⟨fun e he => ?_, ?_⟩
      · rw [hentries] at he
        obtain ⟨s, -, rfl⟩ := List.mem_map.mp he
        rfl
      · change (t.insert w (f r)).entries.map (·.2) = _
        rw [hentries, List.map_map]
        exact List.map_id _
  | sorted a =>
    have hhead := head?_eq hrising w (fun s => decide (s.start = w)) fun s hs => of_decide_eq_true hs
    rw [show (sorted a).toList = a.toList from rfl,
      ← show a[lowerBound a w]? = _ from getElem?_partitionPoint (hrising.pairwise_below w)] at hhead
    have absent : a.toList.find? (fun s => decide (s.start = w)) = none →
        (sorted a).toList.map (fun r => if r.start = w then f r else r) = (sorted a).toList :=
      fun hnone => same (by simpa [toList] using hnone)
    cases hget : a[lowerBound a w]? with
    | none =>
      have hmodify : (sorted a).modify w f = .sorted a := by simp only [modify, hget]
      rw [hget] at hhead
      rw [hmodify, absent hhead.symm]
      exact ⟨h, rfl⟩
    | some r =>
      have hmodify : (sorted a).modify w f =
          if r.start = w then .sorted (a.setIfInBounds (lowerBound a w) (f r)) else .sorted a := by
        simp only [modify, hget]
      rw [hget] at hhead
      by_cases hw : r.start = w
      · rw [if_pos hw] at hmodify
        have hlist : (a.setIfInBounds (lowerBound a w) (f r)).toList =
            a.toList.map fun r => if r.start = w then f r else r := by
          have hset := set_eq h (l := a.toList) (by rw [Array.getElem?_toList]; exact hget) f
          rw [Array.toList_setIfInBounds, hset, hw]
        rw [hmodify]
        refine ⟨?_, hlist⟩
        change Region.Rising (a.setIfInBounds (lowerBound a w) (f r)).toList
        rw [hlist]
        exact hrising.map_at hf
      · rw [if_neg hw] at hmodify
        rw [Option.filter_some, if_neg (by simpa using hw)] at hhead
        rw [hmodify, absent hhead.symm]
        exact ⟨h, rfl⟩

end Ordered

end RegionIndex

end RegionGuard

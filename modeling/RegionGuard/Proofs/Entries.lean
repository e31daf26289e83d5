import RegionGuard.Table
set_option autoImplicit false

namespace RegionGuard

namespace Table

variable {κ α β : Type} [Ord κ]

omit [Ord κ] in
theorem lookup_of_nodup [DecidableEq κ] {l : List (κ × α)} (distinct : (l.map (·.1)).Nodup) {k : κ} {v : α}
    (h : (k, v) ∈ l) : l.lookup k = some v := by
  induction l with
  | nil => cases h
  | cons e rest ih =>
    rw [List.map_cons, List.nodup_cons] at distinct
    rw [lookup_cons_if]
    rcases List.mem_cons.mp h with rfl | h
    · rw [if_pos rfl]
    · have hne : k ≠ e.1 := by
        intro hk
        exact distinct.1 (List.mem_map.mpr ⟨(k, v), h, hk⟩)
      rw [if_neg hne, ih distinct.2 h]

section Lookup

variable [Std.TransOrd κ] [Std.LawfulEqOrd κ] [DecidableEq κ]

omit [Std.TransOrd κ] in
theorem lookup_eq_some_iff {l : List (κ × α)} (sorted : l.Pairwise fun a b => compare a.1 b.1 = .lt)
    (k : κ) (v : α) : l.lookup k = some v ↔ (k, v) ∈ l := by
  induction l with
  | nil => simp
  | cons e rest ih =>
    rw [List.pairwise_cons] at sorted
    rw [lookup_cons_if, List.mem_cons]
    by_cases h : k = e.1
    · rw [if_pos h]
      constructor
      · intro hv
        left
        cases hv
        rw [h]
      · rintro (hv | hv)
        · rw [← hv]
        · have lt := sorted.1 _ hv
          rw [← h] at lt
          simp at lt
    · rw [if_neg h, ih sorted.2]
      constructor
      · exact .inr
      · rintro (hv | hv)
        · exact absurd (congrArg Prod.fst hv) h
        · exact hv

omit [Std.TransOrd κ] in
theorem get?_eq_some_iff (t : Table κ α) (k : κ) (v : α) : t.get? k = some v ↔ (k, v) ∈ t.entries :=
  lookup_eq_some_iff t.sorted k v

omit [Std.TransOrd κ] in
theorem mem_values_of_get? {t : Table κ α} {k : κ} {v : α} (h : t.get? k = some v) : v ∈ t.values :=
  List.mem_map.mpr ⟨(k, v), (t.get?_eq_some_iff k v).mp h, rfl⟩

omit [Std.TransOrd κ] in
theorem mem_values_iff {t : Table κ α} {v : α} : v ∈ t.values ↔ ∃ k, t.get? k = some v := by
  constructor
  · intro h
    obtain ⟨⟨k, w⟩, he, rfl⟩ := List.mem_map.mp h
    exact ⟨k, (t.get?_eq_some_iff k w).mpr he⟩
  · rintro ⟨k, h⟩
    exact mem_values_of_get? h

omit [Std.TransOrd κ] in
theorem mem_keys_iff {t : Table κ α} {k : κ} : k ∈ t.keys ↔ (t.get? k).isSome := by
  rw [Option.isSome_iff_exists]
  constructor
  · intro h
    obtain ⟨⟨j, v⟩, he, rfl⟩ := List.mem_map.mp h
    exact ⟨v, (t.get?_eq_some_iff j v).mpr he⟩
  · rintro ⟨v, h⟩
    exact List.mem_map.mpr ⟨(k, v), (t.get?_eq_some_iff k v).mp h, rfl⟩

omit [DecidableEq κ] in
theorem insertEntry_of_mem {l : List (κ × α)} (sorted : l.Pairwise fun a b => compare a.1 b.1 = .lt)
    {k : κ} {v : α} (h : (k, v) ∈ l) : insertEntry k v l = l := by
  induction l with
  | nil => cases h
  | cons e rest ih =>
    rw [List.pairwise_cons] at sorted
    rcases List.mem_cons.mp h with rfl | h
    · simp [insertEntry]
    · have hgt : compare k e.1 = .gt := Std.OrientedCmp.gt_of_lt (sorted.1 _ h)
      simp only [insertEntry, hgt, ih sorted.2 h]

/-- A value that is set under a key in use takes the place of the old one. -/
theorem insertEntry_of_key {l : List (κ × α)}
    (sorted : l.Pairwise fun a b => compare a.1 b.1 = .lt) {k : κ} {v w : α} (h : (k, w) ∈ l) :
    insertEntry k v l = l.map fun e => if e.1 = k then (k, v) else e := by
  induction l with
  | nil => cases h
  | cons e rest ih =>
    rw [List.pairwise_cons] at sorted
    rcases List.mem_cons.mp h with rfl | h
    · have hrest : rest.map (fun e => if e.1 = k then (k, v) else e) = rest := by
        refine (List.map_congr_left fun e he => ?_).trans (List.map_id _)
        have hne : e.1 ≠ k := by
          rintro rfl
          have hlt := sorted.1 e he
          simp at hlt
        rw [if_neg hne]
        rfl
      simp [insertEntry, hrest]
    · have hlt := sorted.1 _ h
      have hgt : compare k e.1 = .gt := Std.OrientedCmp.gt_of_lt hlt
      have hne : e.1 ≠ k := by
        rintro rfl
        simp at hlt
      simp [insertEntry, hgt, hne, ih sorted.2 h]

omit [DecidableEq κ] [Std.TransOrd κ] in
theorem insertEntry_insertEntry (k : κ) (v w : α) (l : List (κ × α)) :
    insertEntry k w (insertEntry k v l) = insertEntry k w l := by
  induction l with
  | nil => simp [insertEntry]
  | cons e rest ih =>
    simp only [insertEntry]
    split
    · simp [insertEntry]
    · simp [insertEntry]
    · rename_i hgt
      simp only [insertEntry, hgt, ih]

omit [DecidableEq κ] in
/-- The value that is set last under a key counts. -/
theorem insert_insert (t : Table κ α) (k : κ) (v w : α) : (t.insert k v).insert k w = t.insert k w :=
  Table.ext (insertEntry_insertEntry k v w t.entries)

/-- Setting a value that is there already changes nothing. -/
theorem insert_of_get? {t : Table κ α} {k : κ} {v : α} (h : t.get? k = some v) : t.insert k v = t :=
  Table.ext (insertEntry_of_mem t.sorted ((t.get?_eq_some_iff k v).mp h))

end Lookup

theorem get?_map_keyed [DecidableEq κ] (f : κ → α → β) (t : Table κ α) (k : κ) :
    (t.map f).get? k = (t.get? k).map (f k) := by
  simp only [get?, map]
  induction t.entries with
  | nil => rfl
  | cons e rest ih =>
    rw [List.map_cons, lookup_cons_if, lookup_cons_if, ih]
    split
    · rename_i hk
      rw [hk]
      rfl
    · rfl

section Map

variable (f : α → β)

theorem get?_map [DecidableEq κ] (t : Table κ α) (k : κ) :
    (t.map fun _ => f).get? k = (t.get? k).map f := get?_map_keyed (fun _ => f) t k

theorem contains_map [DecidableEq κ] (t : Table κ α) (k : κ) :
    (t.map fun _ => f).contains k = t.contains k := by
  simp only [contains, get?_map, Option.isSome_map]

theorem insertEntry_map (k : κ) (v : α) (l : List (κ × α)) :
    insertEntry k (f v) (l.map fun e => (e.1, f e.2)) = (insertEntry k v l).map fun e => (e.1, f e.2) := by
  induction l with
  | nil => rfl
  | cons e rest ih =>
    simp only [insertEntry, List.map_cons]
    split
    · rfl
    · rfl
    · rw [ih, List.map_cons]

theorem map_insert [Std.TransOrd κ] [Std.LawfulEqOrd κ] (t : Table κ α) (k : κ) (v : α) :
    (t.insert k v).map (fun _ => f) = (t.map fun _ => f).insert k (f v) :=
  Table.ext (insertEntry_map f k v t.entries).symm

theorem map_filter (p : κ → Bool) (t : Table κ α) :
    (t.filter fun k _ => p k).map (fun _ => f) = (t.map fun _ => f).filter fun k _ => p k := by
  apply Table.ext
  simp only [map, filter, List.filter_map]
  rfl

theorem map_erase [DecidableEq κ] (t : Table κ α) (k : κ) :
    (t.erase k).map (fun _ => f) = (t.map fun _ => f).erase k :=
  map_filter f (fun j => !(j == k)) t

theorem values_map (t : Table κ α) : (t.map fun _ => f).values = t.values.map f := by
  simp [values, map, Function.comp_def]

theorem last?_map (p : κ → Bool) (t : Table κ α) : (t.map fun _ => f).last? p = (t.last? p).map f := by
  simp only [last?, map, List.filter_map, List.getLast?_map, Option.map_map]
  rfl

end Map

section Keys

variable [Std.TransOrd κ] [Std.LawfulEqOrd κ] [DecidableEq κ]

omit [Std.TransOrd κ] in
theorem mem_keys_erase {t : Table κ α} {j k : κ} : j ∈ (t.erase k).keys ↔ j ∈ t.keys ∧ j ≠ k := by
  rw [mem_keys_iff, mem_keys_iff, get?_erase]
  split
  · simp_all
  · simp_all

omit [Std.TransOrd κ] in
/-- Nothing is removed under a key that is not in use. -/
theorem erase_of_get?_none {t : Table κ α} {k : κ} (h : t.get? k = none) : t.erase k = t := by
  refine Table.ext (List.filter_eq_self.mpr fun e he => ?_)
  have hne : e.1 ≠ k := by
    rintro rfl
    rw [(t.get?_eq_some_iff e.1 e.2).mpr he] at h
    cases h
  simpa using hne

theorem mem_keys_insert {t : Table κ α} {j k : κ} {v : α} : j ∈ (t.insert k v).keys ↔ j = k ∨ j ∈ t.keys := by
  rw [mem_keys_iff, mem_keys_iff, get?_insert]
  split
  · simp_all
  · simp_all

theorem get?_foldl_insert {γ : Type} (key : γ → κ) (v : α) {l : List γ} {t : Table κ α} {k : κ}
    (h : t.get? k = some v ∨ ∃ x ∈ l, key x = k) :
    (l.foldl (fun t x => t.insert (key x) v) t).get? k = some v := by
  induction l generalizing t with
  | nil => exact h.resolve_right fun ⟨x, hx, _⟩ => List.not_mem_nil hx
  | cons y rest ih =>
    refine ih ?_
    rw [get?_insert]
    rcases h with h | ⟨x, hx, rfl⟩
    · left
      split
      · rfl
      · exact h
    · rcases List.mem_cons.mp hx with rfl | hx
      · exact .inl (if_pos rfl)
      · exact .inr ⟨x, hx, rfl⟩

theorem get?_ofList_of_mem {γ : Type} (key : γ → κ) (v : α) {l : List γ} {x : γ} (hx : x ∈ l) :
    (ofList (l.map fun x => (key x, v))).get? (key x) = some v := by
  unfold ofList
  rw [List.foldl_map]
  exact get?_foldl_insert key v (.inr ⟨x, hx, rfl⟩)

/-- Entries of different keys take the place of those that were there. -/
theorem get?_foldl_insert_eq_some {l : List (κ × α)} (distinct : (l.map (·.1)).Nodup) (t : Table κ α) {k : κ} {v : α} :
    (l.foldl (fun t e => t.insert e.1 e.2) t).get? k = some v ↔
      (k, v) ∈ l ∨ k ∉ l.map (·.1) ∧ t.get? k = some v := by
  induction l generalizing t with
  | nil => simp
  | cons e rest ih =>
    rw [List.map_cons, List.nodup_cons] at distinct
    rw [List.foldl_cons, ih distinct.2, get?_insert, List.mem_cons, List.map_cons, List.mem_cons]
    by_cases hk : k = e.1
    · subst hk
      have habsent : (e.1, v) ∉ rest := fun h =>
        distinct.1 (List.mem_map.mpr ⟨(e.1, v), h, rfl⟩)
      simp [habsent, distinct.1, Prod.ext_iff, eq_comm]
    · simp [hk, Prod.ext_iff]

/-- A table that is made from entries of different keys has these entries. -/
theorem get?_ofList_eq_some {l : List (κ × α)} (distinct : (l.map (·.1)).Nodup) {k : κ} {v : α} :
    (ofList l).get? k = some v ↔ (k, v) ∈ l := by
  unfold ofList
  rw [get?_foldl_insert_eq_some distinct]
  simp [get?_empty]

omit [Std.TransOrd κ] in
theorem get?_filter_eq_some {p : κ → α → Bool} {t : Table κ α} {k : κ} {v : α} :
    (t.filter p).get? k = some v ↔ t.get? k = some v ∧ p k v = true := by
  rw [get?_eq_some_iff, get?_eq_some_iff]
  exact List.mem_filter

omit [Std.TransOrd κ] [Std.LawfulEqOrd κ] [DecidableEq κ] in
theorem keys_filter (p : κ → Bool) (t : Table κ α) : (t.filter fun k _ => p k).keys = t.keys.filter p := by
  unfold keys filter
  rw [List.filter_map]
  rfl

omit [Std.TransOrd κ] [DecidableEq κ] in
theorem nodup_keys (t : Table κ α) : t.keys.Nodup :=
  List.pairwise_map.mpr (t.sorted.imp fun hlt heq => by
    rw [heq] at hlt
    simp at hlt)

/-- Keys stand in order, so tables with the same keys list them alike. -/
theorem keys_congr {t : Table κ α} {u : Table κ β} (h : ∀ k, (t.get? k).isSome = (u.get? k).isSome) :
    t.keys = u.keys := by
  have hperm : t.keys.Perm u.keys := (List.perm_ext_iff_of_nodup t.nodup_keys u.nodup_keys).mpr fun k => by
    rw [mem_keys_iff, mem_keys_iff, h]
  have ht : t.keys.Pairwise fun a b => compare a b = .lt := List.pairwise_map.mpr t.sorted
  have hu : u.keys.Pairwise fun a b => compare a b = .lt := List.pairwise_map.mpr u.sorted
  refine hperm.eq_of_pairwise (fun k j _ _ hkj hjk => ?_) ht hu
  rw [Std.OrientedCmp.gt_of_lt hjk] at hkj
  cases hkj

end Keys

theorem mem_values_of_last? {t : Table κ α} {p : κ → Bool} {v : α} (h : t.last? p = some v) :
    v ∈ t.values := by
  obtain ⟨e, he, rfl⟩ := Option.map_eq_some_iff.mp h
  exact List.mem_map.mpr ⟨e, (List.mem_filter.mp (List.mem_of_getLast? he)).1, rfl⟩

section Rebuilt

theorem insertEntry_of_gt {k : κ} {v : α} {l : List (κ × α)} (h : ∀ e ∈ l, compare k e.1 = .gt) :
    insertEntry k v l = l ++ [(k, v)] := by
  induction l with
  | nil => rfl
  | cons e rest ih =>
    simp only [insertEntry, h e List.mem_cons_self, ih fun d hd => h d (List.mem_cons_of_mem _ hd),
      List.cons_append]

variable [Std.TransOrd κ] [Std.LawfulEqOrd κ]

theorem entries_foldl_insert {l : List (κ × α)} {t : Table κ α}
    (sorted : (t.entries ++ l).Pairwise fun a b => compare a.1 b.1 = .lt) :
    (l.foldl (fun t e => t.insert e.1 e.2) t).entries = t.entries ++ l := by
  induction l generalizing t with
  | nil => simp
  | cons e rest ih =>
    have hfirst : (t.insert e.1 e.2).entries = t.entries ++ [e] :=
      insertEntry_of_gt fun d hd => Std.OrientedCmp.gt_of_lt
        ((List.pairwise_append.mp sorted).2.2 d hd e List.mem_cons_self)
    have hsplit : t.entries ++ e :: rest = (t.insert e.1 e.2).entries ++ rest := by
      rw [hfirst, List.append_assoc, List.singleton_append]
    rw [List.foldl_cons, ih (hsplit ▸ sorted), hsplit]

theorem foldl_insert_entries (t : Table κ α) : t.entries.foldl (fun t e => t.insert e.1 e.2) empty = t :=
  Table.ext (entries_foldl_insert (t := empty) t.sorted)

end Rebuilt

end Table

namespace KeySet

variable {κ : Type} [Ord κ] [Std.TransOrd κ] [Std.LawfulEqOrd κ] [DecidableEq κ] {s : KeySet κ} {l : List κ} {j k : κ}

theorem mem_keys_add : j ∈ (s.add k).keys ↔ j = k ∨ j ∈ s.keys := Table.mem_keys_insert

theorem mem_keys_foldl_add : k ∈ (l.foldl KeySet.add s).keys ↔ k ∈ l ∨ k ∈ s.keys := by
  induction l generalizing s with
  | nil => simp
  | cons j rest ih =>
    rw [List.foldl_cons, ih, mem_keys_add, List.mem_cons, or_assoc]
    exact or_left_comm

theorem mem_keys_ofKeys : k ∈ (ofKeys l).keys ↔ k ∈ l := by
  rw [ofKeys, mem_keys_foldl_add]
  simp [Table.empty, Table.keys]

end KeySet

end RegionGuard

set_option autoImplicit false

namespace RegionGuard

structure Table (κ α : Type) [Ord κ] where
  entries : List (κ × α)
  sorted : entries.Pairwise fun a b => compare a.1 b.1 = .lt

namespace Table

variable {κ α β : Type} [Ord κ]

/-- Puts an entry in its place, in front of every greater key, over an equal one. -/
def insertEntry (k : κ) (v : α) : List (κ × α) → List (κ × α)
  | [] => [(k, v)]
  | e :: rest =>
    match compare k e.1 with
    | .lt => (k, v) :: e :: rest
    | .eq => (k, v) :: rest
    | .gt => e :: insertEntry k v rest

theorem key_mem_insertEntry {k : κ} {v : α} {e : κ × α} {l : List (κ × α)}
    (h : e ∈ insertEntry k v l) : e.1 = k ∨ e ∈ l := by
  induction l with
  | nil =>
    simp only [insertEntry, List.mem_singleton] at h
    exact .inl (h ▸ rfl)
  | cons d rest ih =>
    simp only [insertEntry] at h
    split at h
    · rcases List.mem_cons.mp h with h | h
      · exact .inl (h ▸ rfl)
      · exact .inr h
    · rcases List.mem_cons.mp h with h | h
      · exact .inl (h ▸ rfl)
      · exact .inr (List.mem_cons_of_mem _ h)
    · rcases List.mem_cons.mp h with h | h
      · exact .inr (h ▸ List.mem_cons_self)
      · rcases ih h with h | h
        · exact .inl h
        · exact .inr (List.mem_cons_of_mem _ h)

theorem insertEntry_sorted [Std.TransOrd κ] [Std.LawfulEqOrd κ] (k : κ) (v : α)
    {l : List (κ × α)} (h : l.Pairwise fun a b => compare a.1 b.1 = .lt) :
    (insertEntry k v l).Pairwise fun a b => compare a.1 b.1 = .lt := by
  induction l with
  | nil => simp [insertEntry]
  | cons d rest ih =>
    rw [List.pairwise_cons] at h
    simp only [insertEntry]
    split
    · rename_i hlt
      refine List.pairwise_cons.mpr ⟨?_, List.pairwise_cons.mpr h⟩
      intro e he
      rcases List.mem_cons.mp he with he | he
      · exact he ▸ hlt
      · exact Std.TransCmp.lt_trans hlt (h.1 e he)
    · rename_i heq
      refine List.pairwise_cons.mpr ⟨?_, h.2⟩
      intro e he
      rw [Std.LawfulEqCmp.eq_of_compare heq]
      exact h.1 e he
    · rename_i hgt
      refine List.pairwise_cons.mpr ⟨?_, ih h.2⟩
      intro e he
      rcases key_mem_insertEntry he with he | he
      · rw [he]
        exact Std.OrientedCmp.lt_of_gt hgt
      · exact h.1 e he

def empty : Table κ α := ⟨[], List.Pairwise.nil⟩

instance : EmptyCollection (Table κ α) := ⟨empty⟩
instance : Inhabited (Table κ α) := ⟨empty⟩

instance [DecidableEq κ] [DecidableEq α] : DecidableEq (Table κ α) := fun a b =>
  decidable_of_iff (a.entries = b.entries) ⟨fun h => by cases a; cases b; cases h; rfl, fun h => h ▸ rfl⟩

/-- The value under a key. -/
def get? [DecidableEq κ] (t : Table κ α) (k : κ) : Option α := t.entries.lookup k

def contains [DecidableEq κ] (t : Table κ α) (k : κ) : Bool := (t.get? k).isSome

/-- Sets the value under a key. -/
def insert [Std.TransOrd κ] [Std.LawfulEqOrd κ] (t : Table κ α) (k : κ) (v : α) : Table κ α :=
  ⟨insertEntry k v t.entries, insertEntry_sorted k v t.sorted⟩

/-- Keeps the entries that pass a test. -/
def filter (p : κ → α → Bool) (t : Table κ α) : Table κ α :=
  ⟨t.entries.filter fun e => p e.1 e.2, t.sorted.filter _⟩

/-- Removes the entry under a key. -/
def erase [DecidableEq κ] (t : Table κ α) (k : κ) : Table κ α := t.filter fun j _ => !(j == k)

def map (f : κ → α → β) (t : Table κ α) : Table κ β :=
  ⟨t.entries.map fun e => (e.1, f e.1 e.2), by
    rw [List.pairwise_map]
    exact t.sorted⟩

def keys (t : Table κ α) : List κ := t.entries.map (·.1)

def values (t : Table κ α) : List α := t.entries.map (·.2)

/-- The value under the least key that passes a test. -/
def first? (p : κ → Bool) (t : Table κ α) : Option α := (t.entries.find? fun e => p e.1).map (·.2)

/-- The value under the greatest key that passes a test. -/
def last? (p : κ → Bool) (t : Table κ α) : Option α :=
  ((t.entries.filter fun e => p e.1).getLast?).map (·.2)

def size (t : Table κ α) : Nat := t.entries.length

def isEmpty (t : Table κ α) : Bool := t.entries.isEmpty

/-- Inserts pairs from the left, so a later pair wins over an earlier one of the same key. -/
def ofList [Std.TransOrd κ] [Std.LawfulEqOrd κ] (l : List (κ × α)) : Table κ α :=
  l.foldl (fun t e => t.insert e.1 e.2) empty

@[ext] theorem ext {a b : Table κ α} (h : a.entries = b.entries) : a = b := by
  cases a
  cases b
  cases h
  rfl

omit [Ord κ] in
theorem lookup_cons_if [DecidableEq κ] (j : κ) (e : κ × α) (l : List (κ × α)) :
    (e :: l).lookup j = if j = e.1 then some e.2 else l.lookup j := by
  rw [List.lookup_cons]
  by_cases h : j = e.1
  · simp [h]
  · simp [h, beq_eq_false_iff_ne.mpr h]

theorem lookup_insertEntry [Std.LawfulEqOrd κ] [DecidableEq κ] (k j : κ) (v : α)
    (l : List (κ × α)) :
    (insertEntry k v l).lookup j = if j = k then some v else l.lookup j := by
  induction l with
  | nil => simp [insertEntry, lookup_cons_if]
  | cons d rest ih =>
    simp only [insertEntry]
    split
    · rw [lookup_cons_if]
    · rename_i heq
      have hd := Std.LawfulEqCmp.eq_of_compare heq
      rw [lookup_cons_if, lookup_cons_if, ← hd]
      by_cases h : j = k <;> simp [h]
    · rename_i hgt
      rw [lookup_cons_if, lookup_cons_if, ih]
      by_cases hd : j = d.1
      · have hk : ¬ j = k := by
          intro e
          rw [← e, ← hd] at hgt
          simp at hgt
        simp [← hd, hk]
      · simp [hd]

theorem get?_insert [Std.TransOrd κ] [Std.LawfulEqOrd κ] [DecidableEq κ] (t : Table κ α)
    (k j : κ) (v : α) : (t.insert k v).get? j = if j = k then some v else t.get? j :=
  lookup_insertEntry k j v t.entries

theorem get?_insert_self [Std.TransOrd κ] [Std.LawfulEqOrd κ] [DecidableEq κ] (t : Table κ α) (k : κ) (v : α) :
    (t.insert k v).get? k = some v :=
  (get?_insert t k k v).trans (if_pos rfl)

theorem get?_insert_of_ne [Std.TransOrd κ] [Std.LawfulEqOrd κ] [DecidableEq κ] (t : Table κ α) {k j : κ} (h : j ≠ k)
    (v : α) : (t.insert k v).get? j = t.get? j :=
  (get?_insert t k j v).trans (if_neg h)

@[simp] theorem get?_empty [DecidableEq κ] (k : κ) : (empty : Table κ α).get? k = none := rfl

theorem get?_erase [DecidableEq κ] (t : Table κ α) (k j : κ) :
    (t.erase k).get? j = if j = k then none else t.get? j := by
  simp only [get?, erase, filter]
  induction t.entries with
  | nil => simp
  | cons d rest ih =>
    rw [List.filter_cons, lookup_cons_if]
    by_cases hd : d.1 = k
    · have hb : (!(d.1 == k)) = false := by simp [hd]
      rw [hb, if_neg Bool.false_ne_true, ih]
      by_cases hj : j = k
      · simp [hj]
      · have : ¬ j = d.1 := fun e => hj (e.trans hd)
        simp [hj, this]
    · have hb : (!(d.1 == k)) = true := by simp [hd]
      rw [hb, if_pos rfl, lookup_cons_if, ih]
      by_cases hj : j = d.1
      · have : ¬ j = k := fun e => hd (hj.symm.trans e)
        simp [← hj, this]
      · simp [hj]

theorem get?_erase_of_ne [DecidableEq κ] (t : Table κ α) {k j : κ} (h : j ≠ k) : (t.erase k).get? j = t.get? j :=
  (get?_erase t k j).trans (if_neg h)

end Table

abbrev KeySet (κ : Type) [Ord κ] := Table κ Unit

namespace KeySet

variable {κ : Type} [Ord κ]

def add [Std.TransOrd κ] [Std.LawfulEqOrd κ] (s : KeySet κ) (k : κ) : KeySet κ :=
  Table.insert s k ()

def ofKeys [Std.TransOrd κ] [Std.LawfulEqOrd κ] (l : List κ) : KeySet κ := l.foldl add Table.empty

end KeySet

instance natPairOrd : Ord (Nat × Nat) := lexOrd

end RegionGuard

import RegionGuard.Interchange.Code
import RegionGuard.Proofs.Entries
import RegionGuard.Proofs.Spellings
set_option autoImplicit false

namespace RegionGuard

namespace Json

mutual

/-- How deep the containers of a value nest. -/
def depth : Json → Nat
  | .array items => depthAll items + 1
  | .object members => depthMembers members + 1
  | _ => 0

def depthAll : List Json → Nat
  | [] => 0
  | j :: js => max (depth j) (depthAll js)

def depthMembers : List (Literal × Json) → Nat
  | [] => 0
  | (_, j) :: ms => max (depth j) (depthMembers ms)

end

mutual

def FitsWords : Json → Prop
  | .integer i => 0 ≤ i ∧ i < Word.modulus
  | .array items => FitsWordsAll items
  | .object members => FitsWordsMembers members
  | _ => True

def FitsWordsAll : List Json → Prop
  | [] => True
  | j :: js => FitsWords j ∧ FitsWordsAll js

def FitsWordsMembers : List (Literal × Json) → Prop
  | [] => True
  | (_, j) :: ms => FitsWords j ∧ FitsWordsMembers ms

end

theorem fitsWordsAll_iff {js : List Json} : FitsWordsAll js ↔ ∀ j ∈ js, j.FitsWords := by
  induction js with
  | nil => simp [FitsWordsAll]
  | cons j js ih => rw [FitsWordsAll, ih, List.forall_mem_cons]

theorem fitsWordsMembers_iff {ms : List (Literal × Json)} : FitsWordsMembers ms ↔ ∀ m ∈ ms, m.2.FitsWords := by
  induction ms with
  | nil => simp [FitsWordsMembers]
  | cons m ms ih => rw [FitsWordsMembers, ih, List.forall_mem_cons]

mutual

def decidableFitsWords : ∀ j : Json, Decidable j.FitsWords
  | .null | .bool _ | .fraction | .string _ => .isTrue trivial
  | .integer i => inferInstanceAs (Decidable (0 ≤ i ∧ i < Word.modulus))
  | .array items => decidableFitsWordsAll items
  | .object members => decidableFitsWordsMembers members

def decidableFitsWordsAll : ∀ js : List Json, Decidable (FitsWordsAll js)
  | [] => .isTrue trivial
  | j :: js => @instDecidableAnd _ _ (decidableFitsWords j) (decidableFitsWordsAll js)

def decidableFitsWordsMembers : ∀ ms : List (Literal × Json), Decidable (FitsWordsMembers ms)
  | [] => .isTrue trivial
  | (_, j) :: ms => @instDecidableAnd _ _ (decidableFitsWords j) (decidableFitsWordsMembers ms)

end

instance (j : Json) : Decidable j.FitsWords := decidableFitsWords j

end Json

namespace Decoder

open Json (Literal depth depthAll depthMembers)

variable {α β : Type} {d : Decoder α} {j : Json} {a : α} {k l m : Nat}

/-- With up to `k` containers to open, a decoder reads a value back just when there are enough of them. -/
def Reads (k : Nat) (d : Decoder α) (j : Json) (a : α) : Prop :=
  ∀ n, 0 < n → n ≤ k → d n j = if j.depth < n then some a else none

theorem Reads.mono (h : Reads k d j a) (hlk : l ≤ k) : Reads l d j a := fun n hn hnl => h n hn (by omega)

theorem reads_of_enter {e : Nat → Option α} (hd : ∀ n, d n j = enter n >>= e) (hdepth : j.depth = l + 1)
    (he : ∀ m, 0 < m → m ≤ k - 1 → e m = if l < m then some a else none) : Reads k d j a := by
  intro n hn hnk
  rw [hd, hdepth]
  match n with
  | 0 => omega
  | 1 =>
    rw [if_neg (by omega)]
    rfl
  | m + 2 =>
    change e (m + 1) = _
    rw [he (m + 1) (by omega) (by omega)]
    simp only [Nat.add_lt_add_iff_right, show m + 2 = (m + 1) + 1 from rfl]

theorem bind_eq_of_reads (h : Reads k d j a) (hm : 0 < m) (hmk : m ≤ k) {f : α → Option β} {b : β}
    (hf : f a = if l < m then some b else none) : (d m j >>= f) = if max j.depth l < m then some b else none := by
  rw [h m hm hmk]
  by_cases hj : j.depth < m
  · rw [if_pos hj]
    change f a = _
    rw [hf]
    simp only [Nat.max_lt, hj, true_and]
  · rw [if_neg hj, if_neg (by omega)]
    rfl

section Leaves

theorem reads_leaf (hdepth : j.depth = 0) (h : ∀ n, d n j = some a) : Reads k d j a := by
  intro n hn _
  rw [hdepth, if_pos hn, h]

theorem reads_nat {n : Nat} (hn : n < Word.modulus) : Reads k nat (.ofNat n) n :=
  reads_leaf rfl fun _ => if_pos hn

theorem reads_word (w : Word) : Reads k word (.ofWord w) w := by
  refine reads_leaf rfl fun n => ?_
  have hread : nat n (.ofWord w) = some w.toNat := if_pos w.toNat_lt
  unfold word
  rw [hread]
  simp

theorem reads_bool (b : Bool) : Reads k bool (.bool b) b := reads_leaf rfl fun _ => rfl

theorem reads_string (s : String) : Reads k string (.string s) s := reads_leaf rfl fun _ => Literal.text?_ofText s

end Leaves

section Parts

theorem Reads.map (h : Reads k d j a) (f : α → β) : Reads k (d.map f) j (f a) := by
  intro n hn hnk
  unfold Decoder.map
  rw [h n hn hnk]
  split <;> rfl

theorem reads_optional {f : α → Json} {o : Option α} (hf : ∀ a ∈ o, Reads k d (f a) a) (hnull : ∀ a ∈ o, f a ≠ .null) :
    Reads k (optional d) (.ofOption f o) o := by
  cases o with
  | none => exact reads_leaf rfl fun _ => rfl
  | some a =>
    intro n hn hnk
    rw [Json.ofOption]
    have hread := hf a rfl n hn hnk
    have hne := hnull a rfl
    unfold optional
    split
    · rename_i heq
      exact absurd heq hne
    · rw [hread]
      split <;> rfl

theorem mapM_eq_of_reads {f : α → Json} {as : List α} (hf : ∀ a ∈ as, Reads k d (f a) a) (hm : 0 < m) (hmk : m ≤ k) :
    (as.map f).mapM (d m) = if depthAll (as.map f) < m then some as else none := by
  induction as with
  | nil =>
    rw [List.map_nil, depthAll, if_pos hm]
    rfl
  | cons a as ih =>
    rw [List.map_cons, List.mapM_cons, depthAll]
    refine bind_eq_of_reads (hf a List.mem_cons_self) hm hmk ?_
    rw [ih fun b hb => hf b (List.mem_cons_of_mem _ hb)]
    split <;> rfl

theorem reads_list {f : α → Json} {as : List α} (hf : ∀ a ∈ as, Reads (k - 1) d (f a) a) :
    Reads k (list d) (.ofList f as) as :=
  reads_of_enter (fun _ => rfl) (by rw [Json.ofList, depth]) fun _ hm hmk => mapM_eq_of_reads hf hm hmk

theorem reads_pair {e : Decoder β} {i : Json} {b : β} (hd : Reads (k - 1) d j a) (he : Reads (k - 1) e i b) :
    Reads k (pair d e) (.array [j, i]) (a, b) := by
  refine reads_of_enter (fun _ => rfl) (by rw [depth]) fun m hm hmk => ?_
  rw [depthAll]
  refine bind_eq_of_reads hd hm hmk ?_
  rw [depthAll]
  refine bind_eq_of_reads he hm hmk ?_
  rw [depthAll, if_pos hm]
  rfl

end Parts

section Choices

variable {alternatives : List (String × Alternative α)} {tag : String}

theorem reads_tag (h : alternatives.lookup tag = some (.unit a)) : Reads k (choice alternatives) (.string tag) a := by
  refine reads_leaf rfl fun n => ?_
  unfold choice
  simp only [Literal.text?_ofText, Option.bind_eq_bind, Option.bind_some, h]

theorem reads_tagged (h : alternatives.lookup tag = some (.content d)) (hd : Reads (k - 1) d j a) :
    Reads k (choice alternatives) (.tagged tag j) a := by
  refine reads_of_enter (e := fun m => d m j) (fun n => ?_) (by rw [Json.tagged, depth]) fun m hm hmk => ?_
  · unfold choice Json.tagged
    simp only [Literal.text?_ofText, Option.bind_eq_bind, Option.bind_some, h]
  · rw [hd m hm hmk, depthMembers, depthMembers, Nat.max_zero]

end Choices

section Records

variable {fields : List (String × Json)} {names : List String}

def present (fields : List (String × Json)) : List (String × Slot) := fields.map fun f => (f.1, .present f.2)

theorem mapM_map_eq_some {γ : Type} {f : α → β} {g : β → Option γ} {h : α → γ} {as : List α}
    (hg : ∀ a ∈ as, g (f a) = some (h a)) : (as.map f).mapM g = some (as.map h) := by
  induction as with
  | nil => rfl
  | cons a as ih =>
    rw [List.map_cons, List.mapM_cons, hg a List.mem_cons_self, ih fun b hb => hg b (List.mem_cons_of_mem _ hb)]
    rfl

theorem filter_eq_singleton (hnodup : (fields.map (·.1)).Nodup) {f : String × Json} (hf : f ∈ fields) :
    fields.filter (·.1 == f.1) = [f] := by
  induction fields with
  | nil => cases hf
  | cons e rest ih =>
    obtain ⟨hnot, hrest⟩ := List.nodup_cons.mp hnodup
    rcases List.mem_cons.mp hf with rfl | hf
    · rw [List.filter_cons_of_pos (by simp), List.filter_eq_nil_iff.mpr]
      intro e he heq
      exact hnot (List.mem_map.mpr ⟨e, he, of_decide_eq_true heq⟩)
    · rw [List.filter_cons_of_neg, ih hrest hf]
      intro heq
      have heq : e.1 = f.1 := by simpa using heq
      exact hnot (List.mem_map.mpr ⟨f, hf, heq.symm⟩)

theorem slotsOfMembers_eq (hnodup : (fields.map (·.1)).Nodup) :
    slotsOfMembers (fields.map (·.1)) (fields.map fun f => (.ofText f.1, f.2)) = some (present fields) := by
  have hmembers : (fields.map fun f => (Literal.ofText f.1, f.2)).mapM
      (fun m => do return (← m.1.text?, m.2)) = some (fields.map id) :=
    mapM_map_eq_some fun f _ => by simp
  unfold slotsOfMembers
  rw [hmembers, List.map_id]
  refine mapM_map_eq_some fun f hf => ?_
  rw [filter_eq_singleton hnodup hf]

theorem reads_record (fields : List (String × Json)) {build : Record → Option α} (hnames : fields.map (·.1) = names) (hnodup : names.Nodup)
    (hbuild : ∀ m, 0 < m → m ≤ k - 1 →
      build ⟨m, present fields⟩ = if depthMembers (fields.map fun f => (.ofText f.1, f.2)) < m then some a else none) :
    Reads k (record names build) (.ofMembers fields) a := by
  subst hnames
  refine reads_of_enter (e := fun m => build ⟨m, present fields⟩) (fun n => ?_) (by rw [Json.ofMembers, depth]) hbuild
  unfold record Json.ofMembers
  simp only [slotsOfMembers_eq hnodup, Option.bind_eq_bind, Option.bind_some]

variable {r : Record} {name : String} {b : β} {f : α → Option β}

theorem required_bind (hslot : r.slot name = .present j) (h : Reads k d j a) (hm : 0 < r.depth) (hmk : r.depth ≤ k)
    (hf : f a = if l < r.depth then some b else none) :
    (r.required name d >>= f) = if max j.depth l < r.depth then some b else none := by
  unfold Record.required
  rw [hslot]
  exact bind_eq_of_reads h hm hmk hf

theorem optional_bind {o : Option α} {f : Option α → Option β} (hslot : r.slot name = .present j)
    (h : Reads k (optional d) j o) (hm : 0 < r.depth) (hmk : r.depth ≤ k)
    (hf : f o = if l < r.depth then some b else none) :
    (r.optional name d >>= f) = if max j.depth l < r.depth then some b else none := by
  unfold Record.optional
  rw [hslot]
  exact bind_eq_of_reads h hm hmk hf

theorem defaulted_bind {byDefault : α} (hslot : r.slot name = .present j) (h : Reads k d j a) (hm : 0 < r.depth)
    (hmk : r.depth ≤ k) (hf : f a = if l < r.depth then some b else none) :
    (r.defaulted name byDefault d >>= f) = if max j.depth l < r.depth then some b else none := by
  unfold Record.defaulted
  rw [hslot]
  exact bind_eq_of_reads h hm hmk hf

/-- After the last field nothing is left to read. -/
theorem some_eq_within (hm : 0 < m) (b : β) : some b = if 0 < m then some b else none := (if_pos hm).symm

end Records

section Tables

variable {κ : Type} [Ord κ] [Std.TransOrd κ] [Std.LawfulEqOrd κ] {key : Literal → Option κ}

theorem foldlM_eq_of_reads {spell : κ → Literal} {f : α → Json} {entries : List (κ × α)}
    (hkey : ∀ e ∈ entries, key (spell e.1) = some e.1) (hf : ∀ e ∈ entries, Reads k d (f e.2) e.2) (hm : 0 < m)
    (hmk : m ≤ k) (t : Table κ α) :
    (entries.map fun e => (spell e.1, f e.2)).foldlM (fun t e => do
        let k ← key e.1
        let a ← d m e.2
        return t.insert k a) t =
      if depthMembers (entries.map fun e => (spell e.1, f e.2)) < m then
        some (entries.foldl (fun t e => t.insert e.1 e.2) t)
      else none := by
  induction entries generalizing t with
  | nil =>
    rw [List.map_nil, depthMembers, if_pos hm]
    rfl
  | cons e rest ih =>
    rw [List.map_cons, List.foldlM_cons, depthMembers, hkey e List.mem_cons_self, List.foldl_cons]
    simp only [Option.bind_eq_bind, Option.bind_some, Option.bind_assoc]
    refine bind_eq_of_reads (hf e List.mem_cons_self) hm hmk ?_
    exact ih (fun d hd => hkey d (List.mem_cons_of_mem _ hd)) (fun d hd => hf d (List.mem_cons_of_mem _ hd)) _

theorem reads_table (spell : κ → Literal) {f : α → Json} {t : Table κ α}
    (hkey : ∀ e ∈ t.entries, key (spell e.1) = some e.1) (hf : ∀ e ∈ t.entries, Reads (k - 1) d (f e.2) e.2) :
    Reads k (table key d) (.object (t.entries.map fun e => (spell e.1, f e.2))) t := by
  refine reads_of_enter (fun _ => rfl) (by rw [depth]) fun m hm hmk => ?_
  have hfold := foldlM_eq_of_reads hkey hf hm hmk Table.empty
  rw [Table.foldl_insert_entries] at hfold
  exact hfold

theorem reads_keySet {d : Decoder κ} {f : κ → Json} {s : KeySet κ} (hf : ∀ e ∈ s.keys, Reads (k - 1) d (f e) e) :
    Reads k (keySet d) (.ofList f s.keys) s := by
  have hlist := (reads_list hf).map KeySet.ofKeys
  have hsame : KeySet.ofKeys s.keys = s := by
    unfold KeySet.ofKeys Table.keys KeySet.add
    rw [List.foldl_map]
    exact Table.foldl_insert_entries s
  rw [hsame] at hlist
  exact hlist

theorem natKey_toString {n : Nat} (hn : n < Word.modulus) : natKey (.ofText (toString n)) = some n := by
  have hplain : ∀ c ∈ Nat.toDigits 10 n, Literal.escape c = [c] := fun c hc =>
    Literal.escape_of_isDigit (Json.isDigit_toDigits hc)
  have hspelling : (Literal.ofText (toString n)).spelling.toList = Nat.toDigits 10 n := by
    unfold Literal.ofText
    rw [String.toList_ofList, Nat.toString_eq_ofList_toDigits, String.toList_ofList, List.flatMap_congr hplain,
      List.flatMap_singleton']
  have hall : (Nat.toDigits 10 n).all Char.isDigit = true :=
    List.all_eq_true.mpr fun c hc => Json.isDigit_toDigits hc
  unfold natKey
  rw [hspelling]
  split
  · rename_i hnil
    exact absurd hnil Nat.toDigits_ne_nil
  · rename_i c cs hzero
    refine absurd ⟨?_, ?_⟩ (Json.not_leadingZero n)
    · rw [hzero]
      rfl
    · rw [hzero]
      simp
  · rw [if_pos hall]
    exact (congrArg (fun k => if k < Word.modulus then some k else none) (Json.ofDigits_toDigits n)).trans (if_pos hn)

end Tables

end Decoder

end RegionGuard

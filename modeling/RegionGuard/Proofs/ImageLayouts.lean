import Mathlib.Data.List.Forall2
import Mathlib.Data.List.Nodup
import Mathlib.Order.Lattice
import RegionGuard.Machine.Basic
import RegionGuard.Proofs.FirstFit
import RegionGuard.Proofs.Outcomes
set_option autoImplicit false

/-!
# Layouts of images

An image hands out addresses upwards: to the functions one stride after the other, to the globals at the least multiple of
their alignment. So neither two functions nor two globals share an address. Nothing stops either sequence where the next part
of the memory begins, and a program that is large enough runs into it.
-/

namespace RegionGuard

theorem Word.toNat_max (v w : Word) : (max v w).toNat = max v.toNat w.toNat := by
  have hmax : max v w = if v ≤ w then w else v := rfl
  rw [hmax]
  split
  · rename_i hle
    exact (Nat.max_eq_right (UInt64.le_iff_toNat_le.mp hle)).symm
  · rename_i hle
    exact (Nat.max_eq_left (UInt64.lt_iff_toNat_lt.mp (UInt64.not_le.mp hle)).le).symm

namespace Ty

private theorem two_pow_mono : Monotone fun k => 2 ^ k := fun _ _ h => Nat.pow_le_pow_right (by decide) h

theorem alignTo?_spec {offset alignment w : Word} (hpos : 0 < alignment.toNat) (h : alignTo? offset alignment = some w) :
    alignment.toNat ∣ w.toNat ∧ offset.toNat ≤ w.toNat ∧
      ∀ m, alignment.toNat ∣ m → offset.toNat ≤ m → w.toNat ≤ m := by
  have hword : (1 : Word).toNat = 1 := rfl
  obtain ⟨top, htop, hw⟩ := Option.bind_eq_some_iff.mp h
  rw [Word.add?_eq_some_iff] at htop
  have hone : (1 : Word) ≤ top := UInt64.le_iff_toNat_le.mpr (by omega)
  rw [Word.mul?_eq_some_iff, UInt64.toNat_div, UInt64.toNat_sub_of_le _ _ hone, ← htop] at hw
  rw [← hw]
  refine ⟨Nat.dvd_mul_left _ _, ?_, ?_⟩
  · have := Nat.lt_div_mul_add (a := offset.toNat + alignment.toNat - (1 : Word).toNat) hpos
    omega
  · rintro m ⟨c, rfl⟩ hle
    rw [Nat.mul_comm _ c] at hle ⊢
    have hlt : offset.toNat + alignment.toNat - (1 : Word).toNat < (c + 1) * alignment.toNat := by
      rw [Nat.succ_mul]
      omega
    exact Nat.mul_le_mul_right _ (Nat.lt_succ_iff.mp ((Nat.div_lt_iff_lt_mul hpos).mpr hlt))

mutual

theorem alignment?_spec : ∀ (t : Ty) {a : Word}, t.alignment? = some a → ∃ k, k ≤ 3 ∧ a.toNat = 2 ^ k
  | .void, a, h | .function, a, h => by
    rw [alignment?] at h
    cases h
    exact ⟨0, by decide, rfl⟩
  | .pointer, a, h => by
    rw [alignment?] at h
    cases h
    exact ⟨3, by decide, rfl⟩
  | .integer n, a, h => by
    rw [alignment?] at h
    obtain ⟨bytes, -, h⟩ := Option.bind_eq_some_iff.mp h
    obtain ⟨k, hk, -⟩ := Word.powerAbove_spec bytes.toNat
    have hmin : min (2 ^ k) 8 = 2 ^ min k 3 := (two_pow_mono.map_min (a := k) (b := 3)).symm
    cases h
    refine ⟨min k 3, Nat.min_le_right _ _, ?_⟩
    rw [hk, hmin]
    exact UInt64.toNat_ofNat_of_lt
      (Nat.lt_of_le_of_lt (Nat.pow_le_pow_right (by decide) (Nat.min_le_right k 3)) (by decide : 2 ^ 3 < UInt64.size))
  | .array element _, a, h => by
    rw [alignment?] at h
    exact alignment?_spec element h
  | .struct fields, a, h => by
    rw [alignment?] at h
    exact largestAlignment?_spec fields h

theorem largestAlignment?_spec : ∀ (l : List Ty) {a : Word}, largestAlignment? l = some a → ∃ k, k ≤ 3 ∧ a.toNat = 2 ^ k
  | [], a, h => by
    rw [largestAlignment?] at h
    cases h
    exact ⟨0, by decide, rfl⟩
  | t :: rest, a, h => by
    rw [largestAlignment?] at h
    obtain ⟨b, hb, h⟩ := Option.bind_eq_some_iff.mp h
    obtain ⟨c, hc, h⟩ := Option.bind_eq_some_iff.mp h
    obtain ⟨j, hj, hbj⟩ := alignment?_spec t hb
    obtain ⟨k, hk, hck⟩ := largestAlignment?_spec rest hc
    cases h
    refine ⟨max j k, Nat.max_le.mpr ⟨hj, hk⟩, ?_⟩
    rw [Word.toNat_max, hbj, hck]
    exact two_pow_mono.map_max.symm

end

theorem alignment?_pos {t : Ty} {a : Word} (h : t.alignment? = some a) : 0 < a.toNat := by
  obtain ⟨k, -, hk⟩ := alignment?_spec t h
  rw [hk]
  exact Nat.two_pow_pos k

theorem alignment?_dvd {t : Ty} {a : Word} (h : t.alignment? = some a) : a.toNat ∣ 8 := by
  obtain ⟨k, hle, hk⟩ := alignment?_spec t h
  rw [hk]
  exact Nat.pow_dvd_pow 2 hle

theorem max_alignment {t : Ty} {a : Word} (h : t.alignment? = some a) : max a 1 = a := by
  rw [← UInt64.toNat_inj, Word.toNat_max]
  exact Nat.max_eq_left (alignment?_pos h)

end Ty

namespace Table

variable {κ α : Type} [Ord κ] [Std.TransOrd κ] [Std.LawfulEqOrd κ] [DecidableEq κ]

variable {γ : Type} (key : γ → κ) (value : γ → α) {l : List γ} {t : Table κ α}

/-- What a key stands for after some insertions: what was inserted for it, or what it stood for before. -/
theorem get?_foldl_cases (k : κ) :
    (∃ x ∈ l, key x = k ∧ (l.foldl (fun t x => t.insert (key x) (value x)) t).get? k = some (value x)) ∨
      (∀ x ∈ l, key x ≠ k) ∧ (l.foldl (fun t x => t.insert (key x) (value x)) t).get? k = t.get? k := by
  induction l generalizing t with
  | nil => exact .inr ⟨fun _ hx => absurd hx List.not_mem_nil, rfl⟩
  | cons y rest ih =>
    rw [List.foldl_cons]
    rcases ih (t := t.insert (key y) (value y)) with ⟨x, hx, hkey, hget⟩ | ⟨hnew, hget⟩
    · exact .inl ⟨x, List.mem_cons_of_mem y hx, hkey, hget⟩
    · by_cases hk : k = key y
      · rw [get?_insert, if_pos hk] at hget
        exact .inl ⟨y, List.mem_cons_self, hk.symm, hget⟩
      · rw [get?_insert_of_ne _ hk] at hget
        exact .inr ⟨List.forall_mem_cons.mpr ⟨fun heq => hk heq.symm, hnew⟩, hget⟩

theorem get?_foldl_of_mem (distinct : (l.map key).Nodup) {x : γ} (hx : x ∈ l) :
    (l.foldl (fun t x => t.insert (key x) (value x)) t).get? (key x) = some (value x) := by
  rcases get?_foldl_cases key value (t := t) (key x) with ⟨y, hy, hkey, hget⟩ | ⟨hnew, -⟩
  · rwa [List.inj_on_of_nodup_map distinct hy hx hkey] at hget
  · exact absurd rfl (hnew x hx)

end Table

namespace Image

/-- The addresses from a word on, `size` many. They may go past the last word. -/
def span (place : Word × Nat) : Set Nat := Set.Ico place.1.toNat (place.1.toNat + place.2)

theorem disjoint_of_le {r s : Word × Nat} (h : r.1.toNat + r.2 ≤ s.1.toNat) : Disjoint (span r) (span s) :=
  Set.Ico_disjoint_Ico_same.mono_right (Set.Ico_subset_Ico_left h)

theorem not_disjoint {r s : Word × Nat} {m : Nat} (hr : m ∈ span r) (hs : m ∈ span s) : ¬ Disjoint (span r) (span s) :=
  Set.not_disjoint_iff.mpr ⟨m, hr, hs⟩

/-- Places that follow on one another from one address up to another. Each begins at a multiple of eight, or earlier. -/
def Stacked (low : Nat) : List (Word × Nat) → Nat → Prop
  | [], high => low = high
  | s :: rest, high =>
    low ≤ s.1.toNat ∧ (∀ m, 8 ∣ m → low ≤ m → s.1.toNat ≤ m) ∧ Stacked (s.1.toNat + s.2) rest high

namespace Stacked

variable {low high : Nat} {l : List (Word × Nat)}

theorem within (h : Stacked low l high) : low ≤ high ∧ ∀ s ∈ l, low ≤ s.1.toNat ∧ s.1.toNat + s.2 ≤ high := by
  induction l generalizing low with
  | nil => exact ⟨Nat.le_of_eq h, fun _ hs => absurd hs List.not_mem_nil⟩
  | cons s rest ih =>
    obtain ⟨hlow, -, hrest⟩ := h
    obtain ⟨hle, hwithin⟩ := ih hrest
    refine ⟨by omega, List.forall_mem_cons.mpr ⟨⟨hlow, hle⟩, fun r hr => ?_⟩⟩
    have := hwithin r hr
    omega

theorem pairwise (h : Stacked low l high) : l.Pairwise fun r s => r.1.toNat + r.2 ≤ s.1.toNat := by
  induction l generalizing low with
  | nil => exact .nil
  | cons s rest ih => exact .cons (fun r hr => (h.2.2.within.2 r hr).1) (ih h.2.2)

theorem disjoint (h : Stacked low l high) : l.Pairwise fun r s => Disjoint (span r) (span s) :=
  h.pairwise.imp disjoint_of_le

/-- There are gaps only in front of multiples of eight, so a multiple of eight on the way lies inside a place. -/
theorem covers (h : Stacked low l high) {m : Nat} (hm : 8 ∣ m) (hlow : low ≤ m) (hhigh : m < high) : ∃ s ∈ l, m ∈ span s := by
  induction l generalizing low with
  | nil =>
    have : low = high := h
    omega
  | cons s rest ih =>
    obtain ⟨-, hnext, hrest⟩ := h
    rcases Nat.lt_or_ge m (s.1.toNat + s.2) with hlt | hle
    · exact ⟨s, List.mem_cons_self, hnext m hm hlow, hlt⟩
    · obtain ⟨r, hr, hin⟩ := ih hrest hle
      exact ⟨r, List.mem_cons_of_mem s hr, hin⟩

end Stacked

variable {p : Program} {x y : Image}

structure Houses (g : GlobalVariable) (s : Word × Nat) : Prop where
  aligned : ∃ a, g.ty.alignment? = some a ∧ a.toNat ∣ s.1.toNat
  sized : ∃ n, g.size? = some n ∧ s.2 = max n.toNat 1

theorem placeFunction_ok {name : String} (h : x.placeFunction name = .ok y) :
    y.textEnd.toNat = x.textEnd.toNat + stride.toNat ∧ y.functions = x.functions.insert name x.textEnd ∧
      y.functionNames = x.functionNames.insert x.textEnd name ∧ y.globals = x.globals ∧ y.globalsEnd = x.globalsEnd := by
  obtain ⟨next, hnext, h⟩ := bind_eq_ok.mp h
  have hsum := Word.add?_eq_some_iff.mp (orStop_eq_ok.mp hnext)
  cases h
  exact ⟨hsum.symm, rfl, rfl, rfl, rfl⟩

theorem placeGlobal_ok {g : GlobalVariable} (h : x.placeGlobal g = .ok y) :
    ∃ s, Houses g s ∧ x.globalsEnd.toNat ≤ s.1.toNat ∧ (∀ m, 8 ∣ m → x.globalsEnd.toNat ≤ m → s.1.toNat ≤ m) ∧
      y.globalsEnd.toNat = s.1.toNat + s.2 ∧ y.globals = x.globals.insert g.name s.1 ∧
      y.functions = x.functions ∧ y.functionNames = x.functionNames ∧ y.textEnd = x.textEnd := by
  obtain ⟨a, ha, h⟩ := bind_eq_ok.mp h
  obtain ⟨address, haddress, h⟩ := bind_eq_ok.mp h
  obtain ⟨size, hsize, h⟩ := bind_eq_ok.mp h
  obtain ⟨next, hnext, h⟩ := bind_eq_ok.mp h
  have ha := orStop_eq_ok.mp ha
  have haddress := orStop_eq_ok.mp haddress
  have hsum := Word.add?_eq_some_iff.mp (orStop_eq_ok.mp hnext)
  rw [Ty.max_alignment ha] at haddress
  obtain ⟨hdvd, hle, hleast⟩ := Ty.alignTo?_spec (Ty.alignment?_pos ha) haddress
  cases h
  refine ⟨(address, max size.toNat 1), ⟨⟨a, ha, hdvd⟩, size, orStop_eq_ok.mp hsize, rfl⟩, hle,
    fun m hm => hleast m ((Ty.alignment?_dvd ha).trans hm), ?_, rfl, rfl, rfl, rfl⟩
  rw [← hsum, Word.toNat_max]
  rfl

theorem placeFunctions_ok {l : List Function} (h : l.foldlM (fun x f => x.placeFunction f.name) x = .ok y) :
    ∃ slots : List (Word × Nat), slots.length = l.length ∧ (∀ s ∈ slots, s.2 = stride.toNat) ∧
      Stacked x.textEnd.toNat slots y.textEnd.toNat ∧ y.textEnd.toNat = x.textEnd.toNat + stride.toNat * l.length ∧
      y.functions = (l.zip slots).foldl (fun t e => t.insert e.1.name e.2.1) x.functions ∧
      y.functionNames = (l.zip slots).foldl (fun t e => t.insert e.2.1 e.1.name) x.functionNames ∧
      y.globals = x.globals ∧ y.globalsEnd = x.globalsEnd := by
  induction l generalizing x with
  | nil =>
    cases h
    exact ⟨[], rfl, fun _ hs => absurd hs List.not_mem_nil, rfl, rfl, rfl, rfl, rfl, rfl⟩
  | cons f rest ih =>
    rw [List.foldlM_cons] at h
    obtain ⟨z, hz, h⟩ := bind_eq_ok.mp h
    obtain ⟨hend, hfunctions, hnames, hglobals, hglobalsEnd⟩ := placeFunction_ok hz
    obtain ⟨slots, hlength, hslots, hstacked, htextEnd, hfunctions', hnames', hglobals', hglobalsEnd'⟩ := ih h
    refine ⟨(x.textEnd, stride.toNat) :: slots, congrArg Nat.succ hlength, List.forall_mem_cons.mpr ⟨rfl, hslots⟩,
      ⟨Nat.le_refl _, fun _ _ hle => hle, hend ▸ hstacked⟩,
      by rw [htextEnd, hend, List.length_cons, Nat.mul_succ, Nat.add_assoc, Nat.add_comm stride.toNat],
      hfunctions'.trans ?_, hnames'.trans ?_, hglobals'.trans hglobals, hglobalsEnd'.trans hglobalsEnd⟩
    · rw [hfunctions]
      rfl
    · rw [hnames]
      rfl

theorem placeGlobals_ok {l : List GlobalVariable} (h : l.foldlM placeGlobal x = .ok y) :
    ∃ rooms : List (Word × Nat), List.Forall₂ Houses l rooms ∧ Stacked x.globalsEnd.toNat rooms y.globalsEnd.toNat ∧
      y.globals = (l.zip rooms).foldl (fun t e => t.insert e.1.name e.2.1) x.globals ∧
      y.functions = x.functions ∧ y.functionNames = x.functionNames ∧ y.textEnd = x.textEnd := by
  induction l generalizing x with
  | nil =>
    cases h
    exact ⟨[], .nil, rfl, rfl, rfl, rfl, rfl⟩
  | cons g rest ih =>
    rw [List.foldlM_cons] at h
    obtain ⟨z, hz, h⟩ := bind_eq_ok.mp h
    obtain ⟨s, hs, hlow, hleast, hend, hglobals, hfunctions, hnames, htext⟩ := placeGlobal_ok hz
    obtain ⟨rooms, hrooms, hstacked, hglobals', hfunctions', hnames', htext'⟩ := ih h
    refine ⟨s :: rooms, .cons hs hrooms, ⟨hlow, hleast, hend ▸ hstacked⟩, hglobals'.trans ?_,
      hfunctions'.trans hfunctions, hnames'.trans hnames, htext'.trans htext⟩
    rw [hglobals]
    rfl

/-- The places that an image has for the functions and the globals of a program, in the order in which the program lists
them. -/
structure Lays (x : Image) (p : Program) (slots rooms : List (Word × Nat)) : Prop where
  text : Stacked textBase.toNat slots x.textEnd.toNat
  data : Stacked globalBase.toNat rooms x.globalsEnd.toNat
  textEnd : x.textEnd.toNat = textBase.toNat + stride.toNat * p.functions.size
  named : List.Forall₂ (fun f s => s.2 = stride.toNat ∧ x.functionAt? s.1 = some f.name) p.functions.values slots
  housed : List.Forall₂ Houses p.globals.values rooms
  function : ∀ f ∈ p.functions.values, ∃ s ∈ slots, x.functionAddress? f.name = some s.1 ∧ x.functionAt? s.1 = some f.name
  global : (p.globals.values.map (·.name)).Nodup →
    ∀ e ∈ p.globals.values.zip rooms, x.globalAddress? e.1.name = some e.2.1

/-- Places that follow on one another begin at different addresses, as long as each has some bytes. -/
theorem Stacked.nodup {low high : Nat} {l : List (Word × Nat)} (h : Stacked low l high) (hpos : ∀ s ∈ l, 0 < s.2) :
    (l.map (·.1)).Nodup :=
  List.pairwise_map.mpr (h.pairwise.imp_of_mem fun hr _ hle heq => by
    have := hpos _ hr
    rw [heq] at hle
    omega)

theorem lays_of_ofProgram (hx : Image.ofProgram p = .ok x) : ∃ slots rooms, x.Lays p slots rooms := by
  obtain ⟨y, hy, hx⟩ := bind_eq_ok.mp hx
  obtain ⟨slots, hlength, hslots, htext, htextEnd, hfunctions, hnames, hglobals, hglobalsEnd⟩ := placeFunctions_ok hy
  obtain ⟨rooms, hrooms, hdata, hglobals', hfunctions', hnames', htextEnd'⟩ := placeGlobals_ok hx
  rw [← htextEnd'] at htext htextEnd
  rw [hglobals] at hglobals'
  rw [hglobalsEnd] at hdata
  have hsnd : (p.functions.values.zip slots).map Prod.snd = slots := List.map_snd_zip hlength.le
  have hfst : (p.functions.values.zip slots).map Prod.fst = p.functions.values := List.map_fst_zip hlength.ge
  have hdistinct : ((p.functions.values.zip slots).map fun e => e.2.1).Nodup := by
    have h := htext.nodup fun s hs => by
      rw [hslots s hs]
      decide
    rwa [← hsnd, List.map_map] at h
  have hat : ∀ e ∈ p.functions.values.zip slots, x.functionAt? e.2.1 = some e.1.name := fun e he => by
    unfold functionAt?
    rw [hnames', hnames]
    exact Table.get?_foldl_of_mem _ _ hdistinct he
  refine ⟨slots, rooms, htext, hdata, ?_, ?_, hrooms, fun f hf => ?_, fun hnodup e he => ?_⟩
  · rwa [Table.values, List.length_map] at htextEnd
  · refine List.forall₂_iff_zip.mpr ⟨hlength.symm, fun {f s} he => ⟨hslots s (List.of_mem_zip he).2, hat _ he⟩⟩
  · obtain ⟨e, he, rfl⟩ := List.mem_map.mp (hfst.symm ▸ hf)
    unfold functionAddress?
    rw [hfunctions', hfunctions]
    rcases Table.get?_foldl_cases (fun e : Function × Word × Nat => e.1.name) (fun e => e.2.1)
      (l := p.functions.values.zip slots) (t := empty.functions) e.1.name with ⟨d, hd, hname, hget⟩ | ⟨hnew, -⟩
    · exact ⟨d.2, hsnd ▸ List.mem_map_of_mem hd, hget, hname ▸ hat d hd⟩
    · exact absurd rfl (hnew e he)
  · unfold globalAddress?
    rw [hglobals']
    refine Table.get?_foldl_of_mem (fun e : GlobalVariable × Word × Nat => e.1.name) (fun e => e.2.1) ?_ he
    have hfst : (p.globals.values.zip rooms).map Prod.fst = p.globals.values := List.map_fst_zip hrooms.length_eq.le
    rwa [← hfst, List.map_map] at hnodup

def heap : Word × Nat := (Machine.heapBase, Machine.heapSize.toNat)

def stack : Word × Nat := (Machine.stackBase, Machine.stackSize.toNat)

/-- The functions end before the globals begin, or before the heap when there are no globals, and the globals end before the
heap. -/
def KeepsClear (x : Image) (p : Program) : Prop :=
  (x.textEnd.toNat ≤ globalBase.toNat ∨ p.globals.values = [] ∧ x.textEnd.toNat ≤ heap.1.toNat) ∧
    x.globalsEnd.toNat ≤ heap.1.toNat

variable {slots rooms : List (Word × Nat)}

theorem mem_heap : heap.1.toNat ∈ span heap := ⟨Nat.le_refl _, by decide⟩

theorem Lays.room_pos (h : x.Lays p slots rooms) : ∀ r ∈ rooms, 0 < r.2 := fun r hr => by
  obtain ⟨e, he, rfl⟩ := List.mem_map.mp ((List.map_snd_zip h.housed.length_eq.ge : _ = rooms).symm ▸ hr)
  obtain ⟨-, n, -, hsize⟩ := List.forall₂_zip h.housed he
  rw [hsize]
  exact Nat.lt_of_lt_of_le Nat.zero_lt_one (Nat.le_max_right _ _)

theorem Lays.keepsClear (h : x.Lays p slots rooms)
    (hapart : (slots ++ rooms ++ [heap, stack]).Pairwise fun r s => Disjoint (span r) (span s)) : x.KeepsClear p := by
  obtain ⟨hplaces, -, hheap⟩ := List.pairwise_append.mp hapart
  obtain ⟨-, -, hcross⟩ := List.pairwise_append.mp hplaces
  have hclear : ∀ s ∈ slots ++ rooms, heap.1.toNat ∉ span s := fun s hs hin =>
    not_disjoint hin mem_heap (hheap s hs heap List.mem_cons_self)
  refine ⟨?_, Nat.not_lt.mp fun hlt => ?_⟩
  · rcases Nat.lt_or_ge globalBase.toNat x.textEnd.toNat with hlt | hle
    · obtain ⟨s, hs, hin⟩ := h.text.covers (by decide) (by decide) hlt
      -- a function has the address where the first global would be
      have hnone : rooms = [] := List.eq_nil_iff_forall_not_mem.mpr fun r hr => by
        obtain ⟨hlow, hhigh⟩ := h.data.within.2 r hr
        have hpos := h.room_pos r hr
        obtain ⟨t, ht, hin'⟩ := h.data.covers (m := globalBase.toNat) (by decide) (Nat.le_refl _) (by omega)
        exact not_disjoint hin hin' (hcross s hs t ht)
      refine .inr ⟨List.forall₂_nil_right_iff.mp (hnone ▸ h.housed), Nat.not_lt.mp fun hlt => ?_⟩
      obtain ⟨s, hs, hin⟩ := h.text.covers (by decide) (by decide) hlt
      exact hclear s (List.mem_append_left _ hs) hin
    · exact .inl hle
  · obtain ⟨s, hs, hin⟩ := h.data.covers (by decide) (by decide) hlt
    exact hclear s (List.mem_append_right _ hs) hin

theorem Lays.disjoint (h : x.Lays p slots rooms) (hclear : x.KeepsClear p) :
    (slots ++ rooms ++ [heap, stack]).Pairwise fun r s => Disjoint (span r) (span s) := by
  obtain ⟨htext, hdata⟩ := hclear
  have hbelow : x.textEnd.toNat ≤ heap.1.toNat := by
    rcases htext with hle | ⟨-, hle⟩
    · exact Nat.le_trans hle (by decide)
    · exact hle
  refine List.pairwise_append.mpr ⟨List.pairwise_append.mpr ⟨h.text.disjoint, h.data.disjoint, fun s hs r hr => ?_⟩,
    List.pairwise_pair.mpr (disjoint_of_le (by decide)), fun s hs area harea => ?_⟩
  · have hend := (h.text.within.2 s hs).2
    have hstart := (h.data.within.2 r hr).1
    rcases htext with hle | ⟨hnone, -⟩
    · exact disjoint_of_le (by omega)
    · have hempty : rooms = [] := List.forall₂_nil_left_iff.mp (hnone ▸ h.housed)
      exact absurd (hempty ▸ hr) List.not_mem_nil
  · have hbase : heap.1.toNat ≤ area.1.toNat := by
      rcases List.mem_pair.mp harea with rfl | rfl <;> decide
    rcases List.mem_append.mp hs with hs | hs
    · have := (h.text.within.2 s hs).2
      exact disjoint_of_le (by omega)
    · have := (h.data.within.2 s hs).2
      exact disjoint_of_le (by omega)

/-- The image of a program gives each function and each global a place of its own, a global as many bytes as its type has at a
multiple of its alignment, and knows each function by its address. These places, the heap and the stack are pairwise disjoint
exactly if functions and globals end in time. -/
theorem areas_disjoint_iff (hx : Image.ofProgram p = .ok x) :
    ∃ slots rooms, x.Lays p slots rooms ∧
      ((slots ++ rooms ++ [heap, stack]).Pairwise (fun r s => Disjoint (span r) (span s)) ↔ x.KeepsClear p) := by
  obtain ⟨slots, rooms, h⟩ := lays_of_ofProgram hx
  exact ⟨slots, rooms, h, h.keepsClear, h.disjoint⟩

def byteAndWord : Program :=
  (((Program.empty.addFunction (.declaration "f" [] .void)).addFunction (.declaration "g" [] .void)).addGlobal
    ⟨"byte", .integer 8, .external, true⟩).addGlobal ⟨"word", .integer 64, .external, true⟩

theorem areas_disjoint_byteAndWord :
    ∃ x slots rooms, Image.ofProgram byteAndWord = .ok x ∧ x.Lays byteAndWord slots rooms ∧
      x.functionAddress? "g" = some 0x10000010 ∧ x.globalAddress? "word" = some 0x20000008 ∧
      (slots ++ rooms ++ [heap, stack]).Pairwise fun r s => Disjoint (span r) (span s) := by
  have htest : (Image.ofProgram byteAndWord).toOption.any (fun x =>
      x.functionAddress? "g" = some 0x10000010 ∧ x.globalAddress? "word" = some 0x20000008 ∧
        x.textEnd.toNat ≤ globalBase.toNat ∧ x.globalsEnd.toNat ≤ heap.1.toNat) = true := by decide +kernel
  obtain ⟨x, hx, htest⟩ := (Option.any_eq_true _ _).mp htest
  obtain ⟨hfunction, hglobal, htext, hdata⟩ := of_decide_eq_true htest
  have hx := toOption_eq_some.mp hx
  obtain ⟨slots, rooms, hlays, hiff⟩ := areas_disjoint_iff hx
  exact ⟨x, slots, rooms, hx, hlays, hfunction, hglobal, hiff.mpr ⟨.inl htext, hdata⟩⟩

def big : GlobalVariable := ⟨"big", .array (.integer 8) 0x20000010, .external, true⟩

/-- A global that is too large reaches into the heap, where the first blocks are made. -/
theorem global_reaches_heap :
    ∃ x place size, Image.ofProgram (Program.empty.addGlobal big) = .ok x ∧ x.globalAddress? big.name = some place ∧
      big.size? = some size ∧ ¬ Disjoint (span (place, size.toNat)) (span heap) := by
  have htest : (Image.ofProgram (Program.empty.addGlobal big)).toOption.any (fun x =>
      x.globalAddress? big.name = some globalBase ∧ big.size? = some 0x20000010) = true := by decide +kernel
  obtain ⟨x, hx, htest⟩ := (Option.any_eq_true _ _).mp htest
  obtain ⟨hplace, hsize⟩ := of_decide_eq_true htest
  exact ⟨x, globalBase, 0x20000010, toOption_eq_some.mp hx, hplace, hsize,
    not_disjoint (m := heap.1.toNat) ⟨by decide, by decide⟩ mem_heap⟩

end Image

end RegionGuard

import RegionGuard.Proofs.ConstantBits
import RegionGuard.Proofs.ImageLayouts
import RegionGuard.Proofs.TwosComplement
set_option autoImplicit false

/-!
# Where element pointers lead

The parts of an aggregate lie side by side inside it, each at a multiple of its own alignment. Indices that step from part
to part therefore lead to an object inside the outermost one, and two such objects share a byte only where one is a part of
the other.
-/

namespace RegionGuard

open Evaluation

namespace Ty

variable {t u v inner inner' : Ty} {fields : List Ty} {length offset n : Word} {k k' : Nat}

theorem size?_spec : ∀ (t : Ty) {n : Word}, t.size? = some n → ∃ a, t.alignment? = some a ∧ a.toNat ∣ n.toNat
  | .void, n, h | .function, n, h => by
    rw [size?] at h
    cases h
    exact ⟨1, by rw [alignment?], by decide⟩
  | .pointer, n, h => by
    rw [size?] at h
    cases h
    exact ⟨8, by rw [alignment?], by decide⟩
  | .integer bits, n, h => by
    rw [size?] at h
    obtain ⟨bytes, -, h⟩ := Option.bind_eq_some_iff.mp h
    obtain ⟨a, ha, h⟩ := Option.bind_eq_some_iff.mp h
    exact ⟨a, ha, (alignTo?_spec (alignment?_pos ha) h).1⟩
  | .array element length, n, h => by
    rw [size?] at h
    obtain ⟨size, hsize, h⟩ := Option.bind_eq_some_iff.mp h
    obtain ⟨a, ha, hdvd⟩ := size?_spec element hsize
    refine ⟨a, by rw [alignment?, ha], ?_⟩
    rw [← Word.mul?_eq_some_iff.mp h]
    exact Nat.dvd_mul_right_of_dvd hdvd _
  | .struct fields, n, h => by
    rw [size?] at h
    obtain ⟨stop, -, h⟩ := Option.bind_eq_some_iff.mp h
    obtain ⟨a, ha, h⟩ := Option.bind_eq_some_iff.mp h
    have halign : (struct fields).alignment? = some a := by rw [alignment?, ha]
    exact ⟨a, halign, (alignTo?_spec (alignment?_pos halign) h).1⟩

theorem le_largestAlignment? {a b : Word} (hmem : t ∈ fields) (ha : t.alignment? = some a)
    (hb : largestAlignment? fields = some b) : a.toNat ≤ b.toNat := by
  induction fields generalizing b with
  | nil => exact absurd hmem List.not_mem_nil
  | cons f rest ih =>
    rw [largestAlignment?] at hb
    obtain ⟨first, hfirst, hb⟩ := Option.bind_eq_some_iff.mp hb
    obtain ⟨others, hothers, hb⟩ := Option.bind_eq_some_iff.mp hb
    have hmax : b.toNat = max first.toNat others.toNat := by
      cases hb
      exact Word.toNat_max first others
    rcases List.mem_cons.mp hmem with rfl | hmem
    · cases hfirst.symm.trans ha
      omega
    · have := ih hmem hothers
      omega

/-- The alignment of a struct is a multiple of the alignment of each field: of two powers of two the larger is a multiple of
the other. -/
theorem dvd_largestAlignment? {a b : Word} (hmem : t ∈ fields) (ha : t.alignment? = some a)
    (hb : largestAlignment? fields = some b) : a.toNat ∣ b.toNat := by
  have hle := le_largestAlignment? hmem ha hb
  obtain ⟨i, -, hi⟩ := alignment?_spec t ha
  obtain ⟨j, -, hj⟩ := largestAlignment?_spec fields hb
  rw [hi, hj] at hle ⊢
  exact Nat.pow_dvd_pow 2 ((Nat.pow_le_pow_iff_right (by decide)).mp hle)

theorem offsetAfter?_append (offset : Word) (l l' : List Ty) :
    offsetAfter? offset (l ++ l') = (offsetAfter? offset l).bind fun stop => offsetAfter? stop l' := by
  induction l generalizing offset with
  | nil => rfl
  | cons f rest ih => simp [offsetAfter?, ih, Option.bind_assoc]

theorem le_of_offsetAfter? {stop : Word} {l : List Ty} (h : offsetAfter? offset l = some stop) :
    offset.toNat ≤ stop.toNat := by
  induction l generalizing offset with
  | nil =>
    cases h
    exact Nat.le_refl _
  | cons f rest ih =>
    rw [offsetAfter?] at h
    obtain ⟨a, ha, h⟩ := Option.bind_eq_some_iff.mp h
    obtain ⟨start, hstart, h⟩ := Option.bind_eq_some_iff.mp h
    obtain ⟨size, -, h⟩ := Option.bind_eq_some_iff.mp h
    obtain ⟨next, hnext, h⟩ := Option.bind_eq_some_iff.mp h
    have hle := (alignTo?_spec (alignment?_pos ha) hstart).2.1
    have hsum := Word.add?_eq_some_iff.mp hnext
    have := ih h
    omega

/-- The front of a row of fields ends somewhere, and not behind a longer front. -/
theorem offsetAfter?_take {stop : Word} (h : offsetAfter? 0 fields = some stop) (k : Nat) :
    ∃ next, offsetAfter? 0 (fields.take k) = some next ∧ next.toNat ≤ stop.toNat ∧
      ∀ k', k ≤ k' → ∀ next', offsetAfter? 0 (fields.take k') = some next' → next.toNat ≤ next'.toNat := by
  rw [← List.take_append_drop k fields, offsetAfter?_append] at h
  obtain ⟨next, hnext, hstop⟩ := Option.bind_eq_some_iff.mp h
  refine ⟨next, hnext, le_of_offsetAfter? hstop, ?_⟩
  intro k' hle next' hnext'
  have hfront : fields.take k' = fields.take k ++ (fields.take k').drop k := by
    have hwhole := List.take_append_drop k (fields.take k')
    rw [List.take_take, Nat.min_eq_left hle] at hwhole
    exact hwhole.symm
  rw [hfront, offsetAfter?_append, hnext] at hnext'
  exact le_of_offsetAfter? hnext'

structure Lies (fields : List Ty) (k : Nat) (inner : Ty) (front start size back : Word) : Prop where
  offset : (struct fields).fieldOffset k = some (some start)
  sized : inner.size? = some size
  aligned : ∀ a, inner.alignment? = some a → a.toNat ∣ start.toNat
  ahead : offsetAfter? 0 (fields.take k) = some front
  behind : front.toNat ≤ start.toNat
  through : offsetAfter? 0 (fields.take (k + 1)) = some back
  ends : start.toNat + size.toNat = back.toNat

theorem exists_lies {stop : Word} (h : offsetAfter? 0 fields = some stop) (hfield : fields[k]? = some inner) :
    ∃ front start size back, Lies fields k inner front start size back ∧ back.toNat ≤ stop.toNat := by
  obtain ⟨front, hfront, -, -⟩ := offsetAfter?_take h k
  obtain ⟨back, hback, hstop, -⟩ := offsetAfter?_take h (k + 1)
  have hstep := hback
  rw [List.take_add_one, hfield, offsetAfter?_append, hfront, Option.bind_some, Option.toList_some, offsetAfter?] at hstep
  obtain ⟨a, ha, hstep⟩ := Option.bind_eq_some_iff.mp hstep
  obtain ⟨start, hstart, hstep⟩ := Option.bind_eq_some_iff.mp hstep
  obtain ⟨size, hsize, hstep⟩ := Option.bind_eq_some_iff.mp hstep
  obtain ⟨back', hsum, hstep⟩ := Option.bind_eq_some_iff.mp hstep
  cases hstep
  obtain ⟨hdvd, hle, -⟩ := alignTo?_spec (alignment?_pos ha) hstart
  refine ⟨front, start, size, back, ⟨?_, hsize, ?_, hfront, hle, hback, Word.add?_eq_some_iff.mp hsum⟩, hstop⟩
  · simp [fieldOffset, hfield, hfront, ha, hstart]
  · intro b hb
    cases ha.symm.trans hb
    exact hdvd

def partOffset? : Ty → Nat → Option Word
  | .struct fields, k => ((struct fields).fieldOffset k).join
  | .array element _, k => element.size?.bind fun size => Word.ofNat? (k * size.toNat)
  | _, _ => none

theorem partOffset?_struct {start : Word} :
    (struct fields).partOffset? k = some start ↔ (struct fields).fieldOffset k = some (some start) := by
  rw [partOffset?, Option.join_eq_some_iff]

theorem partOffset?_array {start size : Word} (hsize : inner.size? = some size) :
    (array inner length).partOffset? k = some start ↔ k * size.toNat = start.toNat := by
  rw [partOffset?, hsize, Option.bind_some, Word.ofNat?_eq_some_iff]

inductive HasPart : Ty → Constant → Nat → Ty → Prop
  | field {fields : List Ty} {inner : Ty} {index : Constant} (hfield : fields[index.value.toNat]? = some inner) :
      HasPart (.struct fields) index index.value.toNat inner
  | item {element : Ty} {length : Word} {index : Constant} (hlow : 0 ≤ index.signed)
      (hhigh : index.signed < length.toNat) : HasPart (.array element length) index index.signed.toNat element

variable {index index' : Constant} {start start' size size' below : Word} {rest indices indices' : List Constant}
  {path path' : List Nat}

/-- An object of `n` bytes has one of another type inside, `size` bytes from `start` on, where it is aligned whenever the
outer one is. -/
structure Encloses (t u : Ty) (n start size : Word) : Prop where
  sized : u.size? = some size
  inside : start.toNat + size.toNat ≤ n.toNat
  aligned : ∀ a b, u.alignment? = some a → t.alignment? = some b → a.toNat ∣ start.toNat ∧ a.toNat ∣ b.toNat

theorem Encloses.refl (hsize : t.size? = some n) : Encloses t t n 0 n := by
  refine ⟨hsize, Nat.le_of_eq (Nat.zero_add _), ?_⟩
  intro a b ha hb
  cases ha.symm.trans hb
  exact ⟨Nat.dvd_zero _, Nat.dvd_refl _⟩

theorem toNat_add_of_le (hle : start.toNat + below.toNat ≤ n.toNat) : (start + below).toNat = start.toNat + below.toNat := by
  rw [UInt64.toNat_add]
  exact Nat.mod_eq_of_lt (Nat.lt_of_le_of_lt hle n.toNat_lt)

/-- What an inner object encloses, the outer one encloses as far on as the inner one begins. -/
theorem Encloses.trans (h : Encloses t u n start size) (h' : Encloses u v size below size') :
    Encloses t v n (start + below) size' := by
  have hinside := h.inside
  have hinside' := h'.inside
  have hwithin : start.toNat + below.toNat ≤ n.toNat := by omega
  have hsum := toNat_add_of_le hwithin
  refine ⟨h'.sized, by omega, ?_⟩
  intro a c ha hc
  obtain ⟨b, hb, -⟩ := size?_spec u h.sized
  obtain ⟨hstart, hbc⟩ := h.aligned b c hb hc
  obtain ⟨hbelow, hab⟩ := h'.aligned a b ha hb
  rw [hsum]
  exact ⟨Nat.dvd_add (hab.trans hstart) hbelow, hab.trans hbc⟩

theorem HasPart.encloses (h : HasPart t index k inner) (hsize : t.size? = some n) :
    ∃ start size, t.partOffset? k = some start ∧ Encloses t inner n start size := by
  cases h with
  | @field fields _ _ hfield =>
    rw [size?] at hsize
    obtain ⟨stop, hstop, hsize⟩ := Option.bind_eq_some_iff.mp hsize
    obtain ⟨b, hb, hsize⟩ := Option.bind_eq_some_iff.mp hsize
    obtain ⟨_, start, size, back, hlies, hback⟩ := exists_lies hstop hfield
    have hends := hlies.ends
    have halign : (struct fields).alignment? = some b := by rw [alignment?, hb]
    have hpadded := (alignTo?_spec (alignment?_pos halign) hsize).2.1
    refine ⟨start, size, partOffset?_struct.mpr hlies.offset, hlies.sized, by omega, ?_⟩
    intro a b' ha hb'
    cases halign.symm.trans hb'
    exact ⟨hlies.aligned a ha, dvd_largestAlignment? (List.mem_of_getElem? hfield) ha hb⟩
  | @item _ length _ hlow hhigh =>
    rw [size?] at hsize
    obtain ⟨size, hinner, hsize⟩ := Option.bind_eq_some_iff.mp hsize
    rw [Word.mul?_eq_some_iff, Nat.mul_comm] at hsize
    have hplace : index.signed.toNat + 1 ≤ length.toNat := by omega
    have hinside := Nat.mul_le_mul_right size.toNat hplace
    rw [Nat.succ_mul, hsize] at hinside
    have hfits : index.signed.toNat * size.toNat < 2 ^ 64 := Nat.lt_of_le_of_lt (by omega) n.toNat_lt
    have hvalue : (UInt64.ofNat (index.signed.toNat * size.toNat)).toNat = index.signed.toNat * size.toNat :=
      UInt64.toNat_ofNat_of_lt hfits
    refine ⟨_, size, (partOffset?_array hinner).mpr hvalue.symm, hinner, by omega, ?_⟩
    intro a b ha hb
    rw [alignment?, ha] at hb
    cases hb
    obtain ⟨b, hb, hdvd⟩ := size?_spec inner hinner
    cases ha.symm.trans hb
    rw [hvalue]
    exact ⟨Nat.dvd_mul_left_of_dvd hdvd _, Nat.dvd_refl _⟩

/-- Of two parts the one with the smaller number ends where the other one begins, or before. -/
theorem HasPart.apart (h : HasPart t index k inner) (h' : HasPart t index' k' inner') (hlt : k < k')
    (hsize : t.size? = some n) (hstart : t.partOffset? k = some start) (hinner : inner.size? = some size)
    (hstart' : t.partOffset? k' = some start') : start.toNat + size.toNat ≤ start'.toNat := by
  cases h with
  | field hfield =>
    cases h' with
    | field hfield' =>
      rw [size?] at hsize
      obtain ⟨stop, hstop, -⟩ := Option.bind_eq_some_iff.mp hsize
      obtain ⟨_, _, _, back, hlies, -⟩ := exists_lies hstop hfield
      obtain ⟨front, _, _, _, hlies', -⟩ := exists_lies hstop hfield'
      cases (partOffset?_struct.mp hstart).symm.trans hlies.offset
      cases (partOffset?_struct.mp hstart').symm.trans hlies'.offset
      cases hlies.sized.symm.trans hinner
      obtain ⟨_, hback, -, hmono⟩ := offsetAfter?_take hstop (index.value.toNat + 1)
      cases hlies.through.symm.trans hback
      calc start.toNat + size.toNat = back.toNat := hlies.ends
        _ ≤ front.toNat := hmono _ hlt _ hlies'.ahead
        _ ≤ start'.toNat := hlies'.behind
  | item hlow hhigh =>
    cases h' with
    | item hlow' hhigh' =>
      have hle := Nat.mul_le_mul_right size.toNat (Nat.succ_le_of_lt hlt)
      rw [Nat.succ_mul, (partOffset?_array hinner).mp hstart, (partOffset?_array hinner).mp hstart'] at hle
      exact hle

theorem HasPart.innerOffset_cons (h : HasPart t index k inner) (hstart : t.partOffset? k = some start)
    (hsize : inner.size? = some size) (hbelow : innerOffset inner rest = .ok below) : innerOffset t (index :: rest) = .ok (start + below) := by
  cases h with
  | field hfield =>
    rw [partOffset?_struct] at hstart
    simp only [innerOffset, hstart, hfield, hbelow]
    rfl
  | @item _ length _ hlow hhigh =>
    rw [partOffset?_array hsize] at hstart
    have hindex : (Word.ofInt index.signed).toNat = index.signed.toNat := by
      have hword := Constant.toNat_ofInt_word index.signed
      have hlt := length.toNat_lt
      rw [Int.emod_eq_of_lt hlow (by omega)] at hword
      omega
    have hproduct : Word.ofInt index.signed * size = start := by
      rw [← UInt64.toNat_inj, UInt64.toNat_mul, hindex, hstart]
      exact Nat.mod_eq_of_lt start.toNat_lt
    simp only [innerOffset, hsize, hbelow]
    rw [← hproduct]
    rfl

theorem HasPart.elementType? (h : HasPart t index k inner) : t.elementType? k = some inner := by
  cases h with
  | field hfield => exact hfield
  | item hlow hhigh => rfl

theorem HasPart.eq (h : HasPart t index k inner) (h' : HasPart t index' k inner') : inner = inner' :=
  Option.some.inj (h.elementType?.symm.trans h'.elementType?)

/-- Indices step through a type: along a path of parts, given by their numbers, to an inner type. -/
inductive Steps : Ty → List Constant → List Nat → Ty → Prop
  | here (t : Ty) : Steps t [] [] t
  | step {t inner u : Ty} {index : Constant} {k : Nat} {rest : List Constant} {path : List Nat}
      (part : HasPart t index k inner) (steps : Steps inner rest path u) : Steps t (index :: rest) (k :: path) u

theorem Steps.encloses (h : Steps t indices path u) (hsize : t.size? = some n) :
    ∃ start size, innerOffset t indices = .ok start ∧ Encloses t u n start size := by
  induction h generalizing n with
  | here t => exact ⟨0, n, rfl, .refl hsize⟩
  | step part steps ih =>
    obtain ⟨start, size, hstart, houter⟩ := part.encloses hsize
    obtain ⟨below, size', hbelow, hinner⟩ := ih houter.sized
    exact ⟨start + below, size', part.innerOffset_cons hstart houter.sized hbelow, houter.trans hinner⟩

/-- Two paths through a type lead to objects side by side, unless one path extends the other: that one leads into the object
that the other leads to. -/
theorem Steps.nested_or_apart (h : Steps t indices path u) (h' : Steps t indices' path' v) (hsize : t.size? = some n)
    (hstart : innerOffset t indices = .ok start) (hstart' : innerOffset t indices' = .ok start')
    (hu : u.size? = some size) (hv : v.size? = some size') :
    (path <+: path' → start.toNat ≤ start'.toNat ∧ start'.toNat + size'.toNat ≤ start.toNat + size.toNat) ∧
      (¬ path <+: path' → ¬ path' <+: path →
        start.toNat + size.toNat ≤ start'.toNat ∨ start'.toNat + size'.toNat ≤ start.toNat) := by
  induction h generalizing indices' path' start start' n with
  | here t =>
    obtain ⟨w, m, hw, hencloses⟩ := h'.encloses hsize
    cases hstart
    cases hw.symm.trans hstart'
    cases hencloses.sized.symm.trans hv
    cases hsize.symm.trans hu
    refine ⟨fun _ => ⟨Nat.zero_le _, ?_⟩, fun hnot => absurd List.nil_prefix hnot⟩
    have hzero : (0 : Word).toNat = 0 := rfl
    have hinside := hencloses.inside
    omega
  | @step t inner u index k rest path part steps ih =>
    cases h' with
    | here => exact ⟨fun hprefix => absurd hprefix (by simp), fun _ hnot => absurd List.nil_prefix hnot⟩
    | @step _ inner' _ index' k' rest' path' part' steps' =>
      obtain ⟨w, s, hw, houter⟩ := part.encloses hsize
      obtain ⟨w', s', hw', houter'⟩ := part'.encloses hsize
      obtain ⟨below, m, hbelow, hinner⟩ := steps.encloses houter.sized
      obtain ⟨below', m', hbelow', hinner'⟩ := steps'.encloses houter'.sized
      cases (part.innerOffset_cons hw houter.sized hbelow).symm.trans hstart
      cases (part'.innerOffset_cons hw' houter'.sized hbelow').symm.trans hstart'
      cases hinner.sized.symm.trans hu
      cases hinner'.sized.symm.trans hv
      have hin := hinner.inside
      have hin' := hinner'.inside
      have hout := houter.inside
      have hout' := houter'.inside
      rw [toNat_add_of_le (n := n) (by omega), toNat_add_of_le (n := n) (by omega), List.cons_prefix_cons,
        List.cons_prefix_cons]
      rcases Nat.lt_trichotomy k k' with hlt | heq | hlt
      · have hbehind := part.apart part' hlt hsize hw houter.sized hw'
        exact ⟨fun hprefix => by omega, fun _ _ => .inl (by omega)⟩
      · subst heq
        cases part.eq part'
        cases hw.symm.trans hw'
        obtain ⟨hnested, hapart⟩ := ih steps' houter.sized hbelow hbelow' hu
        refine ⟨fun hprefix => ?_, fun hnot hnot' => ?_⟩
        · have := hnested hprefix.2
          omega
        · have := hapart (fun h => hnot ⟨rfl, h⟩) fun h => hnot' ⟨rfl, h⟩
          omega
      · have hbehind := part'.apart part hlt hsize hw' houter'.sized hw
        exact ⟨fun hprefix => by omega, fun _ _ => .inr (by omega)⟩

/-- Index lists whose first index is zero and whose further indices step through a type to an inner one. -/
def Indexes (t : Ty) (indices : List Constant) (path : List Nat) (u : Ty) : Prop :=
  ∃ zero rest, indices = zero :: rest ∧ zero.signed = 0 ∧ Steps t rest path u

theorem Indexes.elementOffset_eq (h : Indexes t indices path u) (hsize : t.size? = some n) :
    ∃ rest start, Steps t rest path u ∧ innerOffset t rest = .ok start ∧ elementOffset t indices = .ok start := by
  obtain ⟨zero, rest, rfl, hzero, hsteps⟩ := h
  obtain ⟨start, size, hstart, -⟩ := hsteps.encloses hsize
  refine ⟨rest, start, hsteps, hstart, ?_⟩
  have hword : Word.ofInt 0 * n + start = start := by
    rw [show Word.ofInt 0 = 0 from rfl, UInt64.zero_mul, UInt64.zero_add]
  simp only [elementOffset, hsize, hstart, hzero]
  exact congrArg Except.ok hword

def bytesFrom (start size : Word) : Set Nat := Set.Ico start.toNat (start.toNat + size.toNat)

/-- Indices lead along a path to an object of an inner type, `size` bytes from `start` on. -/
structure Locates (t : Ty) (indices : List Constant) (path : List Nat) (u : Ty) (start size : Word) : Prop where
  indexes : Indexes t indices path u
  offset : elementOffset t indices = .ok start
  sized : u.size? = some size

/-- Indices that step through a type lead to an object inside it, at an offset that is aligned for it. Two of them lead to
objects that share no byte, unless the path of one extends that of the other and leads into its object. -/
theorem elements_inside (hsize : t.size? = some n) :
    (∀ indices path u, Indexes t indices path u → ∃ start size a, Locates t indices path u start size ∧
      u.alignment? = some a ∧ start.toNat + size.toNat ≤ n.toNat ∧ a.toNat ∣ start.toNat) ∧
      ∀ indices path u start size indices' path' u' start' size', Locates t indices path u start size →
        Locates t indices' path' u' start' size' →
          (path <+: path' → bytesFrom start' size' ⊆ bytesFrom start size) ∧
            (¬ path <+: path' → ¬ path' <+: path → Disjoint (bytesFrom start size) (bytesFrom start' size')) := by
  constructor
  · intro indices path u h
    obtain ⟨rest, w, hsteps, hw, hoffset⟩ := h.elementOffset_eq hsize
    obtain ⟨start, size, hstart, hencloses⟩ := hsteps.encloses hsize
    obtain rfl : w = start := Except.ok.inj (hw.symm.trans hstart)
    obtain ⟨a, ha, -⟩ := size?_spec u hencloses.sized
    obtain ⟨b, hb, -⟩ := size?_spec t hsize
    exact ⟨w, size, a, ⟨h, hoffset, hencloses.sized⟩, ha, hencloses.inside, (hencloses.aligned a b ha hb).1⟩
  · intro indices path u start size indices' path' u' start' size' h h'
    obtain ⟨rest, w, hsteps, hw, hoffset⟩ := h.indexes.elementOffset_eq hsize
    obtain ⟨rest', w', hsteps', hw', hoffset'⟩ := h'.indexes.elementOffset_eq hsize
    cases hoffset.symm.trans h.offset
    cases hoffset'.symm.trans h'.offset
    obtain ⟨hnested, hapart⟩ := hsteps.nested_or_apart hsteps' hsize hw hw' h.sized h'.sized
    constructor
    · intro hprefix
      obtain ⟨hlow, hhigh⟩ := hnested hprefix
      exact Set.Ico_subset_Ico hlow hhigh
    · intro hnot hnot'
      apply Set.disjoint_left.mpr
      intro address hin hin'
      have hlow := hin.1
      have hhigh := hin.2
      have hlow' := hin'.1
      have hhigh' := hin'.2
      have := hapart hnot hnot'
      omega

/-- A byte, three pairs of an odd number of bits and a flag, and more bits than a word has. -/
def mixed : Ty := .struct [.integer 8, .array (.struct [.integer 24, .integer 1]) 3, .integer 70]

def indicesOf (l : List Word) : List Constant := l.map fun w => .make w 64

theorem elements_inside_mixed :
    mixed.size? = some 48 ∧ Locates mixed (indicesOf [0, 1, 2, 1]) [1, 2, 1] (.integer 1) 24 1 ∧
      Locates mixed (indicesOf [0, 1, 2, 0]) [1, 2, 0] (.integer 24) 20 4 ∧ Disjoint (bytesFrom 24 1) (bytesFrom 20 4) := by
  have hsize : mixed.size? = some 48 := by decide +kernel
  have hflag : Indexes mixed (indicesOf [0, 1, 2, 1]) [1, 2, 1] (.integer 1) :=
    ⟨_, _, rfl, by decide, .step (.field rfl) (.step (.item (by decide) (by decide)) (.step (.field rfl) (.here _)))⟩
  have hnumber : Indexes mixed (indicesOf [0, 1, 2, 0]) [1, 2, 0] (.integer 24) :=
    ⟨_, _, rfl, by decide, .step (.field rfl) (.step (.item (by decide) (by decide)) (.step (.field rfl) (.here _)))⟩
  have hflagAt : Locates mixed (indicesOf [0, 1, 2, 1]) [1, 2, 1] (.integer 1) 24 1 :=
    ⟨hflag, by decide +kernel, by decide +kernel⟩
  have hnumberAt : Locates mixed (indicesOf [0, 1, 2, 0]) [1, 2, 0] (.integer 24) 20 4 :=
    ⟨hnumber, by decide +kernel, by decide +kernel⟩
  have hapart := ((elements_inside hsize).2 _ _ _ _ _ _ _ _ _ _ hflagAt hnumberAt).2 (by decide) (by decide)
  exact ⟨hsize, hflagAt, hnumberAt, hapart⟩

end Ty

end RegionGuard

import RegionGuard.Proofs.Blocks
import RegionGuard.Proofs.Drafts
import RegionGuard.Proofs.Temporaries
import RegionGuard.Proofs.Vouching
set_option autoImplicit false

/-!
# Straight code beside its hoisted version

Two versions of the instructions of a block: in the first every guard stands in front of its access, in
the second some of these guards are missing and hoisted code is there instead. Whatever is neither a guard
nor hoisted stands in both, in the same order.
-/

namespace RegionGuard

/-- What two versions of a function agree on: the entry points, the first temporary that guards may write,
the first block that hoisted code may add, the first number that guards may have in a block, and the
accesses of each block that have a guard of their own in the first version only. -/
structure Margin where
  hooks : Hooks
  temps : Nat
  blocks : Nat
  numbers : Nat → Nat
  moved : Nat → Value → Access → Prop

/-- The operation computes a temporary from a number on. -/
def Operation.Computes (n : Nat) (o : Operation) : Prop := ∃ dst, o.computes? = some dst ∧ dst.IsUpcoming n

def Operation.MayHoist (m : Margin) (o : Operation) : Prop :=
  (∃ dst, o.computes? = some dst ∧ dst.IsUpcoming m.temps) ∨
    ∃ address flag, o = .notify m.hooks.guardAddress [address, flag]

/-- The rule places guards in front of loops. -/
def GuardRule.Hoists (r : GuardRule) : Prop := r = .invariantHoist ∨ r = .inductionHoist

namespace Instruction

structure IsHoisted (m : Margin) (k : Nat) (z : Instruction) : Prop where
  number : k ≤ z.index
  rule : ∃ r : GuardRule, r.Hoists ∧ z.tag? Tag.rule = some r.text
  operation : z.operation.MayHoist m

structure IsGuard (m : Margin) (k : Nat) (x y : Instruction) (pointer : Value) (access : Access) : Prop where
  first : k ≤ x.index
  second : k ≤ y.index
  address : ∃ temp : Variable, temp.IsUpcoming m.temps ∧ x.TakesAddress temp pointer ∧
    y.Validates m.hooks temp access

def PastPhis (l : List Instruction) : Prop := ∀ i ∈ l.head?, i.operation.isPhi = false

theorem pastPhis_nil : PastPhis [] := by
  rintro i ⟨⟩

theorem pastPhis_cons {i : Instruction} {l : List Instruction} (h : i.operation.isPhi = false) :
    PastPhis (i :: l) := by
  rintro _ ⟨⟩
  exact h

theorem PastPhis.insert {front new back : List Instruction} (h : PastPhis (front ++ back))
    (hnew : PastPhis new) : PastPhis (front ++ (new ++ back)) := by
  cases front with
  | cons i front => exact h
  | nil =>
    cases new with
    | nil => exact h
    | cons i new => exact hnew

theorem PastPhis.dropWhile {l : List Instruction} (h : PastPhis l) :
    l.dropWhile (·.operation.isPhi) = l := by
  cases l with
  | nil => rfl
  | cons i rest =>
    have hi : i.operation.isPhi = false := h i rfl
    simp [hi]

theorem IsHoisted.notPhi {m : Margin} {k : Nat} {z : Instruction} (hz : z.IsHoisted m k) :
    z.operation.isPhi = false := by
  rcases hz.operation with ⟨dst, hcomputes, -⟩ | ⟨address, flag, ho⟩
  · cases ho : z.operation <;> rw [ho] at hcomputes <;> first | rfl | cases hcomputes
  · rw [ho]
    rfl

theorem PastPhis.takeWhile {l : List Instruction} (h : PastPhis l) :
    l.takeWhile (·.operation.isPhi) = [] := by
  cases l with
  | nil => rfl
  | cons i rest =>
    have hi : i.operation.isPhi = false := h i rfl
    simp [hi]

theorem IsHoisted.notReturn {m : Margin} {k : Nat} {z : Instruction} (hz : z.IsHoisted m k) :
    z.operation.isReturn = false := by
  rcases hz.operation with ⟨dst, hcomputes, -⟩ | ⟨address, flag, ho⟩
  · cases ho : z.operation <;> rw [ho] at hcomputes <;> first | rfl | cases hcomputes
  · rw [ho]
    rfl

theorem IsHoisted.notSlot {m : Margin} {k : Nat} {z : Instruction} (hz : z.IsHoisted m k) :
    z.operation.isAlloca = false := by
  rcases hz.operation with ⟨dst, hcomputes, -⟩ | ⟨address, flag, ho⟩
  · cases ho : z.operation <;> rw [ho] at hcomputes <;> first | rfl | cases hcomputes
  · rw [ho]
    rfl

theorem IsGuard.pastPhis {m : Margin} {k : Nat} {x y : Instruction} {pointer : Value} {access : Access}
    (h : IsGuard m k x y pointer access) {l : List Instruction} : PastPhis (x :: l) := by
  obtain ⟨temp, -, htakes, -⟩ := h.address
  apply pastPhis_cons
  rw [htakes.1]
  rfl

end Instruction

/-- The two versions of straight code in a block. Numbers below `k` are those of the code without guards. -/
inductive Strand (m : Margin) (block k : Nat) (arrival : Nat → Nat) : List Instruction → List Instruction → Prop where
  | nil : Strand m block k arrival [] []
  | both {i j : Instruction} {is js : List Instruction} (index : i.index = j.index) (original : i.index < k)
    (mirrors : i.operation.Mirrors m.blocks arrival j.operation) (avoids : i.operation.Avoids m.temps)
    (rest : Strand m block k arrival is js) : Strand m block k arrival (i :: is) (j :: js)
  | stack {i j : Instruction} {is js : List Instruction} (size : Word) (first : k ≤ i.index)
    (second : k ≤ j.index) (left : i.operation = .notify m.hooks.guardCalleeStack [.ofWord size 64])
    (right : j.operation = .notify m.hooks.guardCalleeStack [.ofWord size 64])
    (rest : Strand m block k arrival is js) : Strand m block k arrival (i :: is) (j :: js)
  | guard {x y x' y' : Instruction} {is js : List Instruction} {pointer : Value} {access : Access}
    (left : Instruction.IsGuard m k x y pointer access) (right : Instruction.IsGuard m k x' y' pointer access)
    (avoids : pointer.Avoids m.temps) (rest : Strand m block k arrival is js) :
    Strand m block k arrival (x :: y :: is) (x' :: y' :: js)
  | moved {x y : Instruction} {is js : List Instruction} {pointer : Value} {access : Access}
    (left : Instruction.IsGuard m k x y pointer access) (hoisted : m.moved block pointer access)
    (avoids : pointer.Avoids m.temps) (notPhi : Instruction.PastPhis js)
    (rest : Strand m block k arrival is js) : Strand m block k arrival (x :: y :: is) js
  | hoisted {z : Instruction} {is js : List Instruction} (right : z.IsHoisted m k)
    (notPhi : Instruction.PastPhis is) (rest : Strand m block k arrival is js) :
    Strand m block k arrival is (z :: js)

namespace Strand

variable {m : Margin} {block k : Nat} {arrival arrival' : Nat → Nat} {fs os : List Instruction}

theorem refl (h : ∀ i ∈ fs, i.index < k ∧ i.operation.Avoids m.temps ∧
      ∀ dst incoming, i.operation = .phi dst incoming → ∀ e ∈ incoming, e.2 < m.blocks) :
    Strand m block k id fs fs := by
  induction fs with
  | nil => exact .nil
  | cons i rest ih =>
    obtain ⟨hindex, havoids, hknown⟩ := h i List.mem_cons_self
    exact .both rfl hindex (.refl hknown) havoids (ih fun j hj => h j (List.mem_cons_of_mem _ hj))

/-- Changes that touch neither numbers nor what instructions do keep two versions abreast. The second one
may take over other blocks. -/
theorem map {f g : Instruction → Instruction} (hf : ∀ i, (f i).index = i.index ∧ (f i).operation = i.operation)
    (hg : ∀ i, (g i).index = i.index ∧ (g i).tag? Tag.rule = i.tag? Tag.rule)
    (hsame : ∀ i : Instruction, i.operation.isPhi = false → (g i).operation = i.operation)
    (hmirrors : ∀ (o : Operation) (i : Instruction), o.Mirrors m.blocks arrival i.operation →
      o.Mirrors m.blocks arrival' (g i).operation) (h : Strand m block k arrival fs os) :
    Strand m block k arrival' (fs.map f) (os.map g) := by
  have left : ∀ {x y : Instruction} {v : Value} {a : Access}, Instruction.IsGuard m k x y v a →
      Instruction.IsGuard m k (f x) (f y) v a := by
    rintro x y v a ⟨hx, hy, temp, htemp, htakes, hvalidates⟩
    refine ⟨(hf x).1 ▸ hx, (hf y).1 ▸ hy, temp, htemp, ⟨(hf x).2.trans htakes.1, htakes.2⟩, ?_⟩
    exact (hf y).2.trans hvalidates
  have right : ∀ {x y : Instruction} {v : Value} {a : Access}, Instruction.IsGuard m k x y v a →
      Instruction.IsGuard m k (g x) (g y) v a := by
    rintro x y v a ⟨hx, hy, temp, htemp, htakes, hvalidates⟩
    refine ⟨(hg x).1 ▸ hx, (hg y).1 ▸ hy, temp, htemp, ⟨?_, htakes.2⟩, ?_⟩
    · rw [hsame x (by rw [htakes.1]; rfl), htakes.1]
    · unfold Instruction.Validates at hvalidates ⊢
      rw [hsame y (by rw [hvalidates]; rfl), hvalidates]
  induction h with
  | nil => exact .nil
  | both index original mirrors avoids rest ih =>
    refine .both ?_ ?_ ?_ ?_ ih
    · rw [(hf _).1, (hg _).1, index]
    · rw [(hf _).1]
      exact original
    · rw [(hf _).2]
      exact hmirrors _ _ mirrors
    · rw [(hf _).2]
      exact avoids
  | stack size first second hleft hright rest ih =>
    refine .stack size ?_ ?_ ?_ ?_ ih
    · rw [(hf _).1]
      exact first
    · rw [(hg _).1]
      exact second
    · rw [(hf _).2, hleft]
    · rw [hsame _ (by rw [hright]; rfl), hright]
  | guard hleft hright avoids rest ih => exact .guard (left hleft) (right hright) avoids ih
  | moved hleft hoisted avoids notPhi rest ih =>
    refine .moved (left hleft) hoisted avoids (fun j hj => ?_) ih
    rw [List.head?_map] at hj
    obtain ⟨i, hi, rfl⟩ := Option.map_eq_some_iff.mp hj
    rw [hsame i (notPhi i hi)]
    exact notPhi i hi
  | @hoisted z is js hright notPhi rest ih =>
    have hz := hsame z hright.notPhi
    refine .hoisted ⟨?_, ?_, ?_⟩ (fun j hj => ?_) ih
    · rw [(hg z).1]
      exact hright.number
    · rw [(hg z).2]
      exact hright.rule
    · rw [hz]
      exact hright.operation
    · rw [List.head?_map] at hj
      obtain ⟨i, hi, rfl⟩ := Option.map_eq_some_iff.mp hj
      rw [(hf i).2]
      exact notPhi i hi

theorem pastPhis (h : Strand m block k arrival fs os) (hfs : Instruction.PastPhis fs) :
    Instruction.PastPhis os := by
  cases h with
  | nil => exact hfs
  | both _ _ mirrors _ _ =>
    apply Instruction.pastPhis_cons
    rw [← mirrors.isPhi]
    exact hfs _ rfl
  | stack _ _ _ _ right _ =>
    apply Instruction.pastPhis_cons
    rw [right]
    rfl
  | guard _ right _ _ => exact right.pastPhis
  | moved _ _ _ notPhi _ => exact notPhi
  | hoisted right _ _ => exact Instruction.pastPhis_cons right.notPhi

theorem exists_right (h : Strand m block k arrival fs os) {i : Instruction} (hi : i ∈ fs) (hk : i.index < k) :
    ∃ j ∈ os, j.index = i.index := by
  induction h with
  | nil => cases hi
  | both index _ _ _ _ ih =>
    rcases List.mem_cons.mp hi with rfl | hi
    · exact ⟨_, List.mem_cons_self, index.symm⟩
    · exact (ih hi).imp fun _ hj => ⟨List.mem_cons_of_mem _ hj.1, hj.2⟩
  | stack _ first _ _ _ _ ih =>
    rcases List.mem_cons.mp hi with rfl | hi
    · omega
    · exact (ih hi).imp fun _ hj => ⟨List.mem_cons_of_mem _ hj.1, hj.2⟩
  | guard left _ _ _ ih =>
    have := left.first
    have := left.second
    rcases List.mem_cons.mp hi with rfl | hi
    · omega
    · rcases List.mem_cons.mp hi with rfl | hi
      · omega
      · exact (ih hi).imp fun _ hj =>
          ⟨List.mem_cons_of_mem _ (List.mem_cons_of_mem _ hj.1), hj.2⟩
  | moved left _ _ _ _ ih =>
    have := left.first
    have := left.second
    rcases List.mem_cons.mp hi with rfl | hi
    · omega
    · rcases List.mem_cons.mp hi with rfl | hi
      · omega
      · exact ih hi
  | hoisted _ _ _ ih => exact (ih hi).imp fun _ hj => ⟨List.mem_cons_of_mem _ hj.1, hj.2⟩

section Insertion

variable {nf no : List Instruction}

/-- New code that may go in front of two versions of the same code. -/
structure Fits (m : Margin) (block k : Nat) (arrival : Nat → Nat) (nf no : List Instruction) : Prop where
  left : Instruction.PastPhis nf
  right : Instruction.PastPhis no
  grow : ∀ {is js : List Instruction}, Instruction.PastPhis is → Instruction.PastPhis js →
    Strand m block k arrival is js → Strand m block k arrival (nf ++ is) (no ++ js)

theorem split_cons {x i : Instruction} {l front back : List Instruction} (h : front ++ i :: back = x :: l)
    (hne : x.index ≠ i.index) : ∃ front', front = x :: front' ∧ front' ++ i :: back = l := by
  cases front with
  | nil =>
    cases h
    exact absurd rfl hne
  | cons y front =>
    cases h
    exact ⟨front, rfl, rfl⟩

/-- New code goes in front of an original instruction, which both versions know by its number. -/
theorem insert {f₁ f₂ o₁ o₂ : List Instruction} {i j : Instruction} (fits : Fits m block k arrival nf no)
    (h : Strand m block k arrival (f₁ ++ i :: f₂) (o₁ ++ j :: o₂)) (hi : i.index < k) (hij : i.index = j.index)
    (hf₁ : ∀ x ∈ f₁, x.index ≠ i.index) (ho₁ : ∀ x ∈ o₁, x.index ≠ j.index)
    (hphi : i.operation.isPhi = false) :
    Strand m block k arrival (f₁ ++ (nf ++ i :: f₂)) (o₁ ++ (no ++ j :: o₂)) := by
  generalize hfs : f₁ ++ i :: f₂ = fs at h
  generalize hos : o₁ ++ j :: o₂ = os at h
  induction h generalizing f₁ o₁ with
  | nil => simp at hfs
  | @both i' j' is js index original mirrors avoids rest ih =>
    by_cases hhere : i'.index = i.index
    · cases f₁ with
      | cons x f₁ =>
        cases hfs
        exact absurd hhere (hf₁ _ List.mem_cons_self)
      | nil =>
        cases hfs
        cases o₁ with
        | cons x o₁ =>
          cases hos
          exact absurd (index.symm.trans hij) (ho₁ _ List.mem_cons_self)
        | nil =>
          cases hos
          refine fits.grow (Instruction.pastPhis_cons hphi) (Instruction.pastPhis_cons ?_)
            (.both index original mirrors avoids rest)
          rw [← mirrors.isPhi]
          exact hphi
    · obtain ⟨f₁', rfl, hfs'⟩ := split_cons hfs hhere
      obtain ⟨o₁', rfl, hos'⟩ := split_cons hos fun he => hhere (index.trans (he.trans hij.symm))
      exact .both index original mirrors avoids (ih (fun x hx => hf₁ x (List.mem_cons_of_mem _ hx))
        (fun x hx => ho₁ x (List.mem_cons_of_mem _ hx)) hfs' hos')
  | stack size first second left right rest ih =>
    obtain ⟨f₁', rfl, hfs'⟩ := split_cons hfs (by omega)
    obtain ⟨o₁', rfl, hos'⟩ := split_cons hos (by omega)
    exact .stack size first second left right (ih (fun x hx => hf₁ x (List.mem_cons_of_mem _ hx))
      (fun x hx => ho₁ x (List.mem_cons_of_mem _ hx)) hfs' hos')
  | guard left right avoids rest ih =>
    have := left.first
    have := left.second
    have := right.first
    have := right.second
    obtain ⟨f₁', rfl, hfs'⟩ := split_cons hfs (by omega)
    obtain ⟨f₁'', rfl, hfs''⟩ := split_cons hfs' (by omega)
    obtain ⟨o₁', rfl, hos'⟩ := split_cons hos (by omega)
    obtain ⟨o₁'', rfl, hos''⟩ := split_cons hos' (by omega)
    exact .guard left right avoids
      (ih (fun x hx => hf₁ x (List.mem_cons_of_mem _ (List.mem_cons_of_mem _ hx)))
        (fun x hx => ho₁ x (List.mem_cons_of_mem _ (List.mem_cons_of_mem _ hx))) hfs'' hos'')
  | moved left hoisted avoids notPhi rest ih =>
    have := left.first
    have := left.second
    obtain ⟨f₁', rfl, hfs'⟩ := split_cons hfs (by omega)
    obtain ⟨f₁'', rfl, hfs''⟩ := split_cons hfs' (by omega)
    subst hos
    exact .moved left hoisted avoids (notPhi.insert fits.right)
      (ih (fun x hx => hf₁ x (List.mem_cons_of_mem _ (List.mem_cons_of_mem _ hx))) ho₁ hfs'' rfl)
  | hoisted right notPhi rest ih =>
    have := right.number
    obtain ⟨o₁', rfl, hos'⟩ := split_cons hos (by omega)
    subst hfs
    exact .hoisted right (notPhi.insert fits.left)
      (ih hf₁ (fun x hx => ho₁ x (List.mem_cons_of_mem _ hx)) rfl hos')

theorem fits_guard {x y x' y' : Instruction} {pointer : Value} {access : Access}
    (left : Instruction.IsGuard m k x y pointer access) (right : Instruction.IsGuard m k x' y' pointer access)
    (avoids : pointer.Avoids m.temps) : Fits m block k arrival [x, y] [x', y'] where
  left := left.pastPhis
  right := right.pastPhis
  grow _ _ h := .guard left right avoids h

theorem fits_moved {x y : Instruction} {pointer : Value} {access : Access}
    (left : Instruction.IsGuard m k x y pointer access) (hoisted : m.moved block pointer access)
    (avoids : pointer.Avoids m.temps) : Fits m block k arrival [x, y] [] where
  left := left.pastPhis
  right := Instruction.pastPhis_nil
  grow _ hjs h := .moved left hoisted avoids hjs h

end Insertion

theorem append_hoisted {zs : List Instruction} (h : Strand m block k arrival fs os)
    (hzs : ∀ z ∈ zs, z.IsHoisted m k) : Strand m block k arrival fs (os ++ zs) := by
  have hphis : Instruction.PastPhis zs := fun z hz => (hzs z (List.mem_of_mem_head? hz)).notPhi
  induction h with
  | nil =>
    induction zs with
    | nil => exact .nil
    | cons z zs ih =>
      have hrest := fun z' hz' => hzs z' (List.mem_cons_of_mem _ hz')
      exact .hoisted (hzs z List.mem_cons_self) Instruction.pastPhis_nil
        (ih hrest fun z' hz' => (hrest z' (List.mem_of_mem_head? hz')).notPhi)
  | both index original mirrors avoids rest ih => exact .both index original mirrors avoids ih
  | stack size first second left right rest ih => exact .stack size first second left right ih
  | guard left right avoids rest ih => exact .guard left right avoids ih
  | @moved x y is js pointer access left hoisted avoids notPhi rest ih =>
    refine .moved left hoisted avoids ?_ ih
    cases js with
    | nil => exact hphis
    | cons j js => exact notPhi
  | hoisted right notPhi rest ih => exact .hoisted right notPhi ih

theorem cons_hoisted {zs : List Instruction} (hfs : Instruction.PastPhis fs)
    (hzs : ∀ z ∈ zs, z.IsHoisted m k) (h : Strand m block k arrival fs os) : Strand m block k arrival fs (zs ++ os) := by
  induction zs with
  | nil => exact h
  | cons z zs ih =>
    exact .hoisted (hzs z List.mem_cons_self) hfs (ih fun z' hz' => hzs z' (List.mem_cons_of_mem _ hz'))

theorem split_of_ne {x i : Instruction} {l front back : List Instruction} (h : front ++ i :: back = x :: l)
    (hne : x ≠ i) : ∃ front', front = x :: front' ∧ front' ++ i :: back = l := by
  cases front with
  | nil =>
    cases h
    exact absurd rfl hne
  | cons y front =>
    cases h
    exact ⟨front, rfl, rfl⟩

theorem insert_before_return {front zs : List Instruction} {r : Instruction} (hr : r.operation.isReturn)
    (h : Strand m block k arrival fs (front ++ [r])) (hzs : ∀ z ∈ zs, z.IsHoisted m k) :
    Strand m block k arrival fs (front ++ (zs ++ [r])) := by
  have hphis : Instruction.PastPhis zs := fun z hz => (hzs z (List.mem_of_mem_head? hz)).notPhi
  have hne : ∀ x : Instruction, x.operation.isReturn = false → x ≠ r := by
    rintro x hx rfl
    rw [hr] at hx
    cases hx
  generalize hos : front ++ [r] = os at h
  induction h generalizing front with
  | nil => simp at hos
  | @both i j is js index original mirrors avoids rest ih =>
    cases front with
    | nil =>
      cases hos
      rw [List.nil_append]
      refine cons_hoisted (Instruction.pastPhis_cons ?_) hzs (.both index original mirrors avoids rest)
      rw [mirrors.isPhi]
      cases ho : r.operation <;> rw [ho] at hr <;> first | rfl | cases hr
    | cons x front =>
      cases hos
      exact .both index original mirrors avoids (ih rfl)
  | stack size first second left right rest ih =>
    obtain ⟨front', rfl, hos'⟩ := split_of_ne hos (hne _ (by rw [right]; rfl))
    exact .stack size first second left right (ih hos')
  | guard left right avoids rest ih =>
    obtain ⟨temp, -, htakes, hvalidates⟩ := right.address
    obtain ⟨front', rfl, hos'⟩ := split_of_ne hos (hne _ (by rw [htakes.1]; rfl))
    obtain ⟨front'', rfl, hos''⟩ := split_of_ne hos' (hne _ (by rw [hvalidates]; rfl))
    exact .guard left right avoids (ih hos'')
  | moved left hoisted avoids notPhi rest ih =>
    subst hos
    exact .moved left hoisted avoids (notPhi.insert hphis) (ih rfl)
  | hoisted right notPhi rest ih =>
    obtain ⟨front', rfl, hos'⟩ := split_of_ne hos (hne _ right.notReturn)
    exact .hoisted right notPhi (ih hos')

section Stack

variable {i j : Instruction} {size : Word}

end Stack

end Strand

end RegionGuard

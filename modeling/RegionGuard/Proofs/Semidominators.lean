import Mathlib.Data.List.GetD
import Mathlib.Logic.Relation
import RegionGuard.Graph.Search
import RegionGuard.Proofs.Entries
set_option autoImplicit false

namespace RegionGuard

open Relation

namespace SearchTree

variable {t : SearchTree} {E : Nat → Nat → Prop} {semi : Nat → Nat} {a b d u v w x : Nat}

inductive Above (t : SearchTree) (a : Nat) : Nat → Prop where
  | refl : t.Above a a
  | step {w : Nat} (hw : 0 < w) (h : t.Above a (t.parent w)) : t.Above a w

/-- What a depth-first search leaves: parents lead back along edges, what is above a position is above all that
is entered in between, and an edge to a later position leads down the tree. -/
structure Spans (t : SearchTree) (E : Nat → Nat → Prop) : Prop where
  nonempty : 0 < t.size
  known : ∀ {v w}, E v w → v < t.size ∧ w < t.size
  parent_lt : ∀ {w}, 0 < w → w < t.size → t.parent w < w
  parent_edge : ∀ {w}, 0 < w → w < t.size → E (t.parent w) w
  forward : ∀ {v w}, E v w → v < w → t.Above v w
  between : ∀ {a v w}, w < t.size → t.Above a w → a ≤ v → v ≤ w → t.Above a v

theorem Above.trans (hab : t.Above a b) (hbw : t.Above b w) : t.Above a w := by
  induction hbw with
  | refl => exact hab
  | step hw _ ih => exact .step hw ih

theorem Above.le (spans : t.Spans E) (h : t.Above a w) (hw : w < t.size) : a ≤ w := by
  induction h with
  | refl => exact Nat.le_refl a
  | step hpos _ ih =>
    have hlt := spans.parent_lt hpos hw
    exact Nat.le_of_lt (Nat.lt_of_le_of_lt (ih (Nat.lt_trans hlt hw)) hlt)

theorem Above.parent (h : t.Above a w) (hne : a ≠ w) : t.Above a (t.parent w) := by
  cases h with
  | refl => exact absurd rfl hne
  | step _ h => exact h

theorem Spans.root_above (spans : t.Spans E) (hw : w < t.size) : t.Above 0 w := by
  induction w using Nat.strongRecOn with
  | ind w ih =>
    rcases Nat.eq_zero_or_pos w with rfl | hpos
    · exact .refl
    · have hlt := spans.parent_lt hpos hw
      exact .step hpos (ih _ hlt (Nat.lt_trans hlt hw))

/-- A way along edges whose later positions are all beyond `w`. -/
abbrev Beyond (E : Nat → Nat → Prop) (w : Nat) : Nat → Nat → Prop := ReflTransGen fun x y => E x y ∧ w < y

theorem Beyond.mono (hle : w ≤ a) (h : Beyond E a u v) : Beyond E w u v :=
  ReflTransGen.mono (fun _ _ hxy => ⟨hxy.1, Nat.lt_of_le_of_lt hle hxy.2⟩) _ _ h

theorem Above.beyond (spans : t.Spans E) (h : t.Above a w) (hw : w < t.size) : Beyond E a a w := by
  induction h with
  | refl => exact .refl
  | step hpos h ih =>
    have hlt := spans.parent_lt hpos hw
    have hsize := Nat.lt_trans hlt hw
    exact .tail (ih hsize) ⟨spans.parent_edge hpos hw, Nat.lt_of_le_of_lt (h.le spans hsize) hlt⟩

/-- What a position in front of `w` offers as a bound of `w`: itself if it is no later, and else the bounds of
what is above it and later than `w`. -/
inductive Offers (t : SearchTree) (semi : Nat → Nat) (w v : Nat) : Nat → Prop where
  | direct (hv : v ≤ w) : t.Offers semi w v v
  | later {u : Nat} (hv : w < v) (hu : t.Above u v) (hwu : w < u) : t.Offers semi w v (semi u)

structure Bounded (t : SearchTree) (E : Nat → Nat → Prop) (semi : Nat → Nat) (w : Nat) : Prop where
  least : ∀ {v c}, E v w → t.Offers semi w v c → semi w ≤ c
  attained : ∃ v, E v w ∧ t.Offers semi w v (semi w)

def Bounds (t : SearchTree) (E : Nat → Nat → Prop) (semi : Nat → Nat) : Prop :=
  ∀ {w}, 0 < w → w < t.size → t.Bounded E semi w

section Bounds

variable (spans : t.Spans E) (bounds : t.Bounds E semi)
include spans bounds

theorem Bounds.lt (hpos : 0 < w) (hw : w < t.size) : semi w < w :=
  Nat.lt_of_le_of_lt ((bounds hpos hw).least (spans.parent_edge hpos hw)
    (.direct (Nat.le_of_lt (spans.parent_lt hpos hw)))) (spans.parent_lt hpos hw)

theorem Bounds.enters (hpos : 0 < w) (hw : w < t.size) : ∃ x, Beyond E w (semi w) x ∧ E x w := by
  induction hroom : t.size - w using Nat.strongRecOn generalizing w with
  | ind room ih =>
    obtain ⟨v, hv, hoffer⟩ := (bounds hpos hw).attained
    generalize hc : semi w = c at hoffer
    cases hoffer with
    | direct _ => exact ⟨v, .refl, hv⟩
    | @later u hlt hu hwu =>
      have hvsize := (spans.known hv).1
      have husize := Nat.lt_of_le_of_lt (hu.le spans hvsize) hvsize
      obtain ⟨x, hx, hxu⟩ := ih _ (by omega) (Nat.lt_of_le_of_lt (Nat.zero_le w) hwu) husize rfl
      have hdown := (Beyond.mono (Nat.le_of_lt hwu) hx).tail ⟨hxu, hwu⟩
      exact ⟨v, hdown.trans (Beyond.mono (Nat.le_of_lt hwu) (hu.beyond spans hvsize)), hv⟩

theorem Bounds.le_of_beyond (hv : v ≤ w) (h : Beyond E w v x) :
    x = v ∨ ∃ u, t.Above u x ∧ w < u ∧ semi u ≤ v := by
  induction h with
  | refl => exact .inl rfl
  | @tail x y _ hxy ih =>
    obtain ⟨hedge, hy⟩ := hxy
    have hbounded := bounds (Nat.lt_of_le_of_lt (Nat.zero_le w) hy) (spans.known hedge).2
    right
    rcases ih with rfl | ⟨u, hu, hwu, hle⟩
    · exact ⟨y, .refl, hy, hbounded.least hedge (.direct (Nat.le_of_lt (Nat.lt_of_le_of_lt hv hy)))⟩
    · rcases Nat.lt_trichotomy x y with hlt | rfl | hgt
      · exact ⟨u, hu.trans (spans.forward hedge hlt), hwu, hle⟩
      · exact ⟨u, hu, hwu, hle⟩
      · by_cases hyu : y < u
        · exact ⟨y, .refl, hy, Nat.le_trans (hbounded.least hedge (.later hgt hu hyu)) hle⟩
        · exact ⟨u, spans.between (spans.known hedge).1 hu (Nat.le_of_not_lt hyu) (Nat.le_of_lt hgt), hwu, hle⟩

end Bounds

abbrev Avoids (E : Nat → Nat → Prop) (d : Nat) (v : Nat) : Prop := ReflTransGen (fun x y => E x y ∧ y ≠ d) 0 v

/-- Every way from the root to `v` comes to `d`. -/
def Dominates (E : Nat → Nat → Prop) (d v : Nat) : Prop := d = 0 ∨ ¬ Avoids E d v

theorem dominates_self (v : Nat) : Dominates E v v := by
  rcases Nat.eq_zero_or_pos v with hv | hv
  · exact .inl hv
  · refine .inr fun h => ?_
    cases h with
    | refl => exact absurd hv (Nat.lt_irrefl 0)
    | tail _ h => exact h.2 rfl

theorem Avoids.beyond (h : Avoids E d u) (hd : d ≤ w) (huv : Beyond E w u v) : Avoids E d v :=
  h.trans (ReflTransGen.mono (fun _ _ hxy => ⟨hxy.1, by omega⟩) _ _ huv)

section Dominance

variable (spans : t.Spans E)
include spans

theorem avoids_of_not_above (hd : d ≠ 0) (h : ¬ t.Above d v) (hv : v < t.size) : Avoids E d v := by
  induction v using Nat.strongRecOn with
  | ind v ih =>
    rcases Nat.eq_zero_or_pos v with rfl | hpos
    · exact .refl
    · have hlt := spans.parent_lt hpos hv
      refine .tail (ih _ hlt (fun ha => h (.step hpos ha)) (Nat.lt_trans hlt hv)) ⟨spans.parent_edge hpos hv, ?_⟩
      rintro rfl
      exact h .refl

theorem avoids_of_lt (h : v < d) (hv : v < t.size) : Avoids E d v :=
  avoids_of_not_above spans (by omega) (fun ha => by have := ha.le spans hv; omega) hv

theorem Dominates.above (h : Dominates E d v) (hv : v < t.size) : t.Above d v := by
  rcases h with rfl | h
  · exact spans.root_above hv
  · refine Classical.byContradiction fun hnot => ?_
    by_cases hd : d = 0
    · exact hnot (hd ▸ spans.root_above hv)
    · exact h (avoids_of_not_above spans hd hnot hv)

theorem Dominates.parent (h : Dominates E d w) (hne : d ≠ w) (hpos : 0 < w) (hw : w < t.size) :
    Dominates E d (t.parent w) := by
  rcases h with h | h
  · exact .inl h
  · exact .inr fun hp => h (hp.tail ⟨spans.parent_edge hpos hw, Ne.symm hne⟩)

variable (bounds : t.Bounds E semi)
include bounds

/-- A position is entered around all between its bound and itself. -/
theorem Dominates.le_semi (h : Dominates E d w) (hne : d ≠ w) (hpos : 0 < w) (hw : w < t.size) : d ≤ semi w := by
  have hlt : d < w := Nat.lt_of_le_of_ne ((h.above spans hw).le spans hw) hne
  rcases h with rfl | h
  · exact Nat.zero_le _
  · refine Nat.le_of_not_lt fun hsemi => ?_
    obtain ⟨x, hx, hxw⟩ := bounds.enters spans hpos hw
    have havoids := avoids_of_lt spans hsemi (by have := bounds.lt spans hpos hw; omega)
    exact h ((havoids.beyond (Nat.le_of_lt hlt) hx).tail ⟨hxw, Ne.symm hne⟩)

omit spans bounds in
theorem Avoids.last (hd : 0 < d) (h : Avoids E d v) : v < d ∨ ∃ x < d, Avoids E d x ∧ Beyond E d x v := by
  induction h with
  | refl => exact .inl hd
  | @tail x y hx hxy ih =>
    obtain ⟨hedge, hne⟩ := hxy
    rcases Nat.lt_or_gt_of_ne hne with hlt | hgt
    · exact .inl hlt
    · right
      rcases ih with hbefore | ⟨z, hz, havoids, hbeyond⟩
      · exact ⟨x, hbefore, hx, .single ⟨hedge, hgt⟩⟩
      · exact ⟨z, hz, havoids, hbeyond.tail ⟨hedge, hgt⟩⟩

theorem Dominates.of_parent (h : Dominates E d (t.parent w)) (hd : d ≤ semi w) (hpos : 0 < w) (hw : w < t.size) :
    Dominates E d w := by
  rcases Nat.eq_zero_or_pos d with rfl | hdpos
  · exact .inl rfl
  · refine .inr fun havoids => ?_
    have hlt := bounds.lt spans hpos hw
    have hparent := spans.parent_lt hpos hw
    rcases havoids.last hdpos with hbefore | ⟨x, hx, -, hbeyond⟩
    · omega
    · rcases bounds.le_of_beyond spans (Nat.le_of_lt hx) hbeyond with rfl | ⟨u, hu, hdu, hsemi⟩
      · omega
      · -- The bound of `u` leads around `d`, and the tree leads on from `u` to the parent.
        have hne : u ≠ w := by
          rintro rfl
          omega
        have husize := Nat.lt_of_le_of_lt (hu.le spans hw) hw
        have hulate := Nat.lt_trans hdpos hdu
        obtain ⟨y, hy, hyu⟩ := bounds.enters spans hulate husize
        have hstart := avoids_of_lt spans (v := semi u) (d := d) (by omega) (by omega)
        have hthere : Avoids E d u := (hstart.beyond (Nat.le_of_lt hdu) hy).tail ⟨hyu, by omega⟩
        have hdown := (hu.parent hne).beyond spans (Nat.lt_trans hparent hw)
        exact h.elim (fun hzero => by omega) fun hnot => hnot (hthere.beyond (Nat.le_of_lt hdu) hdown)

end Dominance

section Climb

variable {idoms : List Nat}

def Settled (E : Nat → Nat → Prop) (idoms : List Nat) (v : Nat) : Prop :=
  idoms.getD v 0 < v ∧ ∀ d, Dominates E d v ↔ d = v ∨ Dominates E d (idoms.getD v 0)

/-- Climbing finds the last one of the dominators of a position that keeps a bound. -/
theorem climb_spec (bound : Nat) {steps : Nat} (settled : ∀ u, 0 < u → u ≤ v → Settled E idoms u) (hsteps : v ≤ steps) :
    climb idoms bound steps v ≤ v ∧ climb idoms bound steps v ≤ bound ∧
      ∀ d, (Dominates E d v → d ≤ bound → Dominates E d (climb idoms bound steps v)) ∧
        (Dominates E d (climb idoms bound steps v) → Dominates E d v) := by
  induction steps generalizing v with
  | zero =>
    cases Nat.le_zero.mp hsteps
    exact ⟨Nat.le_refl 0, Nat.zero_le bound, fun d => ⟨fun h _ => h, fun h => h⟩⟩
  | succ steps ih =>
    unfold climb
    split
    · rename_i hle
      exact ⟨Nat.le_refl v, hle, fun d => ⟨fun h _ => h, fun h => h⟩⟩
    · rename_i hgt
      obtain ⟨hlt, hiff⟩ := settled v (by omega) (Nat.le_refl v)
      obtain ⟨hle, hbound, hdominates⟩ :=
        ih (v := idoms.getD v 0) (fun u hpos hu => settled u hpos (by omega)) (by omega)
      refine ⟨by omega, hbound, fun d => ⟨fun h hd => ?_, fun h => ?_⟩⟩
      · rcases (hiff d).mp h with rfl | h
        · exact absurd hd hgt
        · exact (hdominates d).1 h hd
      · exact (hiff d).mpr (.inr ((hdominates d).2 h))

theorem Settled.of_getD {l l' : List Nat} (h : Settled E l v) (heq : l'.getD v 0 = l.getD v 0) : Settled E l' v := by
  unfold Settled
  rw [heq]
  exact h

theorem settled_climb (spans : t.Spans E) (bounds : t.Bounds E semi) (hpos : 0 < w) (hw : w < t.size)
    (hlength : idoms.length = w) (settled : ∀ u, 0 < u → u < w → Settled E idoms u) :
    Settled E (idoms ++ [climb idoms (semi w) w (t.parent w)]) w := by
  have hparent := spans.parent_lt hpos hw
  obtain ⟨hle, hbound, hdominates⟩ := climb_spec (semi w) (fun u h₀ h₁ => settled u h₀ (by omega))
    (Nat.le_of_lt hparent)
  unfold Settled
  rw [List.getD_append_right _ _ _ _ (Nat.le_of_eq hlength), hlength, Nat.sub_self, List.getD_cons_zero]
  refine ⟨by omega, fun d => ⟨fun h => ?_, ?_⟩⟩
  · by_cases hne : d = w
    · exact .inl hne
    · exact .inr ((hdominates d).1 (h.parent spans hne hpos hw) (h.le_semi spans bounds hne hpos hw))
  · rintro (rfl | h)
    · exact dominates_self d
    · have hd := (h.above spans (by omega)).le spans (by omega)
      exact ((hdominates d).2 h).of_parent spans bounds (by omega) hpos hw

/-- All positions but the root are settled in the end. -/
theorem settled_immediateDominators (spans : t.Spans E) {preceding : Nat → List Nat}
    (bounds : t.Bounds E fun w => ((t.semidominators preceding).get? w).getD w) :
    (t.immediateDominators preceding).length = t.size ∧
      ∀ w, 0 < w → w < t.size → Settled E (t.immediateDominators preceding) w := by
  unfold immediateDominators
  have prefixes : ∀ n ≤ t.size,
      let l := (List.range n).foldl (fun idoms w =>
        idoms ++ [climb idoms (((t.semidominators preceding).get? w).getD w) w (t.parent w)]) []
      l.length = n ∧ ∀ w, 0 < w → w < n → Settled E l w := by
    intro n
    induction n with
    | zero => exact fun _ => ⟨rfl, fun w _ hw => absurd hw (Nat.not_lt_zero w)⟩
    | succ n ih =>
      intro hn
      obtain ⟨hlength, hsettled⟩ := ih (Nat.le_of_succ_le hn)
      rw [List.range_succ, List.foldl_append, List.foldl_cons, List.foldl_nil]
      refine ⟨by rw [List.length_append, hlength]; rfl, fun w hpos hw => ?_⟩
      rcases Nat.lt_succ_iff_lt_or_eq.mp hw with hlt | rfl
      · exact (hsettled w hpos hlt).of_getD (List.getD_append _ _ _ _ (hlength.symm ▸ hlt))
      · have hsettled := settled_climb spans bounds hpos hn hlength hsettled
        exact hsettled
  exact prefixes t.size (Nat.le_refl _)

end Climb

end SearchTree

namespace SearchTree

variable {t : SearchTree} {E : Nat → Nat → Prop} {semi semi' : Nat → Nat} {a c k u v w x y : Nat} {f : Forest}

/-- A label is the least bound of the positions from `v` up to `a`, which itself does not count. All of these
are linked, as the positions from `k` on are. -/
structure Carries (t : SearchTree) (semi : Nat → Nat) (k v a label : Nat) : Prop where
  above : t.Above a v
  lt : a < v
  linked : ∀ u, t.Above u v → a < u → k ≤ u
  least : ∀ u, t.Above u v → a < u → label ≤ semi u
  attained : ∃ u, t.Above u v ∧ a < u ∧ label = semi u

theorem Carries.join (spans : t.Spans E) (hv : v < t.size) (hvu : t.Carries semi k v u x)
    (hua : t.Carries semi k u a y) : t.Carries semi k v a (min x y) := by
  have apart : ∀ z, t.Above z v → a < z → u < z ∨ t.Above z u := fun z hz _ => by
    by_cases hle : z ≤ u
    · exact .inr (spans.between hv hz hle (Nat.le_of_lt hvu.lt))
    · exact .inl (Nat.lt_of_not_le hle)
  refine ⟨hua.above.trans hvu.above, Nat.lt_trans hua.lt hvu.lt, fun z hz haz => ?_, fun z hz haz => ?_, ?_⟩
  · rcases apart z hz haz with hlt | habove
    · exact hvu.linked z hz hlt
    · exact hua.linked z habove haz
  · rcases apart z hz haz with hlt | habove
    · exact Nat.le_trans (Nat.min_le_left x y) (hvu.least z hz hlt)
    · exact Nat.le_trans (Nat.min_le_right x y) (hua.least z habove haz)
  · rcases Nat.le_total x y with hle | hle
    · obtain ⟨z, hz, hlt, heq⟩ := hvu.attained
      exact ⟨z, hz, Nat.lt_trans hua.lt hlt, by rw [Nat.min_eq_left hle, heq]⟩
    · obtain ⟨z, hz, hlt, heq⟩ := hua.attained
      exact ⟨z, hz.trans hvu.above, hlt, by rw [Nat.min_eq_right hle, heq]⟩

theorem Carries.congr (h : t.Carries semi k v a c) (heq : ∀ u, k ≤ u → semi' u = semi u) :
    t.Carries semi' k v a c where
  above := h.above
  lt := h.lt
  linked := h.linked
  least u hu hau := heq u (h.linked u hu hau) ▸ h.least u hu hau
  attained := by
    obtain ⟨u, hu, hau, hc⟩ := h.attained
    exact ⟨u, hu, hau, hc.trans (heq u (h.linked u hu hau)).symm⟩

/-- The positions from `k` on are linked and their labels are right; the others carry themselves. -/
structure Fits (t : SearchTree) (semi : Nat → Nat) (k : Nat) (f : Forest) : Prop where
  unlinked : ∀ v < k, f.ancestors.get? v = none ∧ f.label v = v
  linked : ∀ v, k ≤ v → v < t.size → ∃ a, f.ancestors.get? v = some a ∧ t.Carries semi k v a (f.label v)

theorem fits_empty (hk : t.size ≤ k) : t.Fits semi k .empty where
  unlinked _ _ := ⟨rfl, rfl⟩
  linked _ hk' hv := by omega

theorem label_insert (f : Forest) (ancestors : Table Nat Nat) (v label w : Nat) :
    Forest.label ⟨ancestors, f.labels.insert v label⟩ w = if w = v then label else f.label w := by
  unfold Forest.label
  rw [Table.get?_insert]
  split <;> rfl

/-- Compressing the path of a position leaves the labels right and later positions alone. The path of the
position ends in front of the linked positions then. -/
theorem Fits.compress (spans : t.Spans E) {depth : Nat} (hf : t.Fits semi k f) (hv : v < t.size)
    (hdepth : v < depth) :
    t.Fits semi k (Forest.compress depth f v) ∧
      (∀ x, v < x → (Forest.compress depth f v).ancestors.get? x = f.ancestors.get? x ∧
        (Forest.compress depth f v).label x = f.label x) ∧
      ∀ a, (Forest.compress depth f v).ancestors.get? v = some a → a < k := by
  induction depth generalizing f v with
  | zero => exact absurd hdepth (Nat.not_lt_zero v)
  | succ depth ih =>
    unfold Forest.compress
    cases hu : f.ancestors.get? v with
    | none => exact ⟨hf, fun x _ => ⟨rfl, rfl⟩, fun a ha => by rw [hu] at ha; cases ha⟩
    | some u =>
      have hkv : k ≤ v := Nat.le_of_not_lt fun hlt => by
        rw [(hf.unlinked v hlt).1] at hu
        cases hu
      obtain ⟨u', hu', hcarries⟩ := hf.linked v hkv hv
      cases hu.symm.trans hu'
      have hlt := hcarries.lt
      dsimp only
      split
      · rename_i hlinked
        have hku : k ≤ u := Nat.le_of_not_lt fun hlt => by
          rw [Table.contains, (hf.unlinked u hlt).1] at hlinked
          cases hlinked
        obtain ⟨hfits, hkept, htop⟩ := ih hf (Nat.lt_trans hlt hv) (by omega)
        generalize Forest.compress depth f u = f' at hfits hkept htop
        obtain ⟨a, ha, hcarries'⟩ := hfits.linked u hku (Nat.lt_trans hlt hv)
        have hjoined := hcarries.join spans hv hcarries'
        rw [← (hkept v hlt).2] at hjoined
        rw [ha, Option.getD_some]
        refine ⟨⟨fun x hx => ?_, fun x hkx hx => ?_⟩, fun x hx => ?_, fun b hb => ?_⟩
        · rw [Table.get?_insert, label_insert, if_neg (by omega), if_neg (by omega)]
          exact hfits.unlinked x hx
        · rw [Table.get?_insert, label_insert]
          split
          · rename_i hxv
            exact ⟨a, rfl, hxv ▸ hjoined⟩
          · exact hfits.linked x hkx hx
        · rw [Table.get?_insert, label_insert, if_neg (by omega), if_neg (by omega)]
          exact hkept x (Nat.lt_trans hlt hx)
        · rw [Table.get?_insert, if_pos rfl] at hb
          cases hb
          exact htop a ha
      · rename_i hlinked
        refine ⟨hf, fun x _ => ⟨rfl, rfl⟩, fun a ha => ?_⟩
        rw [hu] at ha
        cases ha
        refine Nat.lt_of_not_le fun hku => hlinked ?_
        obtain ⟨b, hb, -⟩ := hf.linked u hku (Nat.lt_trans hlt hv)
        rw [Table.contains, hb]
        rfl

/-- A compressed label is the least bound that its position offers to the one in front of all linked ones. -/
theorem Fits.lower (spans : t.Spans E) (hf : t.Fits semi (w + 1) f) (hv : v < t.size) (b : Nat) :
    t.Fits semi (w + 1) (Forest.lower (f, b) v).1 ∧ (Forest.lower (f, b) v).2 ≤ b ∧
      (∀ c, t.Offers semi w v c → (Forest.lower (f, b) v).2 ≤ c) ∧
      ((Forest.lower (f, b) v).2 = b ∨ t.Offers semi w v (Forest.lower (f, b) v).2) := by
  obtain ⟨hfits, -, htop⟩ := hf.compress spans hv (Nat.lt_succ_self v)
  unfold Forest.lower
  dsimp only
  generalize Forest.compress (v + 1) f v = f' at hfits htop
  have hlabel : (∀ c, t.Offers semi w v c → f'.label v ≤ c) ∧ t.Offers semi w v (f'.label v) := by
    by_cases hle : v ≤ w
    · rw [(hfits.unlinked v (Nat.lt_succ_of_le hle)).2]
      refine ⟨fun c hc => ?_, .direct hle⟩
      cases hc with
      | direct _ => exact Nat.le_refl v
      | later hlt _ _ => exact absurd hle (Nat.not_le_of_lt hlt)
    · have hlt := Nat.lt_of_not_le hle
      obtain ⟨a, ha, hcarries⟩ := hfits.linked v hlt hv
      have haw := htop a ha
      constructor
      · intro c hc
        cases hc with
        | direct hle' => exact absurd hle' hle
        | @later u _ hu hwu => exact hcarries.least u hu (by omega)
      · obtain ⟨u, hu, hau, heq⟩ := hcarries.attained
        exact heq ▸ .later hlt hu (hcarries.linked u hu hau)
  refine ⟨hfits, Nat.min_le_left _ _, fun c hc => Nat.le_trans (Nat.min_le_right _ _) (hlabel.1 c hc), ?_⟩
  rcases Nat.le_total b (f'.label v) with hle | hle
  · exact .inl (Nat.min_eq_left hle)
  · rw [Nat.min_eq_right hle]
    exact .inr hlabel.2

/-- The least bound of some positions and of what there was before. -/
theorem Fits.foldl_lower (spans : t.Spans E) {l : List Nat} (hl : ∀ v ∈ l, v < t.size) (hf : t.Fits semi (w + 1) f)
    (b : Nat) :
    t.Fits semi (w + 1) (l.foldl Forest.lower (f, b)).1 ∧ (l.foldl Forest.lower (f, b)).2 ≤ b ∧
      (∀ v ∈ l, ∀ c, t.Offers semi w v c → (l.foldl Forest.lower (f, b)).2 ≤ c) ∧
      ((l.foldl Forest.lower (f, b)).2 = b ∨ ∃ v ∈ l, t.Offers semi w v (l.foldl Forest.lower (f, b)).2) := by
  induction l generalizing f b with
  | nil => exact ⟨hf, Nat.le_refl b, fun v hv => (List.not_mem_nil hv).elim, .inl rfl⟩
  | cons v rest ih =>
    obtain ⟨hfits, hle, hleast, hattained⟩ := hf.lower spans (hl v List.mem_cons_self) b
    obtain ⟨hfits', hle', hleast', hattained'⟩ :=
      ih (fun x hx => hl x (List.mem_cons_of_mem v hx)) hfits (Forest.lower (f, b) v).2
    rw [List.foldl_cons]
    refine ⟨hfits', Nat.le_trans hle' hle, fun x hx c hc => ?_, ?_⟩
    · rcases List.mem_cons.mp hx with rfl | hx
      · exact Nat.le_trans hle' (hleast c hc)
      · exact hleast' x hx c hc
    · rcases hattained' with heq | ⟨x, hx, hoffer⟩
      · change (rest.foldl Forest.lower (Forest.lower (f, b) v)).2 = _ at heq
        rw [heq]
        rcases hattained with heq | hoffer
        · exact .inl heq
        · exact .inr ⟨v, List.mem_cons_self, hoffer⟩
      · exact .inr ⟨x, List.mem_cons_of_mem v hx, hoffer⟩

theorem Offers.congr {b : Nat} (h : t.Offers semi w v b) (heq : ∀ u, w < u → semi' u = semi u) :
    t.Offers semi' w v b := by
  cases h with
  | direct hv => exact .direct hv
  | later hv hu hwu => exact heq _ hwu ▸ .later hv hu hwu

theorem Bounded.congr (h : t.Bounded E semi w) (heq : ∀ u, w ≤ u → semi' u = semi u) : t.Bounded E semi' w where
  least hv hc := heq w (Nat.le_refl w) ▸ h.least hv (hc.congr fun u hu => (heq u (Nat.le_of_lt hu)).symm)
  attained := by
    obtain ⟨v, hv, hoffer⟩ := h.attained
    exact ⟨v, hv, heq w (Nat.le_refl w) ▸ hoffer.congr fun u hu => heq u (Nat.le_of_lt hu)⟩

structure Stage (t : SearchTree) (E : Nat → Nat → Prop) (k : Nat) (s : Forest × Table Nat Nat) : Prop where
  fits : t.Fits (fun w => (s.2.get? w).getD w) k s.1
  bounded : ∀ w, k ≤ w → w < t.size → t.Bounded E (fun w => (s.2.get? w).getD w) w

variable {preceding : Nat → List Nat} {s : Forest × Table Nat Nat}

theorem Stage.bound (spans : t.Spans E) (hpreceding : ∀ w < t.size, ∀ v, v ∈ preceding w ↔ E v w) (hpos : 0 < w)
    (hw : w < t.size) (hs : t.Stage E (w + 1) s) : t.Stage E w (t.bound preceding w s) := by
  have hparent := spans.parent_lt hpos hw
  have hedge := spans.parent_edge hpos hw
  obtain ⟨hfits, -, hleast, hattained⟩ := hs.fits.foldl_lower spans
    (fun v hv => (spans.known ((hpreceding w hw v).mp hv)).1) (l := preceding w) t.size
  unfold SearchTree.bound
  generalize (preceding w).foldl Forest.lower (s.1, t.size) = x at hfits hleast hattained
  obtain ⟨f, b⟩ := x
  dsimp only at hfits hleast hattained ⊢
  have hb : b ≤ t.parent w := hleast _ ((hpreceding w hw _).mpr hedge) _ (.direct (Nat.le_of_lt hparent))
  have hsame : ∀ u, w < u → ((s.2.insert w b).get? u).getD u = (s.2.get? u).getD u := fun u hu => by
    rw [Table.get?_insert, if_neg (by omega)]
  have hself : ((s.2.insert w b).get? w).getD w = b := by
    rw [Table.get?_insert, if_pos rfl, Option.getD_some]
  refine ⟨⟨fun v hv => ?_, fun v hkv hv => ?_⟩, fun v hwv hv => ?_⟩
  · unfold Forest.link
    rw [label_insert, Table.get?_insert, if_neg (by omega), if_neg (by omega)]
    exact hfits.unlinked v (Nat.lt_succ_of_lt hv)
  · unfold Forest.link
    rw [label_insert, Table.get?_insert]
    split
    · rename_i hvw
      subst hvw
      -- The new link spans one position only.
      have hone : ∀ u, t.Above u v → t.parent v < u → u = v := fun u hu hlt =>
        Classical.byContradiction fun hne => by
          have := (hu.parent hne).le spans (by omega)
          omega
      refine ⟨t.parent v, rfl, .step hpos .refl, hparent, fun u hu hlt => Nat.le_of_eq (hone u hu hlt).symm,
        fun u hu hlt => ?_, v, .refl, hparent, hself.symm⟩
      exact Nat.le_of_eq (hself.symm.trans (by rw [hone u hu hlt]))
    · obtain ⟨a, ha, hcarries⟩ := hfits.linked v (by omega) hv
      refine ⟨a, ha, ?_⟩
      have : t.Carries (fun x => ((s.2.insert w b).get? x).getD x) (w + 1) v a (f.label v) := hcarries.congr hsame
      exact ⟨this.above, this.lt, fun u hu hau => Nat.le_of_succ_le (this.linked u hu hau), this.least, this.attained⟩
  · rcases Nat.lt_or_eq_of_le hwv with hlt | rfl
    · exact (hs.bounded v hlt hv).congr fun u hu => hsame u (by omega)
    · refine ⟨fun {u c} hu hc => ?_, ?_⟩
      · rw [hself]
        exact hleast u ((hpreceding w hw u).mpr hu) c (hc.congr fun x hx => (hsame x hx).symm)
      · rw [hself]
        rcases hattained with heq | ⟨v, hv, hoffer⟩
        · omega
        · exact ⟨v, (hpreceding w hw v).mp hv, hoffer.congr hsame⟩

theorem bounds_semidominators (spans : t.Spans E) (hpreceding : ∀ w < t.size, ∀ v, v ∈ preceding w ↔ E v w) :
    t.Bounds E fun w => ((t.semidominators preceding).get? w).getD w := by
  have stages : ∀ n k, 0 < k → k + n = t.size →
      t.Stage E k ((List.range' k n).foldr (t.bound preceding) (.empty, ∅)) := by
    intro n
    induction n with
    | zero => exact fun k _ hk => ⟨fits_empty (by omega), fun w hkw hw => by omega⟩
    | succ n ih =>
      intro k hpos hk
      rw [List.range'_succ, List.foldr_cons]
      exact (ih (k + 1) (Nat.succ_pos k) (by omega)).bound spans hpreceding hpos (by omega)
  intro w hpos hw
  have htail : (List.range t.size).tail = List.range' 1 (t.size - 1) := by
    rw [List.range_eq_range', List.tail_range']
  have hstage := stages (t.size - 1) 1 Nat.one_pos (by omega)
  rw [← htail] at hstage
  exact hstage.bounded w hpos hw

end SearchTree

end RegionGuard

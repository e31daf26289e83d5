import RegionGuard.Proofs.Tandem
set_option autoImplicit false

namespace RegionGuard

open Instruction

/-- Extra code computes temporaries from a number on, or calls an entry point. -/
def Operation.IsExtra (h : Hooks) (n : Nat) (o : Operation) : Prop :=
  (∃ dst, o.computes? = some dst ∧ dst.IsUpcoming n) ∨
    ∃ name ∈ h.names, ∃ arguments, o = .notify name arguments

namespace Operation

variable {h : Hooks} {m n : Nat} {o : Operation}

theorem IsExtra.mono (hmn : m ≤ n) (ho : o.IsExtra h n) : o.IsExtra h m := by
  rcases ho with ⟨dst, hdst, hup⟩ | hcall
  · exact .inl ⟨dst, hdst, hup.mono hmn⟩
  · exact .inr hcall

theorem isPhi_of_computes? {dst : Variable} (ho : o.computes? = some dst) : o.isPhi = false := by
  cases o with
  | phi => cases ho
  | _ => rfl

theorem IsExtra.notPhi (ho : o.IsExtra h n) : o.isPhi = false := by
  rcases ho with ⟨dst, hdst, -⟩ | ⟨name, -, arguments, rfl⟩
  · exact isPhi_of_computes? hdst
  · rfl

theorem MayHoist.isExtra {m : Margin} (ho : o.MayHoist m) : o.IsExtra m.hooks m.temps := by
  rcases ho with hcomputes | ⟨address, flag, rfl⟩
  · exact .inl hcomputes
  · exact .inr ⟨m.hooks.guardAddress, by simp [Hooks.names], _, rfl⟩

end Operation

/-- The second list has all instructions of the first, with extra code in between. What phis take is not
compared. -/
inductive Woven (h : Hooks) (n : Nat) : List Instruction → List Instruction → Prop where
  | nil : Woven h n [] []
  | both {i j : Instruction} {is js : List Instruction} (same : j.operation = i.operation ∨ j.operation.isPhi)
    (avoids : i.operation.Avoids n) (rest : Woven h n is js) : Woven h n (i :: is) (j :: js)
  | extra {j : Instruction} {is js : List Instruction} (right : j.operation.IsExtra h n)
    (rest : Woven h n is js) : Woven h n is (j :: js)

/-- Two instructions do the same, but that phis may take something else. -/
def Instruction.Resembles (i j : Instruction) : Prop :=
  j.operation = i.operation ∨ (i.operation.isPhi ∧ j.operation.isPhi)

namespace Woven

variable {h : Hooks} {n : Nat} {is js ks : List Instruction}

theorem refl (hl : ∀ i ∈ is, i.operation.Avoids n) : Woven h n is is := by
  induction is with
  | nil => exact .nil
  | cons i rest ih =>
    exact .both (.inl rfl) (hl i List.mem_cons_self) (ih fun j hj => hl j (List.mem_cons_of_mem i hj))

theorem append {new : List Instruction} (hnew : ∀ z ∈ new, z.operation.IsExtra h n) (hw : Woven h n is js) :
    Woven h n is (new ++ js) := by
  induction new with
  | nil => exact hw
  | cons z rest ih => exact .extra (hnew z List.mem_cons_self) (ih fun y hy => hnew y (List.mem_cons_of_mem z hy))

theorem insert {new front back : List Instruction} (hnew : ∀ z ∈ new, z.operation.IsExtra h n)
    (hw : Woven h n is (front ++ back)) : Woven h n is (front ++ (new ++ back)) := by
  induction front generalizing is with
  | nil =>
    rw [List.nil_append] at hw ⊢
    exact hw.append hnew
  | cons x front ih =>
    cases hw with
    | both same avoids rest => exact .both same avoids (ih rest)
    | extra right rest => exact .extra right (ih rest)

theorem resemble (hw : Woven h n is js) (hk : List.Forall₂ Resembles js ks) : Woven h n is ks := by
  induction hw generalizing ks with
  | nil =>
    cases hk
    exact .nil
  | both same avoids rest ih =>
    cases hk with
    | cons hhead htail =>
      refine .both ?_ avoids (ih htail)
      rcases hhead with heq | ⟨-, hphi⟩
      · rw [heq]
        exact same
      · exact .inr hphi
  | extra right rest ih =>
    cases hk with
    | cons hhead htail =>
      rcases hhead with heq | ⟨hphi, -⟩
      · exact .extra (heq ▸ right) (ih htail)
      · rw [right.notPhi] at hphi
        cases hphi

end Woven

def leading (l : List Instruction) : List Instruction := l.takeWhile (·.operation.isPhi)

def behind (l : List Instruction) : List Instruction := l.dropWhile (·.operation.isPhi)

section Splitting

variable {l : List Instruction} {ps : List Instruction}

theorem leading_append_behind (l : List Instruction) : leading l ++ behind l = l := List.takeWhile_append_dropWhile

theorem firstNonPhi_eq (b : Block) : b.firstNonPhi = (leading b.instructions).length := rfl

theorem isPhi_of_leading {i : Instruction} (hi : i ∈ leading l) : i.operation.isPhi = true :=
  List.all_eq_true.mp List.all_takeWhile i hi

theorem pastPhis_behind (l : List Instruction) : PastPhis (behind l) := by
  intro i hi
  have := List.head?_dropWhile_not (fun i : Instruction => i.operation.isPhi) l
  unfold behind at hi
  rw [Option.mem_def.mp hi] at this
  simpa using this

theorem leading_of_append (hps : ∀ i ∈ ps, i.operation.isPhi = true) (hl : PastPhis l) : leading (ps ++ l) = ps := by
  unfold leading
  rw [List.takeWhile_append_of_pos hps, hl.takeWhile, List.append_nil]

theorem behind_of_append (hps : ∀ i ∈ ps, i.operation.isPhi = true) (hl : PastPhis l) : behind (ps ++ l) = l := by
  unfold behind
  rw [List.dropWhile_append_of_pos hps, hl.dropWhile]

end Splitting

namespace Activation

theorem phis_cons {i : Instruction} {dst : Variable} {incoming : List (Value × Nat)}
    (ho : i.operation = .phi dst incoming) (l : List Instruction) : phis (i :: l) = (dst, incoming) :: phis l := by
  rw [phis, ho]

theorem exists_phi {o : Operation} (ho : o.isPhi = true) : ∃ dst incoming, o = .phi dst incoming := by
  cases o with
  | phi dst incoming => exact ⟨dst, incoming, rfl⟩
  | _ => cases ho

theorem phis_leading (l : List Instruction) : phis l = phis (leading l) := by
  induction l with
  | nil => rfl
  | cons i rest ih =>
    unfold leading at ih ⊢
    cases hphi : i.operation.isPhi with
    | true =>
      obtain ⟨dst, incoming, ho⟩ := exists_phi hphi
      rw [List.takeWhile_cons, if_pos hphi, phis_cons ho, phis_cons ho, ih]
    | false =>
      rw [List.takeWhile_cons, hphi, phis_of_pastPhis (pastPhis_cons hphi)]
      rfl

end Activation

namespace Block

/-- A block has given way to one with the same phis and more extra code behind them. -/
structure Grows (h : Hooks) (n : Nat) (b b' : Block) : Prop where
  phis : Activation.phis b'.instructions = Activation.phis b.instructions
  woven : ∀ m ≤ n, ∀ is, Woven h m is (behind b.instructions) → Woven h m is (behind b'.instructions)
  extra : ∀ z ∈ behind b'.instructions,
    (∃ y ∈ behind b.instructions, z.operation = y.operation) ∨ z.operation.IsExtra h n

variable {h : Hooks} {n : Nat} {b b' : Block}

theorem grows_of_inject {position : Nat} {tags : List (String × String)} {operations : List Operation}
    (hposition : (leading b.instructions).length ≤ position) (hextra : ∀ o ∈ operations, o.IsExtra h n)
    (hb : b.inject position tags operations = .ok b') : b.Grows h n b' := by
  have hinstructions := congrArg Block.instructions (inject_ok hb)
  generalize hnew : Instruction.drafted tags b.nextIndex operations = new at hinstructions
  have hnewExtra : ∀ z ∈ new, z.operation.IsExtra h n := by
    intro z hz
    have hmem : z.operation ∈ new.map (·.operation) := List.mem_map_of_mem hz
    rw [← hnew, Instruction.drafted_operations] at hmem
    exact hextra _ hmem
  -- The position splits what is behind the phis.
  obtain ⟨front, back, hsplit, hfront, hback⟩ : ∃ front back, behind b.instructions = front ++ back ∧
      b.instructions.take position = leading b.instructions ++ front ∧ b.instructions.drop position = back := by
    refine ⟨(behind b.instructions).take (position - (leading b.instructions).length),
      (behind b.instructions).drop (position - (leading b.instructions).length),
      (List.take_append_drop _ _).symm, ?_, ?_⟩
    · conv_lhs => rw [← leading_append_behind b.instructions]
      rw [List.take_append, List.take_of_length_le hposition]
    · conv_lhs => rw [← leading_append_behind b.instructions]
      rw [List.drop_append, List.drop_of_length_le hposition, List.nil_append]
  have hpast : PastPhis (front ++ (new ++ back)) := by
    refine PastPhis.insert (hsplit ▸ pastPhis_behind b.instructions) ?_
    intro z hz
    exact (hnewExtra z (List.mem_of_mem_head? hz)).notPhi
  have hwhole : b'.instructions = leading b.instructions ++ (front ++ (new ++ back)) := by
    rw [hinstructions, hfront, hback, List.append_assoc]
  have hleading : leading b'.instructions = leading b.instructions := by
    rw [hwhole, leading_of_append (fun i hi => isPhi_of_leading hi) hpast]
  have hbehind : behind b'.instructions = front ++ (new ++ back) := by
    rw [hwhole, behind_of_append (fun i hi => isPhi_of_leading hi) hpast]
  refine ⟨?_, fun m hm is hw => ?_, fun z hz => ?_⟩
  · rw [Activation.phis_leading, hleading, ← Activation.phis_leading]
  · rw [hbehind]
    rw [hsplit] at hw
    exact hw.insert fun z hz => (hnewExtra z hz).mono hm
  · rw [hbehind] at hz
    rw [hsplit]
    rcases List.mem_append.mp hz with hz | hz
    · exact .inl ⟨z, List.mem_append_left _ hz, rfl⟩
    · rcases List.mem_append.mp hz with hz | hz
      · exact .inr (hnewExtra z hz)
      · exact .inl ⟨z, List.mem_append_right _ hz, rfl⟩

theorem grows_of_map {f : Instruction → Instruction} (hf : ∀ i, (f i).operation = i.operation)
    (hb : b'.instructions = b.instructions.map f) : b.Grows h n b' := by
  have hisPhi : (fun i : Instruction => i.operation.isPhi) ∘ f = fun i => i.operation.isPhi :=
    funext fun i => congrArg Operation.isPhi (hf i)
  have hbehind : behind b'.instructions = (behind b.instructions).map f := by
    unfold behind
    rw [hb, List.dropWhile_map, hisPhi]
  refine ⟨?_, fun m _ is hw => ?_, fun z hz => ?_⟩
  · rw [hb]
    induction b.instructions with
    | nil => rfl
    | cons i rest ih =>
      rw [List.map_cons, Activation.phis, Activation.phis, hf, ih]
  · rw [hbehind]
    refine hw.resemble (List.forall₂_map_right_iff.mpr (List.forall₂_same.mpr fun i _ => .inl (hf i)))
  · rw [hbehind] at hz
    obtain ⟨y, hy, rfl⟩ := List.mem_map.mp hz
    exact .inl ⟨y, hy, hf y⟩

theorem Grows.refl (h : Hooks) (n : Nat) (b : Block) : b.Grows h n b :=
  ⟨rfl, fun _ _ _ hw => hw, fun z hz => .inl ⟨z, hz, rfl⟩⟩

theorem Grows.trans {b'' : Block} (hb : b.Grows h n b') (hb' : b'.Grows h n b'') : b.Grows h n b'' where
  phis := hb'.phis.trans hb.phis
  woven m hm is hw := hb'.woven m hm is (hb.woven m hm is hw)
  extra z hz := by
    rcases hb'.extra z hz with ⟨y, hy, heq⟩ | hextra
    · rw [heq]
      exact hb.extra y hy
    · exact .inr hextra

end Block

end RegionGuard

import RegionGuard.Proofs.Drafts
set_option autoImplicit false

namespace RegionGuard

def temporaryName (number : Nat) : String := s!"carat.temp_{number}"

theorem temporaryName_injective {m n : Nat} (h : temporaryName m = temporaryName n) : m = n := by
  have hnumbers : toString m = toString n := (String.append_right_inj _).mp h
  rw [Nat.toString_eq_repr, Nat.toString_eq_repr] at hnumbers
  rw [← Nat.ofDigitChars_ten_toDigits (n := m), ← Nat.toList_repr, hnumbers, Nat.toList_repr,
    Nat.ofDigitChars_ten_toDigits]

namespace Variable

def IsUpcoming (n : Nat) (x : Variable) : Prop := ∃ k, n ≤ k ∧ x.name = temporaryName k

theorem IsUpcoming.mono {m n : Nat} {x : Variable} (hmn : m ≤ n) (h : x.IsUpcoming n) : x.IsUpcoming m := by
  obtain ⟨k, hk, hname⟩ := h
  exact ⟨k, Nat.le_trans hmn hk, hname⟩

theorem isUpcoming_temporary {m n : Nat} {ty : Ty} : (temporary m ty).IsUpcoming n ↔ n ≤ m := by
  constructor
  · rintro ⟨k, hk, hname⟩
    rw [temporaryName_injective hname]
    exact hk
  · intro h
    exact ⟨m, h, rfl⟩

end Variable

def Value.Avoids (n : Nat) (v : Value) : Prop := ∀ x, v = .variable x → ¬ x.IsUpcoming n

namespace Operation

structure Avoids (n : Nat) (o : Operation) : Prop where
  written : ∀ x, o.written? = some x → ¬ x.IsUpcoming n
  reads : ∀ v ∈ o.reads, v.Avoids n

def computes? : Operation → Option Variable
  | .cast dst _ _ | .elementPtr dst _ _ _ _ | .binary dst _ _ _ | .compare dst _ _ _
  | .select dst _ _ _ => some dst
  | _ => none

/-- Two operations do the same, but what the first takes from a block the second takes from where control
comes from in its place. The first names blocks below `n` only. -/
inductive Mirrors (n : Nat) (arrival : Nat → Nat) : Operation → Operation → Prop where
  | same {o : Operation} (notPhi : o.isPhi = false) : Mirrors n arrival o o
  | phi {dst : Variable} {incoming : List (Value × Nat)} (known : ∀ e ∈ incoming, e.2 < n) :
    Mirrors n arrival (.phi dst incoming) (.phi dst (incoming.map fun e => (e.1, arrival e.2)))

namespace Mirrors

variable {n : Nat} {arrival arrival' : Nat → Nat} {o o' : Operation}

theorem refl (known : ∀ dst incoming, o = .phi dst incoming → ∀ e ∈ incoming, e.2 < n) :
    o.Mirrors n id o := by
  cases h : o with
  | phi dst incoming =>
    have hphi : Mirrors n id (.phi dst incoming) _ := .phi (known dst incoming h)
    rw [show (fun e : Value × Nat => (e.1, id e.2)) = id from rfl, List.map_id] at hphi
    exact hphi
  | _ => exact .same rfl

theorem rename {f : Operation → Operation} (h : o.Mirrors n arrival o')
    (same : ∀ o, o.isPhi = false → f o = o)
    (phi : ∀ dst (incoming : List (Value × Nat)), (∀ e ∈ incoming, e.2 < n) →
      f (.phi dst (incoming.map fun e => (e.1, arrival e.2))) = .phi dst (incoming.map fun e => (e.1, arrival' e.2))) : o.Mirrors n arrival' (f o') := by
  cases h with
  | same notPhi =>
    rw [same _ notPhi]
    exact .same notPhi
  | phi known =>
    rw [phi _ _ known]
    exact .phi known

theorem isPhi (h : o.Mirrors n arrival o') : o.isPhi = o'.isPhi := by
  cases h <;> rfl

theorem isAlloca (h : o.Mirrors n arrival o') : o.isAlloca = o'.isAlloca := by
  cases h <;> rfl

end Mirrors

end Operation

end RegionGuard

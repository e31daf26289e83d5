import RegionGuard.Proofs.Execution
import RegionGuard.Proofs.RunEndings
set_option autoImplicit false

namespace RegionGuard

open Stateful

namespace Instruction

def TakesAddress (i : Instruction) (temp : Variable) (pointer : Value) : Prop :=
  i.operation = .cast temp .ptrToInt pointer ∧ temp.ty = .integer 64

/-- The instruction hands an address in a temporary to the guard entry point. -/
def Validates (h : Hooks) (i : Instruction) (temp : Variable) (a : Access) : Prop :=
  i.operation = .notify h.guardAddress [.variable temp, .ofWord (if a.isWrite then 1 else 0) 32]

end Instruction

namespace Activation

variable {m : Machine} {a b : Activation}

theorem value_assign_self {x dst : Variable} (h : x.name = dst.name) (m : Machine) (a : Activation)
    (c : Constant) : (a.assign dst c).value m (.variable x) = .ok c := by
  change Failure.orRaise ((a.scalars.insert dst.name c).get? x.name) _ = _
  rw [Table.get?_insert, if_pos h]
  rfl

theorem value_assign_of_ne {v : Value} {dst : Variable} (h : ∀ x, v = .variable x → x.name ≠ dst.name)
    (m : Machine) (a : Activation) (c : Constant) : (a.assign dst c).value m v = a.value m v := by
  match v with
  | .variable x =>
    change Failure.orRaise ((a.scalars.insert dst.name c).get? x.name) _ = _
    rw [Table.get?_insert, if_neg (h x rfl)]
    rfl
  | .argument _ | .global _ | .function _ | .constant _ | .null => rfl

/-- A value that another variable's new one does not replace, or that holds the same word, is unchanged. -/
theorem word_assign_of_word {v : Value} {w : Word} {c : Constant} (dst : Variable)
    (h : a.word m v = .ok w) (hc : c.value = w) : (a.assign dst c).word m v = .ok w := by
  unfold word at h ⊢
  by_cases hv : ∃ x, v = .variable x ∧ x.name = dst.name
  · obtain ⟨x, rfl, hx⟩ := hv
    rw [value_assign_self hx]
    exact congrArg Except.ok hc
  · rw [value_assign_of_ne]
    · exact h
    · intro x hx hname
      exact hv ⟨x, hx, hname⟩

theorem word_eq_ok {v : Value} {w : Word} :
    a.word m v = .ok w ↔ ∃ c, a.value m v = .ok c ∧ c.value = w := by
  unfold word
  constructor
  · intro h
    obtain ⟨c, hc, h⟩ := bind_eq_ok.mp h
    cases h
    exact ⟨c, hc, rfl⟩
  · rintro ⟨c, hc, rfl⟩
    rw [hc]
    rfl

theorem word_image {n : Machine} (h : m.image = n.image) (a : Activation) (v : Value) :
    a.word m v = a.word n v := by
  unfold word value
  rw [h]

def Placed (a : Activation) (done : List Instruction) : Prop :=
  ∃ b, a.body.block a.block = .ok b ∧ b.instructions = done ++ a.remaining

theorem foldl_assign (values : List (Variable × Constant)) (a : Activation) :
    ∃ scalars, values.foldl (fun a e => a.assign e.1 e.2) a = a.withScalars scalars := by
  induction values generalizing a with
  | nil => exact ⟨a.scalars, rfl⟩
  | cons e rest ih =>
    obtain ⟨scalars, hs⟩ := ih (a.assign e.1 e.2)
    exact ⟨scalars, hs⟩

theorem enterBlock_ok {previous : Option Nat} {block : Nat} (h : enterBlock m a previous block = .ok b) :
    ∃ x scalars, a.body.block block = .ok x ∧
      b = { a.withScalars scalars with
        block := block, remaining := x.instructions.dropWhile (·.operation.isPhi) } := by
  unfold enterBlock at h
  obtain ⟨x, hx, h⟩ := bind_eq_ok.mp h
  obtain ⟨values, -, h⟩ := bind_eq_ok.mp h
  cases h
  obtain ⟨scalars, hs⟩ := foldl_assign values a
  exact ⟨x, scalars, hx, by rw [hs]⟩

theorem placed_of_enterBlock {previous : Option Nat} {block : Nat}
    (h : enterBlock m a previous block = .ok b) :
    ∃ done, b.Placed done ∧ ∀ i ∈ done, i.operation.isPhi := by
  obtain ⟨x, scalars, hx, rfl⟩ := enterBlock_ok h
  refine ⟨x.instructions.takeWhile (·.operation.isPhi), ⟨x, hx, ?_⟩, ?_⟩
  · exact (List.takeWhile_append_dropWhile ..).symm
  · intro i hi
    exact List.all_eq_true.mp List.all_takeWhile i hi

/-- Behind the address of a pointer the temporary holds it, and behind its guard it is permitted. -/
structure Vouched (h : Hooks) (m : Machine) (a : Activation) (done : List Instruction) : Prop where
  address : ∀ front x temp v w, done = front ++ [x] → x.TakesAddress temp v → a.word m v = .ok w →
    a.word m (.variable temp) = .ok w
  permission : ∀ front x y temp v access w, done = front ++ [x, y] → x.TakesAddress temp v →
    y.Validates h temp access → a.word m v = .ok w → m.permits w access

def Unguarded (h : Hooks) (done : List Instruction) : Prop :=
  ∀ front x, done = front ++ [x] →
    (∀ temp v, ¬ x.TakesAddress temp v) ∧ ∀ temp access, ¬ x.Validates h temp access

theorem vouched_of_unguarded {h : Hooks} {done : List Instruction} (hd : Unguarded h done) :
    a.Vouched h m done where
  address front x temp v w hdone hx := absurd hx ((hd front x hdone).1 temp v)
  permission front x y temp v access w hdone _ hy :=
    absurd hy ((hd (front ++ [x]) y (by simp [hdone])).2 temp access)

theorem unguarded_of_phis {h : Hooks} {done : List Instruction} (hd : ∀ i ∈ done, i.operation.isPhi) :
    Unguarded h done := by
  intro front x hdone
  have hx : x.operation.isPhi := hd x (by simp [hdone])
  constructor
  · intro temp v htakes
    rw [htakes.1] at hx
    cases hx
  · intro temp access hvalidates
    rw [hvalidates] at hx
    cases hx

end Activation

namespace Processor

variable {t : Task} {s s' : Processor} {a : Activation} {callers : List Activation}

/-- An address taken is the word of its pointer, whatever the pointer and the temporary are called. -/
theorem execute_takesAddress {temp : Variable} {v : Value} (hty : temp.ty = .integer 64)
    (h : (execute t a callers (.cast temp .ptrToInt v)).runFrom s = (.ok .running, s')) :
    ∃ w, a.word s.machine v = .ok w ∧
      s' = { s with calls := a.assign temp (Activation.address w) :: callers } := by
  unfold execute at h
  rw [runFrom_get_bind] at h
  obtain ⟨c, hc, h⟩ := lift_bind_ok.mp h
  obtain ⟨d, hd, hc⟩ := bind_eq_ok.mp hc
  unfold Evaluation.cast at hc
  rw [hty] at hc
  cases hc
  exact ⟨d.value, Activation.word_eq_ok.mpr ⟨d, hd, rfl⟩, resume_running h⟩

/-- A guard that passes leaves everything but the monitor as it was. -/
theorem execute_validates (distinct : t.configuration.hooks.names.Nodup) {temp : Variable} {access : Access}
    (h : (execute t a callers (.notify t.configuration.hooks.guardAddress
      [.variable temp, .ofWord (if access.isWrite then 1 else 0) 32])).runFrom s = (.ok .running, s')) :
    ∃ w m, a.word s.machine (.variable temp) = .ok w ∧
      (Monitor.guardAddress w access.isWrite).runFrom s.machine.monitor = (.ok (), m) ∧
      s' = { s with machine := { s.machine with monitor := m }, calls := a :: callers } := by
  unfold execute Operation.notify at h
  rw [runFrom_get_bind] at h
  simp only [call] at h
  rw [runFrom_get_bind] at h
  obtain ⟨constants, hvalues, h⟩ := lift_bind_ok.mp h
  obtain ⟨name, hname, h⟩ := lift_bind_ok.mp h
  cases hname
  obtain ⟨c, hc, hvalues⟩ := bind_eq_ok.mp hvalues
  cases hvalues
  rw [Machine.builtin?_guardAddress distinct] at h
  obtain ⟨result, s₁, hs₁, h⟩ := runFrom_bind_ok.mp h
  obtain ⟨m, hm, rfl⟩ := onMachine_ok hs₁
  obtain ⟨_, m₁, hguard, hm⟩ := runFrom_bind_ok.mp hm
  cases hm
  cases h
  obtain ⟨n, hn, rfl⟩ := Machine.onMonitor_ok hguard
  refine ⟨c.value, n, Activation.word_eq_ok.mpr ⟨c, hc, rfl⟩, ?_, rfl⟩
  cases access <;> exact hn

/-- In the innermost call the last guard holds; no other call was left in the middle of one. -/
structure Vouched (h : Hooks) (x : Image) (s : Processor) : Prop where
  sound : s.machine.IsSound x
  innermost : ∀ a callers, s.calls = a :: callers → ∃ done, a.Placed done ∧ a.Vouched h s.machine done
  suspended : ∀ a callers, s.calls = a :: callers → ∀ c ∈ callers,
    ∃ done, c.Placed done ∧ Activation.Unguarded h done

theorem vouched_of_stays (distinct : t.configuration.hooks.names.Nodup) {x : Image}
    (sound : s.machine.IsSound x) {i : Instruction} {done : List Instruction}
    (hvouched : a.Vouched t.configuration.hooks s.machine done)
    (hrun : (execute t a callers i.operation).runFrom s = (.ok .running, s')) {a' : Activation}
    (hcalls : s'.calls = a' :: callers) :
    a'.Vouched t.configuration.hooks s'.machine (done ++ [i]) := by
  constructor
  · intro front y temp v w hdone hy hw
    obtain ⟨rfl, hi⟩ := List.append_inj' hdone rfl
    cases hi
    rw [hy.1] at hrun
    obtain ⟨w₀, hw₀, rfl⟩ := execute_takesAddress hy.2 hrun
    cases hcalls
    have hv := Activation.word_assign_of_word temp hw₀ (c := Activation.address w₀) rfl
    rw [hw] at hv
    cases hv
    exact Activation.word_eq_ok.mpr ⟨_, Activation.value_assign_self rfl _ _ _, rfl⟩
  · intro front y z temp v access w hdone hy hz hw
    have hsplit : done ++ [i] = (front ++ [y]) ++ [z] := by simp [hdone]
    obtain ⟨rfl, hi⟩ := List.append_inj' hsplit rfl
    cases hi
    rw [hz] at hrun
    obtain ⟨w₀, m, hw₀, hguard, rfl⟩ := execute_validates distinct hrun
    cases hcalls
    have hv := hvouched.address front y temp v w rfl hy hw
    rw [hw₀] at hv
    cases hv
    have halike := Monitor.alike_of_guardAddress sound.monitor.space.anchored hguard
    have hpermits := Monitor.permits_of_guardAddress hguard
    rw [← halike.permits] at hpermits
    cases access <;> exact hpermits

theorem unguarded_of_enters (distinct : t.configuration.hooks.names.Nodup) {i : Instruction}
    {done : List Instruction} {dst : Option Variable} {target : CallTarget} {arguments : List Value}
    {name : String} {words : List Word} (isCall : i.operation = .call dst target arguments)
    (hcallee : callee s.machine a target = .ok name)
    (unknown : Machine.builtin? t.configuration name words = none) :
    Activation.Unguarded t.configuration.hooks (done ++ [i]) := by
  intro front y hdone
  obtain ⟨-, hi⟩ := List.append_inj' hdone rfl
  cases hi
  constructor
  · intro temp v htakes
    rw [htakes.1] at isCall
    cases isCall
  · intro temp access hvalidates
    rw [hvalidates] at isCall
    cases isCall
    cases hcallee
    rw [Machine.builtin?_guardAddress distinct] at unknown
    cases unknown

theorem vouched_step (distinct : t.configuration.hooks.names.Nodup) {x : Image}
    (hs : s.Vouched t.configuration.hooks x) (h : (step t).runFrom s = (.ok .running, s')) :
    s'.Vouched t.configuration.hooks x := by
  obtain ⟨a, callers, hcalls, hstep⟩ := step_running h
  obtain ⟨done, hplaced, hvouched⟩ := hs.innermost a callers hcalls
  have hsuspended := hs.suspended a callers hcalls
  rcases hstep with ⟨hrem, b, hb, rfl⟩ | ⟨i, rest, hrem, hrun⟩
  · obtain ⟨edges, -, hb⟩ := bind_eq_ok.mp hb
    obtain ⟨target, -, hb⟩ := bind_eq_ok.mp hb
    obtain ⟨phis, hphis, hall⟩ := Activation.placed_of_enterBlock hb
    refine ⟨hs.sound, ?_, ?_⟩
    · rintro _ _ ⟨⟩
      exact ⟨phis, hphis, Activation.vouched_of_unguarded (Activation.unguarded_of_phis hall)⟩
    · rintro _ _ ⟨⟩
      exact hsuspended
  · obtain ⟨hshape, hsound⟩ := execute_shape hrun
    have hplaced' : ({ a with remaining := rest } : Activation).Placed (done ++ [i]) := by
      obtain ⟨b, hb, hinstructions⟩ := hplaced
      exact ⟨b, hb, by simp [hinstructions, hrem]⟩
    have hvouched' : ({ a with remaining := rest } : Activation).Vouched t.configuration.hooks
        s.countOne.machine done := ⟨hvouched.address, hvouched.permission⟩
    have hsound₀ : s.countOne.machine.IsSound x := hs.sound
    refine ⟨hsound x hsound₀, ?_, ?_⟩
    · intro a' callers' hcalls'
      generalize hc : s'.calls = calls at hshape
      rw [hc] at hcalls'
      cases hshape with
      | stays scalars notReturn =>
        cases hcalls'
        exact ⟨done ++ [i], hplaced', vouched_of_stays distinct hsound₀ hvouched' hrun hc⟩
      | enters isCall callee values unknown function defined starts entered =>
        cases hcalls'
        obtain ⟨phis, hphis, hall⟩ := Activation.placed_of_enterBlock entered
        exact ⟨phis, hphis, Activation.vouched_of_unguarded (Activation.unguarded_of_phis hall)⟩
      | leaves scalars isReturn suspended =>
        cases hcalls'
        obtain ⟨ran, hran, hunguarded⟩ := hsuspended _ (suspended ▸ List.mem_cons_self)
        exact ⟨ran, hran, Activation.vouched_of_unguarded hunguarded⟩
      | ends isReturn outermost => cases hcalls'
    · intro a' callers' hcalls'
      generalize hc : s'.calls = calls at hshape
      rw [hc] at hcalls'
      cases hshape with
      | stays scalars notReturn =>
        cases hcalls'
        exact hsuspended
      | enters isCall callee values unknown function defined starts entered =>
        cases hcalls'
        intro c hmem
        rcases List.mem_cons.mp hmem with rfl | hmem
        · exact ⟨done ++ [i], hplaced', unguarded_of_enters distinct isCall callee unknown⟩
        · exact hsuspended c hmem
      | leaves scalars isReturn suspended =>
        cases hcalls'
        intro c hmem
        exact hsuspended c (suspended ▸ List.mem_cons_of_mem _ hmem)
      | ends isReturn outermost => cases hcalls'

theorem vouched_of_start (h : Hooks) {m : Machine} {function : String} {arguments : List Word}
    (hm : m.IsSound m.image) (hs : (start t function arguments).runFrom (.ofMachine m) = (.ok (), s)) :
    s.Vouched h m.image := by
  unfold start at hs
  obtain ⟨f, -, hs⟩ := lift_bind_ok.mp hs
  obtain ⟨body, entry, b, -, -, hb, rfl⟩ := enter_ok hs
  obtain ⟨phis, hphis, hall⟩ := Activation.placed_of_enterBlock hb
  refine ⟨hm, ?_, ?_⟩
  · rintro _ _ ⟨⟩
    exact ⟨phis, hphis, Activation.vouched_of_unguarded (Activation.unguarded_of_phis hall)⟩
  · rintro _ _ ⟨⟩ c hc
    cases hc

/-- On every run of a fresh machine, the last guard of the innermost call holds. -/
theorem vouched_of_reached (distinct : t.configuration.hooks.names.Nodup) {function : String}
    {arguments : List Word} (hs : Reached t function arguments s) :
    ∃ x, s.Vouched t.configuration.hooks x := by
  obtain ⟨kind, m, s₀, steps, hm, hstart, hafter⟩ := hs
  have h₀ := vouched_of_start t.configuration.hooks (Machine.isSound_of_ofProgram hm) hstart
  exact ⟨m.image, after_induction (fun _ _ h hstep => vouched_step distinct h hstep) h₀ hafter⟩

theorem permitted_behind_guard (distinct : t.configuration.hooks.names.Nodup) {function : String}
    {arguments : List Word} (hs : Reached t function arguments s) (hcalls : s.calls = a :: callers)
    {front : List Instruction} {x y : Instruction} {temp : Variable} {v : Value} {access : Access} {w : Word}
    (hplaced : a.Placed (front ++ [x, y])) (hx : x.TakesAddress temp v) (hy : y.Validates t.configuration.hooks temp access)
    (hw : a.word s.machine v = .ok w) :
    ∃ r ∈ s.machine.monitor.space.regions.toList, r.containsAddress w ∧ r.protection.allows access := by
  obtain ⟨image, hv⟩ := vouched_of_reached distinct hs
  obtain ⟨done, hdone, hvouched⟩ := hv.innermost a callers hcalls
  have hsame : done = front ++ [x, y] := by
    obtain ⟨b, hb, hinstructions⟩ := hdone
    obtain ⟨c, hc, hinstructions'⟩ := hplaced
    rw [hb] at hc
    cases hc
    exact List.append_cancel_right (hinstructions.symm.trans hinstructions')
  exact AddressSpace.exists_region_of_permits hv.sound.monitor.space.anchored
    (hvouched.permission front x y temp v access w hsame hx hy hw)

end Processor

end RegionGuard

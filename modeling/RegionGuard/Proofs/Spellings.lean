import Mathlib.Data.List.Basic
import RegionGuard.Json.Reader
import RegionGuard.Json.Writer
set_option autoImplicit false

namespace RegionGuard

theorem Hex.digitValue?_digit {n : Nat} (h : n < 16) : digitValue? (digit n) = some n := by
  have hall : ∀ k : Fin 16, digitValue? (digit k.val) = some k.val := by decide
  exact hall ⟨n, h⟩

namespace Json

namespace Literal

variable {c : Char} {cs r rest : List Char}

theorem unit?_control (h : c.toNat < 0x20) :
    unit? '0' '0' (Hex.digit (c.toNat / 16)) (Hex.digit (c.toNat % 16)) = some c.toNat := by
  have hzero : Hex.digitValue? '0' = some 0 := by decide
  unfold unit?
  rw [hzero, Hex.digitValue?_digit (by omega), Hex.digitValue?_digit (Nat.mod_lt _ (by omega))]
  change some (((0 * 16 + 0) * 16 + c.toNat / 16) * 16 + c.toNat % 16) = _
  congr 1
  omega

theorem scan_escape (h : scan cs = some (r, rest)) : scan (escape c ++ cs) = some (escape c ++ r, rest) := by
  unfold escape
  split
  case h_8 =>
    split
    · rename_i hcontrol
      simp [scan, unit?_control hcontrol, h]
    · simp_all [scan]
  all_goals simp [scan, shortEscape?, h]

theorem scan_ofText (s : String) (rest : List Char) :
    scan ((ofText s).spelling.toList ++ '"' :: rest) = some ((ofText s).spelling.toList, rest) := by
  unfold ofText
  rw [String.toList_ofList]
  induction s.toList with
  | nil => rfl
  | cons c cs ih =>
    rw [List.flatMap_cons, List.append_assoc]
    exact scan_escape ih

theorem units_escape {ns : List Nat} (h : units cs = some ns) : units (escape c ++ cs) = some (c.toNat :: ns) := by
  unfold escape
  split
  case h_8 =>
    split
    · rename_i hcontrol
      simp [units, unit?_control hcontrol, h]
    · simp_all [units]
  all_goals
    simp [units, shortEscape?, h]
    try decide

theorem units_ofText (s : String) : units (ofText s).spelling.toList = some (s.toList.map Char.toNat) := by
  unfold ofText
  rw [String.toList_ofList]
  induction s.toList with
  | nil => rfl
  | cons c cs ih => exact units_escape ih

theorem not_isSurrogate (c : Char) : (isHighSurrogate c.toNat || isLowSurrogate c.toNat) = false := by
  have hvalid : c.toNat < 55296 ∨ 57343 < c.toNat ∧ c.toNat < 1114112 := c.valid
  unfold isHighSurrogate isLowSurrogate
  simp only [Bool.or_eq_false_iff, Bool.and_eq_false_iff, decide_eq_false_iff_not]
  omega

theorem joinUnits_toNat (cs : List Char) : joinUnits (cs.map Char.toNat) = some cs := by
  induction cs with
  | nil => rfl
  | cons c cs ih =>
    obtain ⟨hhigh, hlow⟩ := Bool.or_eq_false_iff.mp (not_isSurrogate c)
    cases cs with
    | nil => simp [joinUnits, hhigh, hlow, Char.ofNat_toNat]
    | cons d ds =>
      rw [List.map_cons] at ih
      simp [joinUnits, hhigh, hlow, ih, Char.ofNat_toNat]

theorem escape_of_isDigit (h : c.isDigit = true) : escape c = [c] := by
  unfold escape
  split
  case h_8 =>
    split
    · rename_i hcontrol
      simp only [Char.isDigit, Bool.and_eq_true, decide_eq_true_eq] at h
      have hzero : (48 : Nat) ≤ c.toNat := h.1
      omega
    · rfl
  all_goals exact absurd h (by decide)

@[simp] theorem text?_ofText (s : String) : (ofText s).text? = some s := by
  unfold text?
  rw [units_ofText]
  change (joinUnits (s.toList.map Char.toNat) >>= fun cs => some (String.ofList cs)) = _
  rw [joinUnits_toNat]
  change some (String.ofList s.toList) = _
  rw [String.ofList_toList]

end Literal

section Numbers

variable {n : Nat} {cs rest : List Char}

def EndsNumber (rest : List Char) : Prop :=
  ∀ c ∈ rest.head?, c.isDigit = false ∧ c ≠ '.' ∧ c ≠ 'e' ∧ c ≠ 'E'

theorem ofDigits_toDigits (n : Nat) : ofDigits (Nat.toDigits 10 n) = n := by
  unfold ofDigits
  simp only [Nat.mul_comm _ 10]
  rw [← Nat.ofDigitChars_eq_foldl]
  exact Nat.ofDigitChars_ten_toDigits

theorem isDigit_toDigits {c : Char} (h : c ∈ Nat.toDigits 10 n) : c.isDigit = true :=
  Nat.isDigit_of_mem_toDigits (by omega) (by omega) h

theorem head_toDigits (h : n ≠ 0) : (Nat.toDigits 10 n).head? ≠ some '0' := by
  induction n using Nat.strongRecOn with
  | ind n ih =>
    by_cases hn : n < 10
    · rw [Nat.toDigits_of_lt_base hn]
      have hall : ∀ k : Fin 10, k.val ≠ 0 → [Nat.digitChar k.val].head? ≠ some '0' := by decide
      exact hall ⟨n, hn⟩ h
    · rw [Nat.toDigits_of_base_le (by omega) (by omega), List.head?_append]
      have hrest := ih (n / 10) (by omega) (by omega)
      cases hhead : (Nat.toDigits 10 (n / 10)).head? with
      | none => exact absurd (List.head?_eq_none_iff.mp hhead) Nat.toDigits_ne_nil
      | some c => rwa [hhead] at hrest

theorem readDigits_append (hcs : ∀ c ∈ cs, c.isDigit = true) (hne : cs ≠ [])
    (hrest : ∀ c ∈ rest.head?, c.isDigit = false) : readDigits (cs ++ rest) = some (cs, rest) := by
  have htake : rest.takeWhile Char.isDigit = [] := by
    cases rest with
    | nil => rfl
    | cons c rest => rw [List.takeWhile_cons, hrest c rfl, if_neg Bool.false_ne_true]
  have hdrop : rest.dropWhile Char.isDigit = rest := by
    cases rest with
    | nil => rfl
    | cons c rest => rw [List.dropWhile_cons, hrest c rfl, if_neg Bool.false_ne_true]
  unfold readDigits
  rw [List.takeWhile_append_of_pos hcs, List.dropWhile_append_of_pos hcs, htake, hdrop, List.append_nil]
  cases cs with
  | nil => exact absurd rfl hne
  | cons c cs => rfl

theorem readFraction_of_endsNumber (h : EndsNumber rest) : readFraction rest = some (false, rest) := by
  unfold readFraction
  split
  · exact absurd rfl (h '.' rfl).2.1
  · rfl

theorem readExponent_of_endsNumber (h : EndsNumber rest) : readExponent rest = some (false, rest) := by
  cases rest with
  | nil => rfl
  | cons c rest =>
    obtain ⟨-, -, hlower, hupper⟩ := h c rfl
    simp [readExponent, hlower, hupper]

theorem not_leadingZero (n : Nat) :
    ¬ ((Nat.toDigits 10 n).head? = some '0' ∧ (Nat.toDigits 10 n).length ≠ 1) := by
  rintro ⟨hhead, hlength⟩
  by_cases hn : n = 0
  · rw [hn] at hlength
    exact hlength rfl
  · exact head_toDigits hn hhead

theorem toList_toString_ofNat (n : Nat) : (toString (Int.ofNat n)).toList = Nat.toDigits 10 n := by
  change (toString n).toList = _
  rw [Nat.toString_eq_ofList_toDigits, String.toList_ofList]

theorem toList_toString_negSucc (n : Nat) : (toString (Int.negSucc n)).toList = '-' :: Nat.toDigits 10 (n + 1) := by
  change ("-" ++ toString (n + 1)).toList = _
  rw [String.toList_append, Nat.toString_eq_ofList_toDigits]
  change '-' :: (String.ofList _).toList = _
  rw [String.toList_ofList]

theorem readNumber_toString (i : Int) (h : EndsNumber rest) :
    readNumber ((toString i).toList ++ rest) = some (.integer i, rest) := by
  have hdigits : ∀ n : Nat, readDigits (Nat.toDigits 10 n ++ rest) = some (Nat.toDigits 10 n, rest) := fun n =>
    readDigits_append (fun _ => isDigit_toDigits) Nat.toDigits_ne_nil fun c hc => (h c hc).1
  cases i with
  | ofNat n =>
    rw [toList_toString_ofNat]
    have hsign : ∀ cs : List Char, Nat.toDigits 10 n ++ rest ≠ '-' :: cs := by
      intro cs hcs
      obtain ⟨c, ds, hn⟩ := List.exists_cons_of_ne_nil (Nat.toDigits_ne_nil (b := 10) (n := n))
      have hc : c.isDigit = true := isDigit_toDigits (n := n) (hn ▸ List.mem_cons_self)
      rw [hn] at hcs
      obtain ⟨rfl, -⟩ := List.cons.inj hcs
      cases hc
    unfold readNumber
    split
    rename_i negative cs hcs
    split at hcs
    · rename_i heq
      exact absurd heq (hsign _)
    · cases hcs
      simp only [hdigits, Option.bind_eq_bind, Option.bind_some, if_neg (not_leadingZero n),
        readFraction_of_endsNumber h, readExponent_of_endsNumber h]
      simp [ofDigits_toDigits]
  | negSucc n =>
    rw [toList_toString_negSucc]
    unfold readNumber
    simp only [List.cons_append, hdigits, Option.bind_eq_bind, Option.bind_some, if_neg (not_leadingZero (n + 1)),
      readFraction_of_endsNumber h, readExponent_of_endsNumber h]
    simp [ofDigits_toDigits]
    omega

end Numbers

/-- A literal that ends at the quote that follows its spelling. -/
def Literal.Closes (l : Literal) : Prop :=
  ∀ rest, scan (l.spelling.toList ++ '"' :: rest) = some (l.spelling.toList, rest)

mutual

def Spelled : Json → Prop
  | .string l => l.Closes
  | .array items => SpelledAll items
  | .object members => SpelledMembers members
  | .fraction => False
  | _ => True

def SpelledAll : List Json → Prop
  | [] => True
  | j :: js => Spelled j ∧ SpelledAll js

def SpelledMembers : List (Literal × Json) → Prop
  | [] => True
  | (name, j) :: ms => name.Closes ∧ Spelled j ∧ SpelledMembers ms

end

@[simp] theorem Literal.closes_ofText (s : String) : (ofText s).Closes := scan_ofText s

theorem spelledAll_iff {js : List Json} : SpelledAll js ↔ ∀ j ∈ js, j.Spelled := by
  induction js with
  | nil => simp [SpelledAll]
  | cons j js ih => rw [SpelledAll, ih, List.forall_mem_cons]

theorem spelledMembers_iff {ms : List (Literal × Json)} :
    SpelledMembers ms ↔ ∀ m ∈ ms, m.1.Closes ∧ m.2.Spelled := by
  induction ms with
  | nil => simp [SpelledMembers]
  | cons m ms ih => rw [SpelledMembers, ih, List.forall_mem_cons, and_assoc]

theorem spelled_ofList {α : Type} {f : α → Json} {l : List α} (h : ∀ a ∈ l, (f a).Spelled) : (ofList f l).Spelled :=
  spelledAll_iff.mpr (List.forall_mem_map.mpr h)

theorem spelled_ofOption {α : Type} {f : α → Json} {o : Option α} (h : ∀ a ∈ o, (f a).Spelled) :
    (ofOption f o).Spelled := by
  cases o with
  | none => trivial
  | some a => exact h a rfl

section Blanks

variable {ws cs rest : List Char} {fuel : Nat}

def IsIndent (indent : String) : Prop := ∀ c ∈ indent.toList, isBlank c = true

theorem IsIndent.deeper {indent : String} (h : IsIndent indent) : IsIndent (indent ++ "  ") := by
  intro c hc
  rw [String.toList_append] at hc
  rcases List.mem_append.mp hc with hc | hc
  · exact h c hc
  · have hall : "  ".toList.all isBlank = true := by decide
    exact List.all_eq_true.mp hall c hc

theorem skipBlank_append (hws : ∀ c ∈ ws, isBlank c = true) : skipBlank (ws ++ cs) = skipBlank cs :=
  List.dropWhile_append_of_pos hws

theorem skipBlank_cons {c : Char} (hc : isBlank c = false) : skipBlank (c :: cs) = c :: cs := by
  unfold skipBlank
  rw [List.dropWhile_cons, hc, if_neg Bool.false_ne_true]

theorem readValue_skip (hws : ∀ c ∈ ws, isBlank c = true) : readValue fuel (ws ++ cs) = readValue fuel cs := by
  cases fuel with
  | zero => rfl
  | succ fuel => rw [readValue, readValue, skipBlank_append hws]

end Blanks

section Layout

variable {indent : String} {rest : List Char} {fuel : Nat}

def margin (indent : String) : List Char := '\n' :: (indent.toList ++ [' ', ' '])

def further (indent : String) (lines : List String) : List Char :=
  lines.flatMap fun t => ',' :: (margin indent ++ t.toList)

def ending (indent : String) (closing : Char) : List Char := '\n' :: (indent.toList ++ [closing])

theorem length_margin (indent : String) : 0 < (margin indent).length := by simp [margin]

theorem isBlank_margin (h : IsIndent indent) : ∀ c ∈ margin indent, isBlank c = true := by
  intro c hc
  rcases List.mem_cons.mp hc with rfl | hc
  · rfl
  · rcases List.mem_append.mp hc with hc | hc
    · exact h c hc
    · have hall : [' ', ' '].all isBlank = true := by decide
      exact List.all_eq_true.mp hall c hc

theorem further_cons (line : String) (lines : List String) :
    further indent (line :: lines) = ',' :: (margin indent ++ (line.toList ++ further indent lines)) := by
  simp [further]

theorem intercalate_margin (line : List Char) (lines : List String) :
    (',' :: margin indent).intercalate (line :: lines.map String.toList) = line ++ further indent lines := by
  induction lines generalizing line with
  | nil => simp [further]
  | cons l ls ih =>
    rw [List.map_cons, List.intercalate_cons_cons, ih]
    simp [further]

theorem toList_spread (indent : String) (opening closing : Char) (line : String) (lines : List String) :
    (spread opening.toString closing.toString indent (line :: lines)).toList =
      opening :: (margin indent ++ (line.toList ++ (further indent lines ++ ending indent closing))) := by
  have hmargin : ("\n" ++ indent ++ "  ").toList = margin indent := by
    simp [margin, String.toList_append]
  have hseparator : ("," ++ ("\n" ++ indent ++ "  ")).toList = ',' :: margin indent := by
    rw [String.toList_append, hmargin]
    rfl
  unfold spread
  rw [List.isEmpty_cons, if_neg Bool.false_ne_true]
  simp only [String.toList_append, String.toList_intercalate, hmargin, hseparator, List.map_cons, intercalate_margin]
  simp [ending]

theorem skipBlank_ending (h : IsIndent indent) {closing : Char} (hc : isBlank closing = false) :
    skipBlank (ending indent closing ++ rest) = closing :: rest := by
  have hws : ∀ c ∈ '\n' :: indent.toList, isBlank c = true := by
    intro c hmem
    rcases List.mem_cons.mp hmem with rfl | hmem
    · rfl
    · exact h c hmem
  have htext : ending indent closing ++ rest = ('\n' :: indent.toList) ++ closing :: rest := by simp [ending]
  rw [htext, skipBlank_append hws, skipBlank_cons hc]

theorem endsNumber_further (lines : List String) (closing : Char) :
    EndsNumber (further indent lines ++ (ending indent closing ++ rest)) := by
  cases lines with
  | nil =>
    rintro c hc
    obtain rfl : '\n' = c := Option.some.inj hc
    decide
  | cons l ls =>
    rintro c hc
    obtain rfl : ',' = c := Option.some.inj hc
    decide

end Layout

theorem isBlank_of_isDigit {c : Char} (h : c.isDigit = true) : isBlank c = false := by
  have hne : ∀ d ∈ [' ', '\n', '\t', '\r'], c ≠ d := by
    rintro d hd rfl
    have hnone : [' ', '\n', '\t', '\r'].any Char.isDigit = false := by decide
    exact List.any_eq_false.mp hnone c hd h
  simp only [List.forall_mem_cons] at hne
  obtain ⟨hspace, hnewline, htab, hreturn, -⟩ := hne
  simp [isBlank, hspace, hnewline, htab, hreturn]

theorem toList_quote (l : Literal) : (quote l).toList = '"' :: (l.spelling.toList ++ ['"']) := by
  simp [quote]

def Starts (first : List Char) : Prop := ∃ c cs, first = c :: cs ∧ isBlank c = false ∧ c ≠ ']' ∧ c ≠ '}'

theorem starts_pretty {j : Json} (hj : j.Spelled) (indent : String) : Starts (pretty indent j).toList := by
  have hspread : ∀ (opening closing : Char) (lines : List String), ∃ cs,
      (spread opening.toString closing.toString indent lines).toList = opening :: cs := by
    intro opening closing lines
    cases lines with
    | nil => exact ⟨[closing], by simp [spread]⟩
    | cons l ls => exact ⟨_, toList_spread indent opening closing l ls⟩
  cases j with
  | null => exact ⟨'n', ['u', 'l', 'l'], by simp [pretty], by decide⟩
  | bool b =>
    cases b with
    | true => exact ⟨'t', ['r', 'u', 'e'], by simp [pretty], by decide⟩
    | false => exact ⟨'f', ['a', 'l', 's', 'e'], by simp [pretty], by decide⟩
  | integer i =>
    rw [pretty]
    cases i with
    | ofNat n =>
      obtain ⟨c, ds, hn⟩ := List.exists_cons_of_ne_nil (Nat.toDigits_ne_nil (b := 10) (n := n))
      have hc : c.isDigit = true := isDigit_toDigits (n := n) (hn ▸ List.mem_cons_self)
      refine ⟨c, ds, (toList_toString_ofNat n).trans hn, isBlank_of_isDigit hc, ?_, ?_⟩
      · rintro rfl
        cases hc
      · rintro rfl
        cases hc
    | negSucc n => exact ⟨'-', _, toList_toString_negSucc n, by decide⟩
  | fraction => exact hj.elim
  | string l => exact ⟨'"', _, toList_quote l, by decide⟩
  | array items =>
    obtain ⟨cs, hcs⟩ := hspread '[' ']' (prettyItems (indent ++ "  ") items)
    exact ⟨'[', cs, hcs, by decide⟩
  | object members =>
    obtain ⟨cs, hcs⟩ := hspread '{' '}' (prettyMembers (indent ++ "  ") members)
    exact ⟨'{', cs, hcs, by decide⟩

section Lines

variable {indent : String} {rest : List Char} {fuel : Nat} {name : Literal} {j : Json}

theorem readLiteral_of_closes (h : name.Closes) (rest : List Char) :
    readLiteral (name.spelling.toList ++ '"' :: rest) = some (name, rest) := by
  unfold readLiteral
  rw [h rest]
  simp

theorem readMember_line (hname : name.Closes)
    (hvalue : readValue fuel ((pretty indent j).toList ++ rest) = some (j, rest)) :
    readMember (fuel + 1) ((quote name ++ ": " ++ pretty indent j).toList ++ rest) = some ((name, j), rest) := by
  have htext : (quote name ++ ": " ++ pretty indent j).toList ++ rest =
      '"' :: (name.spelling.toList ++ '"' :: ':' :: ([' '] ++ ((pretty indent j).toList ++ rest))) := by
    simp [toList_quote]
  have hblank : ∀ c ∈ [' '], isBlank c = true := List.all_eq_true.mp (by decide)
  rw [htext, readMember, skipBlank_cons (by decide)]
  simp only [readLiteral_of_closes hname, Option.bind_eq_bind, Option.bind_some]
  rw [skipBlank_cons (by decide)]
  simp only [readValue_skip hblank, hvalue, Option.bind_some]
  rfl

theorem length_line (name : Literal) (text : String) :
    text.toList.length + 3 ≤ (quote name ++ ": " ++ text).toList.length := by
  simp [toList_quote]
  omega

theorem starts_line (name : Literal) (text : String) : Starts (quote name ++ ": " ++ text).toList :=
  ⟨'"', name.spelling.toList ++ '"' :: ':' :: ' ' :: text.toList, by simp [toList_quote], by decide⟩

end Lines

theorem readValue_number {c : Char} {cs : List Char} (hc : c.isDigit = true ∨ c = '-') (fuel : Nat) :
    readValue (fuel + 1) (c :: cs) = readNumber (c :: cs) := by
  have hblank : isBlank c = false := by
    rcases hc with hc | rfl
    · exact isBlank_of_isDigit hc
    · decide
  rw [readValue, skipBlank_cons hblank]
  split
  case h_7 => rfl
  all_goals
    rename_i heq
    cases heq
    exact absurd hc (by decide)

section Brackets

variable {indent : String} {first more rest more' : List Char} {fuel : Nat} {j : Json} {name : Literal}

theorem Starts.skipBlank (h : Starts first) (hindent : IsIndent indent) :
    Json.skipBlank (margin indent ++ (first ++ more)) = first ++ more := by
  obtain ⟨c, cs, rfl, hc, -, -⟩ := h
  rw [skipBlank_append (isBlank_margin hindent), List.cons_append, skipBlank_cons hc]

theorem readValue_array (hindent : IsIndent indent) (hfirst : Starts first) {js : List Json}
    (hj : readValue fuel (first ++ more) = some (j, more)) (hjs : readItems fuel more = some (js, rest)) :
    readValue (fuel + 1) ('[' :: (margin indent ++ (first ++ more))) = some (.array (j :: js), rest) := by
  rw [readValue, skipBlank_cons (by decide)]
  simp only [hfirst.skipBlank hindent]
  split
  · rename_i heq
    obtain ⟨c, cs, rfl, -, hne, -⟩ := hfirst
    exact absurd (List.cons.inj heq).1 hne
  · rw [hj]
    change (readItems fuel more >>= _) = _
    rw [hjs]
    rfl

theorem readItems_cons (hindent : IsIndent indent) {js : List Json}
    (hj : readValue fuel (first ++ more) = some (j, more)) (hjs : readItems fuel more = some (js, rest)) :
    readItems (fuel + 1) (',' :: (margin indent ++ (first ++ more))) = some (j :: js, rest) := by
  rw [readItems, skipBlank_cons (by decide)]
  simp only [readValue_skip (isBlank_margin hindent)]
  rw [hj]
  change (readItems fuel more >>= _) = _
  rw [hjs]
  rfl

theorem readMember_skip {ws cs : List Char} (hws : ∀ c ∈ ws, isBlank c = true) :
    readMember fuel (ws ++ cs) = readMember fuel cs := by
  cases fuel with
  | zero => rfl
  | succ fuel => rw [readMember, readMember, skipBlank_append hws]

theorem readValue_object (hindent : IsIndent indent) (hfirst : Starts first) {ms : List (Literal × Json)}
    (hm : readMember fuel (first ++ more) = some ((name, j), more)) (hms : readMembers fuel more = some (ms, rest)) :
    readValue (fuel + 1) ('{' :: (margin indent ++ (first ++ more))) = some (.object ((name, j) :: ms), rest) := by
  rw [readValue, skipBlank_cons (by decide)]
  simp only [hfirst.skipBlank hindent]
  split
  · rename_i heq
    obtain ⟨c, cs, rfl, -, -, hne⟩ := hfirst
    exact absurd (List.cons.inj heq).1 hne
  · rw [hm]
    change (readMembers fuel more >>= _) = _
    rw [hms]
    rfl

theorem readMembers_cons (hindent : IsIndent indent) {ms : List (Literal × Json)}
    (hm : readMember fuel (first ++ more) = some ((name, j), more)) (hms : readMembers fuel more = some (ms, rest)) :
    readMembers (fuel + 1) (',' :: (margin indent ++ (first ++ more))) = some ((name, j) :: ms, rest) := by
  rw [readMembers, skipBlank_cons (by decide)]
  simp only [readMember_skip (isBlank_margin hindent)]
  rw [hm]
  change (readMembers fuel more >>= _) = _
  rw [hms]
  rfl

end Brackets

mutual

theorem readValue_pretty {indent : String} (hindent : IsIndent indent) {rest : List Char} {fuel : Nat} :
    ∀ j : Json, j.Spelled → EndsNumber rest → (pretty indent j).toList.length ≤ fuel + 1 →
      readValue (fuel + 1) ((pretty indent j).toList ++ rest) = some (j, rest)
  | .null, _, _, _ => by
    rw [show (pretty indent .null).toList = ['n', 'u', 'l', 'l'] by simp [pretty], readValue]
    rfl
  | .bool true, _, _, _ => by
    rw [show (pretty indent (.bool true)).toList = ['t', 'r', 'u', 'e'] by simp [pretty], readValue]
    rfl
  | .bool false, _, _, _ => by
    rw [show (pretty indent (.bool false)).toList = ['f', 'a', 'l', 's', 'e'] by simp [pretty], readValue]
    rfl
  | .integer i, _, hrest, _ => by
    rw [pretty]
    have hread := readNumber_toString i hrest
    cases i with
    | ofNat n =>
      rw [toList_toString_ofNat] at hread ⊢
      obtain ⟨c, ds, hn⟩ := List.exists_cons_of_ne_nil (Nat.toDigits_ne_nil (b := 10) (n := n))
      have hc : c.isDigit = true := isDigit_toDigits (n := n) (hn ▸ List.mem_cons_self)
      rw [hn, List.cons_append] at hread ⊢
      exact (readValue_number (.inl hc) fuel).trans hread
    | negSucc n =>
      rw [toList_toString_negSucc, List.cons_append] at hread ⊢
      exact (readValue_number (.inr rfl) fuel).trans hread
  | .fraction, hj, _, _ => hj.elim
  | .string l, hj, _, _ => by
    rw [pretty, toList_quote, List.cons_append, List.append_assoc, readValue, skipBlank_cons (by decide)]
    simp only [List.singleton_append, readLiteral_of_closes hj]
    rfl
  | .array [], _, _, _ => by
    rw [show (pretty indent (.array [])).toList = ['[', ']'] by simp [pretty, prettyItems, spread], readValue]
    rfl
  | .array (j :: js), hj, _, hfuel => by
    obtain ⟨hj, hjs⟩ := hj
    have htext := toList_spread indent '[' ']' (pretty (indent ++ "  ") j) (prettyItems (indent ++ "  ") js)
    change (spread _ _ _ _).toList.length ≤ _ at hfuel
    change readValue _ ((spread _ _ _ _).toList ++ _) = _
    rw [show '['.toString = "[" from rfl, show ']'.toString = "]" from rfl] at htext
    rw [prettyItems, htext] at hfuel ⊢
    have hmargin := length_margin indent
    simp only [List.length_cons, List.length_append] at hfuel
    obtain ⟨fuel, rfl⟩ : ∃ k, fuel = k + 1 := ⟨fuel - 1, by omega⟩
    simp only [List.cons_append, List.append_assoc]
    refine readValue_array hindent (starts_pretty hj _) ?_ ?_
    · exact readValue_pretty hindent.deeper j hj (endsNumber_further _ _) (by omega)
    · exact readItems_pretty hindent js hjs (by rw [List.length_append]; omega)
  | .object [], _, _, _ => by
    rw [show (pretty indent (.object [])).toList = ['{', '}'] by simp [pretty, prettyMembers, spread], readValue]
    rfl
  | .object ((name, j) :: ms), hj, _, hfuel => by
    obtain ⟨hname, hj, hms⟩ := hj
    have htext := toList_spread indent '{' '}' (quote name ++ ": " ++ pretty (indent ++ "  ") j)
      (prettyMembers (indent ++ "  ") ms)
    change (spread _ _ _ _).toList.length ≤ _ at hfuel
    change readValue _ ((spread _ _ _ _).toList ++ _) = _
    rw [show '{'.toString = "\x7b" from rfl, show '}'.toString = "\x7d" from rfl] at htext
    rw [prettyMembers, htext] at hfuel ⊢
    have hline := length_line name (pretty (indent ++ "  ") j)
    simp only [List.length_cons, List.length_append] at hfuel
    obtain ⟨fuel, rfl⟩ : ∃ k, fuel = k + 2 := ⟨fuel - 2, by omega⟩
    simp only [List.cons_append, List.append_assoc]
    refine readValue_object hindent (starts_line _ _) ?_ ?_
    · exact readMember_line hname (readValue_pretty hindent.deeper j hj (endsNumber_further _ _) (by omega))
    · exact readMembers_pretty hindent ms hms (by rw [List.length_append]; omega)

theorem readItems_pretty {indent : String} (hindent : IsIndent indent) {rest : List Char} {fuel : Nat} :
    ∀ items : List Json, SpelledAll items →
      (further indent (prettyItems (indent ++ "  ") items) ++ ending indent ']').length ≤ fuel + 1 →
      readItems (fuel + 1) (further indent (prettyItems (indent ++ "  ") items) ++ (ending indent ']' ++ rest)) =
        some (items, rest)
  | [], _, _ => by
    rw [prettyItems, readItems, further, List.flatMap_nil, List.nil_append, skipBlank_ending hindent (by decide)]
    rfl
  | j :: js, hj, hfuel => by
    obtain ⟨hj, hjs⟩ := hj
    rw [prettyItems, further_cons] at hfuel ⊢
    have hmargin := length_margin indent
    simp only [List.cons_append, List.length_cons, List.length_append] at hfuel
    obtain ⟨fuel, rfl⟩ : ∃ k, fuel = k + 1 := ⟨fuel - 1, by omega⟩
    simp only [List.cons_append, List.append_assoc]
    refine readItems_cons hindent ?_ ?_
    · exact readValue_pretty hindent.deeper j hj (endsNumber_further _ _) (by omega)
    · exact readItems_pretty hindent js hjs (by rw [List.length_append]; omega)

theorem readMembers_pretty {indent : String} (hindent : IsIndent indent) {rest : List Char} {fuel : Nat} :
    ∀ members : List (Literal × Json), SpelledMembers members →
      (further indent (prettyMembers (indent ++ "  ") members) ++ ending indent '}').length ≤ fuel + 1 →
      readMembers (fuel + 1) (further indent (prettyMembers (indent ++ "  ") members) ++ (ending indent '}' ++ rest)) =
        some (members, rest)
  | [], _, _ => by
    rw [prettyMembers, readMembers, further, List.flatMap_nil, List.nil_append, skipBlank_ending hindent (by decide)]
    rfl
  | (name, j) :: ms, hj, hfuel => by
    obtain ⟨hname, hj, hms⟩ := hj
    rw [prettyMembers, further_cons] at hfuel ⊢
    have hline := length_line name (pretty (indent ++ "  ") j)
    simp only [List.cons_append, List.length_cons, List.length_append] at hfuel
    obtain ⟨fuel, rfl⟩ : ∃ k, fuel = k + 2 := ⟨fuel - 2, by omega⟩
    simp only [List.cons_append, List.append_assoc]
    refine readMembers_cons hindent ?_ ?_
    · exact readMember_line hname (readValue_pretty hindent.deeper j hj (endsNumber_further _ _) (by omega))
    · exact readMembers_pretty hindent ms hms (by rw [List.length_append]; omega)

end

theorem parse?_pretty {j : Json} (hj : j.Spelled) : parse? (j.pretty "") = some j := by
  unfold parse?
  have hread : readValue (2 * (j.pretty "").toList.length + 1 + 1) ((j.pretty "").toList ++ []) = some (j, []) :=
    readValue_pretty (fun c hc => by simp at hc) j hj (fun c hc => by cases hc) (by omega)
  rw [List.append_nil] at hread
  change (readValue (2 * (j.pretty "").toList.length + 1 + 1) (j.pretty "").toList >>= _) = _
  rw [hread]
  rfl

end Json

end RegionGuard

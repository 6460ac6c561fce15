/-
# Strings and numbers in JSON texts

A string shows its own end and a number does not, so the lemmas about the two differ.  Whatever
follows a written string, it is read back and what follows is left (`string_quoted`).  A written
number is read back when what follows could not be part of it (`EndsNumber`, `number_numberChars`).

The texts without a value are read back as well: they are written as half of a pair, and that is
what a text without a value is.
-/
import ScriptBundle.Json

namespace ScriptBundle

/-! ## 1. Numerals -/

/-- Only zero is written with a leading zero. -/
theorem Numeral.head?_digits_ne_zero (n : Nat) (hn : n ≠ 0) : (digits n).head? ≠ some '0' := by
  induction n using Nat.strongRecOn with
  | ind n ih =>
    rw [digits, Nat.toDigits_eq_if (by decide)]
    split
    · rename_i hlt
      have hdigit : ∀ d < 10, d ≠ 0 → Nat.digitChar d ≠ '0' := by decide
      exact fun h => hdigit n hlt hn (Option.some.inj h)
    · rename_i hge
      rw [List.head?_append, Option.or_of_isSome]
      · exact ih (n / 10) (by omega) (by omega)
      · exact List.isSome_head?.mpr (digits_ne_nil (n / 10))

namespace Json

/-! ## 2. Strings -/

theorem hexValue?_hexDigit : ∀ n < 16, hexValue? (hexDigit n) = some n := by decide

/-- What a character is read back as: itself, or its number if it is a control character. -/
def Spells (p : Piece) (c : Char) : Prop := p = .char c ∨ p = .unit c.toNat ∧ c.toNat < 0x20

/-- **One character.**  It is read back as one piece, whatever follows it. -/
theorem pieces_escaped (c : Char) (cs : List Char) :
    ∃ p, Spells p c ∧
      pieces (escaped c ++ cs) = (pieces cs).bind fun (ps, rest) => some (p :: ps, rest) := by
  unfold escaped
  split
  · subst c; exact ⟨_, .inl rfl, rfl⟩
  split
  · subst c; exact ⟨_, .inl rfl, rfl⟩
  split
  · subst c; exact ⟨_, .inl rfl, rfl⟩
  split
  · subst c; exact ⟨_, .inl rfl, rfl⟩
  split
  · subst c; exact ⟨_, .inl rfl, rfl⟩
  split
  · subst c; exact ⟨_, .inl rfl, rfl⟩
  split
  · subst c; exact ⟨_, .inl rfl, rfl⟩
  split
  · rename_i hcontrol
    have hunit : unit? '0' '0' (hexDigit (c.toNat / 16)) (hexDigit (c.toNat % 16)) =
        some c.toNat := by
      have hzero : hexValue? '0' = some 0 := rfl
      simp only [unit?, hzero, hexValue?_hexDigit (c.toNat / 16) (by omega),
        hexValue?_hexDigit (c.toNat % 16) (by omega), bind, Option.bind, pure]
      congr 1
      omega
    refine ⟨.unit c.toNat, .inr ⟨rfl, hcontrol⟩, ?_⟩
    simp only [List.cons_append, List.nil_append, pieces, hunit]
    rfl
  · rename_i hquote hbackslash _ _ _ _ _ hcontrol
    refine ⟨.char c, .inl rfl, ?_⟩
    rw [List.cons_append, List.nil_append, pieces.eq_def]
    split
    · rename_i h
      cases h
      exact absurd rfl hquote
    · rename_i h
      cases h
      exact absurd rfl hbackslash
    · rename_i h
      cases h
      exact absurd rfl hbackslash
    · rename_i h
      cases h
      rw [if_neg (not_or.mpr ⟨hbackslash, hcontrol⟩)]
      rfl
    · rename_i h
      cases h

/-- A unit that is no half of a pair stands for its character. -/
theorem characters_unit {code : Nat} (hcode : code < 0xD800) (ps : List Piece) :
    characters (.unit code :: ps) = (characters ps).map (Char.ofNat code :: ·) := by
  have hhigh : isHigh code = false := by simp [isHigh]; omega
  have hlow : isLow code = false := by simp [isLow]; omega
  match ps with
  | [] => simp [characters, hhigh, hlow]
  | .char _ :: _ => simp [characters, hhigh, hlow]
  | .unit _ :: _ => simp [characters, hhigh, hlow]

theorem characters_spells {p : Piece} {c : Char} (h : Spells p c) (ps : List Piece) :
    characters (p :: ps) = (characters ps).map (c :: ·) := by
  rcases h with rfl | ⟨rfl, hcontrol⟩
  · rw [characters]
  · rw [characters_unit (by omega), Char.ofNat_toNat]

theorem pieces_flatMap_escaped (cs rest : List Char) :
    ∃ ps, characters ps = some cs ∧
      pieces (cs.flatMap escaped ++ '"' :: rest) = some (ps, rest) := by
  induction cs with
  | nil => exact ⟨[], rfl, rfl⟩
  | cons c cs ih =>
    obtain ⟨ps, hps, hread⟩ := ih
    obtain ⟨p, hp, hpiece⟩ := pieces_escaped c (cs.flatMap escaped ++ '"' :: rest)
    refine ⟨p :: ps, ?_, ?_⟩
    · rw [characters_spells hp, hps]
      rfl
    · rw [List.flatMap_cons, List.append_assoc, hpiece, hread]
      rfl

/-- **Strings.**  A written string, whose opening quotation mark is taken, is read back up to its
end. -/
theorem string_quoted (s : Option String) (rest : List Char) :
    ∃ cs, quoted s = '"' :: cs ∧ string (cs ++ rest) = some (s, rest) := by
  cases s with
  | none => exact ⟨_, rfl, rfl⟩
  | some s =>
    obtain ⟨ps, hps, hread⟩ := pieces_flatMap_escaped s.toList rest
    refine ⟨s.toList.flatMap escaped ++ ['"'], rfl, ?_⟩
    rw [List.append_assoc, List.cons_append, List.nil_append, string, hread]
    simp [hps]

/-! ## 3. Numbers -/

/-- What does not go on with a number. -/
def EndsNumber (rest : List Char) : Prop :=
  ∀ c ∈ rest.head?, c.isDigit = false ∧ c ≠ '.' ∧ c ≠ 'e' ∧ c ≠ 'E'

theorem digitRun_append {ds rest : List Char} (hds : ∀ c ∈ ds, c.isDigit = true)
    (hrest : ∀ c ∈ rest.head?, c.isDigit = false) : digitRun (ds ++ rest) = (ds, rest) := by
  rw [digitRun, List.takeWhile_append_of_pos hds, List.dropWhile_append_of_pos hds]
  cases rest with
  | nil => simp
  | cons c cs =>
    have hc := hrest c rfl
    simp [hc]

theorem digitRun_digits {n : Nat} {rest : List Char}
    (hrest : ∀ c ∈ rest.head?, c.isDigit = false) :
    digitRun (Numeral.digits n ++ rest) = (Numeral.digits n, rest) :=
  digitRun_append (fun _ => Numeral.isDigit_of_mem_digits) hrest

/-- A run of digits starts with a digit. -/
theorem digits_eq_cons (n : Nat) : ∃ c cs, Numeral.digits n = c :: cs ∧ c.isDigit = true := by
  cases h : Numeral.digits n with
  | nil => exact absurd h (Numeral.digits_ne_nil n)
  | cons c cs =>
    exact ⟨c, cs, rfl, Numeral.isDigit_of_mem_digits (n := n) (by rw [h]; exact List.mem_cons_self)⟩

theorem exponentDigits?_signedDigits (e : Int) {rest : List Char}
    (hrest : ∀ c ∈ rest.head?, c.isDigit = false) :
    exponentDigits? (Numeral.signedDigits e ++ rest) = some (e, rest) := by
  cases e with
  | ofNat n =>
    obtain ⟨c, cs, hdigits, hc⟩ := digits_eq_cons n
    have hrun := digitRun_digits (n := n) hrest
    rw [hdigits, List.cons_append] at hrun
    have hvalue := Numeral.value_digits n
    rw [hdigits] at hvalue
    rw [Numeral.signedDigits, hdigits, List.cons_append, exponentDigits?.eq_def]
    split
    rename_i heq
    split at heq
    · rename_i h
      cases h
      cases hc
    · rename_i h
      cases h
      cases hc
    · cases heq
      simp [hrun, hvalue]
  | negSucc n =>
    have hrun := digitRun_digits (n := n + 1) hrest
    have hempty : (Numeral.digits (n + 1)).isEmpty = false := by simp [Numeral.digits_ne_nil]
    simp only [Numeral.signedDigits, List.cons_append, exponentDigits?, hrun, hempty,
      Numeral.value_digits]
    rfl

theorem fraction?_of_ne {rest : List Char} (h : ∀ c ∈ rest.head?, c ≠ '.') :
    fraction? rest = some ([], rest) := by
  unfold fraction?
  split
  · exact absurd rfl (h '.' rfl)
  · rfl

theorem exponent?_of_ne {rest : List Char} (h : ∀ c ∈ rest.head?, c ≠ 'e' ∧ c ≠ 'E') :
    exponent? rest = some (none, rest) := by
  unfold exponent?
  split
  · exact absurd rfl (h 'e' rfl).1
  · exact absurd rfl (h 'E' rfl).2
  · rfl

/-- The digits of a number have no superfluous zero in front. -/
theorem digits_accepted (n : Nat) : ((Numeral.digits n).isEmpty ||
    ((Numeral.digits n).head? = some '0' && (Numeral.digits n).length ≠ 1)) = false := by
  by_cases hn : n = 0
  · subst hn
    decide
  · simp [Numeral.digits_ne_nil, Numeral.head?_digits_ne_zero n hn]

theorem magnitude_whole (negative : Bool) (n : Nat) {rest : List Char} (hrest : EndsNumber rest) :
    magnitude negative (Numeral.digits n ++ rest) = some (.whole negative n, rest) := by
  have hrun := digitRun_digits (n := n) fun c hc => (hrest c hc).1
  have hfraction := fraction?_of_ne fun c hc => (hrest c hc).2.1
  have hexponent := exponent?_of_ne fun c hc => (hrest c hc).2.2
  simp only [magnitude, hrun, digits_accepted, Bool.false_eq_true, if_false, hfraction,
    Option.bind_eq_bind, Option.bind_some, hexponent, Numeral.value_digits]
  rfl

theorem magnitude_decimal (negative : Bool) (n : Nat) (e : Int) {rest : List Char}
    (hrest : EndsNumber rest) :
    magnitude negative (Numeral.digits n ++ 'e' :: (Numeral.signedDigits e ++ rest)) =
      some (.decimal negative n e, rest) := by
  have hrun : digitRun (Numeral.digits n ++ 'e' :: (Numeral.signedDigits e ++ rest)) =
      (Numeral.digits n, 'e' :: (Numeral.signedDigits e ++ rest)) :=
    digitRun_digits fun c hc => by cases hc; rfl
  have hfraction : fraction? ('e' :: (Numeral.signedDigits e ++ rest)) =
      some ([], 'e' :: (Numeral.signedDigits e ++ rest)) := rfl
  have hexponent : exponent? ('e' :: (Numeral.signedDigits e ++ rest)) = some (some e, rest) := by
    rw [exponent?, exponentDigits?_signedDigits e fun c hc => (hrest c hc).1]
    rfl
  simp only [magnitude, hrun, digits_accepted, Bool.false_eq_true, if_false, hfraction,
    Option.bind_eq_bind, Option.bind_some, hexponent, List.append_nil, Numeral.value_digits]
  simp

theorem number_of_digits {n : Nat} (rest : List Char) :
    number (Numeral.digits n ++ rest) = magnitude false (Numeral.digits n ++ rest) := by
  obtain ⟨c, cs, hdigits, hc⟩ := digits_eq_cons n
  rw [hdigits, List.cons_append]
  unfold number
  split
  · rename_i h
    cases h
    cases hc
  · rfl

/-- **Numbers.**  A written number is read back if what follows does not go on with it. -/
theorem number_numberChars (n : Number) {rest : List Char} (hrest : EndsNumber rest) :
    number (numberChars n ++ rest) = some (n, rest) := by
  cases n with
  | whole negative n =>
    cases negative with
    | false =>
      change number (Numeral.digits n ++ rest) = _
      rw [number_of_digits, magnitude_whole false n hrest]
    | true => exact magnitude_whole true n hrest
  | decimal negative n e =>
    have hread := fun b => magnitude_decimal b n e hrest
    rw [numberChars, List.append_assoc, List.append_assoc, List.cons_append]
    cases negative with
    | false =>
      change number (Numeral.digits n ++ 'e' :: (Numeral.signedDigits e ++ rest)) = _
      rw [number_of_digits, hread false]
    | true => exact hread true

end Json

end ScriptBundle

/-
# Decimal numerals

Natural numbers are written as their shortest decimal numeral (`digits`), and a run of digits is
read as the number it denotes, leading zeros allowed (`value`).  A signed numeral is an optional
sign and at least one digit (`integer?`).

Only the ten ASCII digits count as digits.
-/

namespace ScriptBundle.Numeral

/-! ## 1. Natural numbers -/

/-- The shortest decimal numeral of a number. -/
def digits (n : Nat) : List Char := Nat.toDigits 10 n

/-- The number that a run of digits denotes. -/
def value (ds : List Char) : Nat := Nat.ofDigitChars 10 ds 0

/-- A nonempty run of digits and nothing else. -/
def isNumeral (cs : List Char) : Bool := !cs.isEmpty && cs.all Char.isDigit

/-- The numeral of a number with zeros in front, so that it has at least `width` digits. -/
def padded (width n : Nat) : List Char :=
  List.replicate (width - (digits n).length) '0' ++ digits n

@[simp] theorem value_digits (n : Nat) : value (digits n) = n := Nat.ofDigitChars_ten_toDigits

theorem isDigit_of_mem_digits {n : Nat} {c : Char} (h : c ∈ digits n) : c.isDigit = true :=
  Nat.isDigit_of_mem_toDigits (by decide) (by decide) h

theorem digits_ne_nil (n : Nat) : digits n ≠ [] := Nat.toDigits_ne_nil

/-- What is written is a numeral. -/
@[simp] theorem isNumeral_digits (n : Nat) : isNumeral (digits n) = true := by
  have some_digit := digits_ne_nil n
  have all_digits : (digits n).all Char.isDigit = true :=
    List.all_eq_true.2 fun _ h => isDigit_of_mem_digits h
  simp [isNumeral, some_digit, all_digits]

/-! ## 2. Signed numbers -/

/-- The numeral of a signed number: a minus sign stands before a negative one. -/
def signedDigits : Int → List Char
  | .ofNat n => digits n
  | .negSucc n => '-' :: digits (n + 1)

/-- The number that an optional sign and a run of digits denote. -/
def integer? : List Char → Option Int
  | '-' :: ds => if isNumeral ds then some (-(value ds : Int)) else none
  | '+' :: ds => if isNumeral ds then some (value ds) else none
  | ds => if isNumeral ds then some (value ds) else none

/-- A numeral that starts with no sign is read as its digits. -/
theorem integer?_of_isNumeral {ds : List Char} (h : isNumeral ds = true) :
    integer? ds = some (value ds : Int) := by
  unfold integer?
  split
  · simp [isNumeral] at h
  · simp [isNumeral] at h
  · simp [h]

/-- A signed number is read back from its numeral. -/
@[simp] theorem integer?_signedDigits (z : Int) : integer? (signedDigits z) = some z := by
  cases z with
  | ofNat n => simp [signedDigits, integer?_of_isNumeral]
  | negSucc n =>
    simp only [signedDigits, integer?, isNumeral_digits, value_digits, if_true, Option.some.injEq]
    omega

end ScriptBundle.Numeral

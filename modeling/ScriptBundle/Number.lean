/-
# Numbers as they are written

A number in a text is kept with its spelling, because whether it is a whole number is decided by
its spelling and not by its value.

Readers approximate what is no whole number of their range in double precision, and refuse what
they would take for infinity.  They go about it in two ways.  One takes the nearest
double-precision number (`isFinite`).  The other is quicker and less exact: it multiplies the
leading digits by a power of ten, both rounded first, and rounds the product (`hasProduct`).  Close
to the largest double-precision number the two disagree, in either direction.
-/
import ScriptBundle.Int128
import ScriptBundle.Real.Binary64

namespace ScriptBundle

/-- A number with its spelling: whole numbers have neither a fraction nor an exponent. -/
inductive Number
  | whole (negative : Bool) (magnitude : Nat)
  /-- The number `digits * 10 ^ exponent`, with its sign. -/
  | decimal (negative : Bool) (digits : Nat) (exponent : Int)
deriving DecidableEq

namespace Number

/-! ## 1. Whole numbers -/

/-- A natural number, written without a sign. -/
def natural? : Number → Option Nat
  | .whole false n => some n
  | _ => none

/-- A whole number. -/
def integer? : Number → Option Int
  | .whole false n => some n
  | .whole true n => some (-(n : Int))
  | .decimal .. => none

/-- The whole number of an integer. -/
def ofInt : Int → Number
  | .ofNat n => .whole false n
  | .negSucc n => .whole true (n + 1)

@[simp] theorem integer?_ofInt (z : Int) : (ofInt z).integer? = some z := by
  cases z with
  | ofNat n => rfl
  | negSucc n => simp only [ofInt, integer?, Option.some.injEq]; omega

/-! ## 2. The nearest double-precision number -/

/-- The least magnitude that rounds beyond the largest double-precision number. -/
def doubleLimit : Nat := Nat.pow 2 1024 - Nat.pow 2 970

/-- A number whose nearest double-precision number is finite. -/
def isFinite : Number → Bool
  | .whole _ n => n < doubleLimit
  | .decimal _ digits exponent =>
    match exponent with
    | .ofNat e => digits = 0 || (e ≤ 400 && digits * Nat.pow 10 e < doubleLimit)
    | .negSucc e => digits.log2 ≤ e || digits < doubleLimit * Nat.pow 10 (e + 1)

/-! ## 3. A product of roundings -/

/-- The leading digits of a number, as many of them as fit into 64 bits, and how many follow. -/
def leading (n : Nat) : Nat × Nat :=
  let following := (Numeral.digits n).length - 20
  let first := n / Nat.pow 10 following
  if first < 0x10000000000000000 then (first, following) else (first / 10, following + 1)

/-- The largest power of ten that double precision has. -/
def largestPower : Nat := 308

/-- Whether `digits * 10 ^ exponent` is finite as a product of roundings. -/
def productIsFinite (digits : Nat) (exponent : Int) : Bool :=
  let (first, following) := leading digits
  match exponent + following with
  | .ofNat e =>
    first = 0 || (e ≤ largestPower
      && Binary64.rounded first * Binary64.rounded (Nat.pow 10 e) < doubleLimit)
  | .negSucc _ => true

/-- A number that is finite as a product of roundings.  Whole numbers of 64 bits are not rounded
at all. -/
def hasProduct : Number → Bool
  | .whole _ n => n < 0x10000000000000000 || productIsFinite n 0
  | .decimal _ digits exponent => productIsFinite digits exponent

end Number

end ScriptBundle

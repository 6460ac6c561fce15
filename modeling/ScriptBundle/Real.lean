/-
# Decimals with six places

A decimal is kept as the whole number of its millionths, which is also what goes on the wire.
So nothing is lost on the way in or out: the text of a decimal always shows all six places, and
reading a text is exact (`parse`).  Reading admits fewer places, a plus sign, and white space
around the number, and refuses what has more places or does not fit.

The two sides of the point are read apart and put together in steps, none of which may leave the
range (`ofParts?`).  A negative decimal is on its side of zero before its millionths are taken off
it, for the range reaches one further below zero than above.

Conversions to and from double precision are a convenience and round as such arithmetic does: each
product, quotient and conversion is rounded to the nearest double by itself.
-/
import ScriptBundle.Int128
import ScriptBundle.Text.Blank
import ScriptBundle.Real.Binary64

namespace ScriptBundle

/-- A decimal, as the number of its millionths. -/
structure Real where
  scaled : Int128
deriving DecidableEq

namespace Real

/-- How many places follow the point. -/
def places : Nat := 6

/-- How many units of the last place make one. -/
def scale : Nat := Nat.pow 10 places

/-- A whole number, if it is not too large. -/
def ofInt? (n : Int128) : Option Real := (Int128.ofInt? (n.val * scale)).map Real.mk

/-! ## 1. Text -/

/-- The characters of a decimal: all six places are shown. -/
def chars (r : Real) : List Char :=
  let size := r.scaled.val.natAbs
  (if r.scaled.val < 0 then ['-'] else [])
    ++ Numeral.digits (size / scale) ++ '.' :: Numeral.padded places (size % scale)

def text (r : Real) : String := String.ofList r.chars

/-- A text that is no decimal. -/
structure ParseError where
  input : String

def ParseError.message (e : ParseError) : String :=
  "'" ++ e.input ++ "' is not a decimal with at most " ++ toString places ++ " fractional digits"

/-- A leading sign, and what follows it. -/
def takeSign : List Char → Bool × List Char
  | '-' :: rest => (true, rest)
  | '+' :: rest => (false, rest)
  | rest => (false, rest)

/-- The digits before an optional point and those behind it. -/
def parts? (cs : List Char) : Option (List Char × List Char) :=
  let (whole, fraction) := (Text.splitAtFirst '.' cs).getD (cs, [])
  if Numeral.isNumeral whole && fraction.all Char.isDigit && fraction.length ≤ places then
    some (whole, fraction)
  else
    none

/-- The millionths that digits behind the point denote: the places that are left out are zeros. -/
def millionths (fraction : List Char) : Nat :=
  Numeral.value (fraction ++ List.replicate (places - fraction.length) '0')

/-- The decimal of a whole number and the millionths behind it, on the side of zero that the sign
says. -/
def ofParts? (negative : Bool) (whole behind : Nat) : Option Real := do
  let whole ← Int128.ofInt? whole
  let behind ← Int128.ofInt? behind
  let whole ← ofInt? whole
  if negative then
    let whole ← Int128.ofInt? (-whole.scaled.val)
    let scaled ← Int128.ofInt? (whole.val - behind.val)
    return ⟨scaled⟩
  else
    let scaled ← Int128.ofInt? (whole.scaled.val + behind.val)
    return ⟨scaled⟩

/-- The decimal of some characters. -/
def ofChars? (cs : List Char) : Option Real := do
  let (negative, cs) := takeSign (Text.trim cs)
  let (whole, fraction) ← parts? cs
  ofParts? negative (Numeral.value whole) (millionths fraction)

/-- Reads a decimal exactly. -/
def parse (text : String) : Except ParseError Real :=
  match ofChars? text.toList with
  | some r => .ok r
  | none => .error ⟨text⟩

/-! ## 2. Double precision -/

/-- The decimal nearest to a double-precision number, if it is finite and in range. -/
def ofDouble? (bits : UInt64) : Option Real := do
  let negative := Binary64.isNegative bits
  let (num, den) ← Binary64.magnitude? bits
  let (num, den) ← Binary64.magnitude? (Binary64.nearest negative (num * scale) den)
  let size := Binary64.roundUp num den
  if size < 0x80000000000000000000000000000000 then
    let scaled ← Int128.ofInt? (if negative then -(size : Int) else size)
    return ⟨scaled⟩
  else
    none

/-- The bits of the double-precision number that approximates a decimal. -/
def toDouble (r : Real) : UInt64 :=
  let negative := r.scaled.val < 0
  match Binary64.magnitude? (Binary64.nearest negative r.scaled.val.natAbs 1) with
  | some (num, den) => Binary64.nearest negative num (den * scale)
  | none => 0

end Real

end ScriptBundle

/-
# Double-precision numbers as exact fractions

A finite double-precision number is `m * 2 ^ e`, up to its sign, with `m` below `2 ^ 53` and `e`
at least -1074.  `magnitude?` takes the bits of such a number apart, and `nearest` finds the bits
of the one that is nearest to a fraction; of two equally near ones it takes the one whose last bit
is zero.

Both directions are exact arithmetic on whole numbers.  Consecutive bit patterns are consecutive
numbers, so a significand that rounds up to the next power of two needs no special care: adding it
to the exponent's place carries.
-/

namespace ScriptBundle.Binary64

/-- The bit pattern of positive infinity. -/
def infinity : Nat := 0x7FF * 0x10000000000000

def isNegative (bits : UInt64) : Bool := 0x8000000000000000 ≤ bits.toNat

/-- The pattern with the sign put in. -/
def withSign (negative : Bool) (pattern : Nat) : UInt64 :=
  UInt64.ofNat (if negative then 0x8000000000000000 + pattern else pattern)

/-- The size of a finite number as a fraction. -/
def magnitude? (bits : UInt64) : Option (Nat × Nat) :=
  let pattern := bits.toNat % 0x8000000000000000
  let exponent := pattern / 0x10000000000000
  let fraction := pattern % 0x10000000000000
  if exponent = 0x7FF then none
  else
    let m := if exponent = 0 then fraction else 0x10000000000000 + fraction
    let e : Int := (if exponent = 0 then 1 else exponent : Nat) - 1075
    match e with
    | .ofNat e => some (m * Nat.pow 2 e, 1)
    | .negSucc e => some (m, Nat.pow 2 (e + 1))

/-- The whole number nearest to a fraction; of two, the even one. -/
def roundToEven (num den : Nat) : Nat :=
  let q := num / den
  let r := num % den
  if 2 * r < den then q
  else if den < 2 * r then q + 1
  else q + q % 2

/-- The nearest whole number that is a significand of 53 bits times a power of two; of two, the one
whose significand is even. -/
def rounded (n : Nat) : Nat :=
  let unit := Nat.pow 2 (n.log2 - 52)
  roundToEven n unit * unit

/-- The whole number nearest to a fraction; of two, the larger one. -/
def roundUp (num den : Nat) : Nat := (2 * num + den) / (2 * den)

/-- The fraction divided by `2 ^ e`. -/
def scaled (num den : Nat) (e : Int) : Nat × Nat :=
  match e with
  | .ofNat e => (num, den * Nat.pow 2 e)
  | .negSucc e => (num * Nat.pow 2 (e + 1), den)

/-- The least exponent, at least -1074, for which the significand of a fraction stays below
`2 ^ 53`. -/
def exponentOf (num den : Nat) : Int :=
  let guess : Int := (num.log2 : Int) - (den.log2 : Int) - 53
  let (n, d) := scaled num den guess
  max (-1074) (if n / d < 0x20000000000000 then guess else guess + 1)

/-- The bits of the number nearest to a fraction. -/
def nearest (negative : Bool) (num den : Nat) : UInt64 :=
  if num = 0 then withSign negative 0
  else
    let e := exponentOf num den
    let (n, d) := scaled num den e
    let pattern := (e + 1074).toNat * 0x10000000000000 + roundToEven n d
    withSign negative (min pattern infinity)

end ScriptBundle.Binary64

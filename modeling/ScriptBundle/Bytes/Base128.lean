/-
# Numbers in groups of seven bits

A number is written as its base-128 digits, the most significant first, one byte a digit.  Every
byte but the last has its high bit set, so the number shows its own end.

The writer uses as few digits as possible.  The reader takes any number of them, superfluous
leading zeros included, as long as the number stays below `2 ^ 64`.
-/
import ScriptBundle.Bytes

namespace ScriptBundle.Base128

/-- The digits that another one follows. -/
def leading (n : Nat) : Bytes :=
  if n = 0 then [] else leading (n / 128) ++ [UInt8.ofNat (128 + n % 128)]
termination_by n

/-- The shortest form of a number. -/
def encode (n : UInt64) : Bytes := leading (n.toNat / 128) ++ [UInt8.ofNat (n.toNat % 128)]

/-- Why bytes do not start with a number. -/
inductive Error
  /-- The last byte still announces another. -/
  | truncated
  /-- The number does not stay below `2 ^ 64`. -/
  | overflow
deriving DecidableEq, Repr

/-- The number whose leading digits make up `high`, and what follows it. -/
def decodeFrom (high : Nat) : Bytes → Except Error (UInt64 × Bytes)
  | [] => .error .truncated
  | b :: rest =>
    if 0x10000000000000000 ≤ high * 128 then .error .overflow
    else
      let n := high * 128 + b.toNat % 128
      if b < 128 then .ok (UInt64.ofNat n, rest) else decodeFrom n rest

/-- The number at the front, and what follows it. -/
def decode (bytes : Bytes) : Except Error (UInt64 × Bytes) := decodeFrom 0 bytes

end ScriptBundle.Base128

/-
# Numbers in as few bytes as their size asks for

A number up to 250 is one byte.  A larger one is a marker byte, 251 to 254, and then 2, 4, 8 or 16
bytes, least significant first: the fewest that hold it.  A reader that expects a number of some
width also takes a marker that stands for fewer bytes, whether or not fewer still would have done,
but none that stands for more.

Signed numbers are folded into natural ones first, so that small ones stay small: zero and the
positive ones become the even numbers, the negative ones the odd (`zigZag`).
-/
import ScriptBundle.Bytes

namespace ScriptBundle.Varint

/-- The shortest form of a number below `2 ^ 128`. -/
def encode (n : Nat) : Bytes :=
  if n ≤ 250 then [UInt8.ofNat n]
  else if n < 0x10000 then 251 :: Bytes.littleEndian 2 n
  else if n < 0x100000000 then 252 :: Bytes.littleEndian 4 n
  else if n < 0x10000000000000000 then 253 :: Bytes.littleEndian 8 n
  else 254 :: Bytes.littleEndian 16 n

/-- How many bytes follow a marker. -/
def markedWidth? (marker : UInt8) : Option Nat :=
  if marker = 251 then some 2
  else if marker = 252 then some 4
  else if marker = 253 then some 8
  else if marker = 254 then some 16
  else none

/-- A number of at most `width` bytes, and what follows it. -/
def decode? (width : Nat) : Bytes → Option (Nat × Bytes)
  | [] => none
  | first :: rest =>
    if first ≤ 250 then some (first.toNat, rest)
    else do
      let size ← markedWidth? first
      if size ≤ width ∧ size ≤ rest.length then
        some (Bytes.ofLittleEndian (rest.take size), rest.drop size)
      else
        none

/-- The natural number that stands for a signed one. -/
def zigZag : Int → Nat
  | .ofNat n => 2 * n
  | .negSucc n => 2 * n + 1

/-- Different signed numbers are folded differently. -/
theorem zigZag_injective {a b : Int} (h : zigZag a = zigZag b) : a = b := by
  cases a <;> cases b <;> simp only [zigZag] at h <;> first | omega | congr 1; omega

end ScriptBundle.Varint

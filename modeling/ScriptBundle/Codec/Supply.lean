/-
# Taking values apart

Encoding is permissive: bytes may come as hexadecimal text, integers as decimal text.  The
functions here accept every form that stands for the same content.
-/
import ScriptBundle.Codec.Node

namespace ScriptBundle.Codec

/-- The complaint that no value of this kind will do. -/
def unexpected (path : Path) (expected : Expected) (v : Value) : Error :=
  .unexpectedValue path expected v.kindName

/-- Hexadecimal text as bytes. -/
def hexBytes (path : Path) (s : String) : Result Bytes :=
  match Hex.decode s with
  | .ok b => .ok b
  | .error e => .error (.invalidValue path (.notHex s e))

/-- Bytes, raw or as hexadecimal text. -/
def bytesOf (path : Path) (p : Primitive) : Value → Result Bytes
  | .bytes b => .ok b
  | .text s => hexBytes path s
  | v => .error (unexpected path (.primitive p) v)

/-- Bytes of the size that a primitive prescribes. -/
def sizedBytesOf (path : Path) (p : Primitive) (size : Nat) (v : Value) : Result Bytes := do
  sized path p size (← bytesOf path p v)

/-- Decimal text as an integer; white space around it is free. -/
def decimalInt (path : Path) (s : String) : Result Int128 :=
  match Int128.ofChars? (Text.trim s.toList) with
  | some n => .ok n
  | none => .error (.invalidValue path (.notInteger s))

/-- An integer or its decimal text. -/
def intOf (path : Path) (expected : Expected) : Value → Result Int128
  | .int n => .ok n
  | .text s => decimalInt path s
  | v => .error (unexpected path expected v)

/-- A number from 0 below `2 ^ 64`. -/
def wordOf (path : Path) (v : Value) : Result UInt64 := do
  let n ← intOf path .natural v
  match n.toUInt64? with
  | some w => .ok w
  | none => .error (.invalidValue path (.notNatural n))

/-- A field that has to be there. -/
def fieldOf (path : Path) (name : String) (v : Value) : Result Value :=
  match v.field? name with
  | some field => .ok field
  | none => .error (.missingField path name)

end ScriptBundle.Codec

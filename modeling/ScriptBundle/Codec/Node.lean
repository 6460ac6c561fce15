/-
# Taking data nodes apart

Decoding is strict: a node must be of the kind that is asked for, with exactly the fields that are
asked for.  Each function here asks for one shape and says which part of it was missing first:
the kind before the tag, and the tag before the number of fields.

An optional part is a constructor as well: tag 0 with the part as its one field if it is there,
tag 1 without fields if it is not.
-/
import ScriptBundle.Codec.Error

namespace ScriptBundle.Codec

/-- The outcome of encoding or decoding something. -/
abbrev Result (α : Type) := Except Error α

/-! ## 1. One kind -/

def asInt (path : Path) : Data → Result Int128
  | .int n => .ok n
  | d => .error (.kindMismatch path .int d.kind)

def asBytes (path : Path) : Data → Result Bytes
  | .bytes b => .ok b
  | d => .error (.kindMismatch path .bytes d.kind)

def asList (path : Path) : Data → Result (List Data)
  | .list items => .ok items
  | d => .error (.kindMismatch path .list d.kind)

def asMap (path : Path) : Data → Result (List (Data × Data))
  | .map pairs => .ok pairs
  | d => .error (.kindMismatch path .map d.kind)

/-! ## 2. Kind and size -/

/-- A list of exactly `count` items. -/
def asListOf (path : Path) (count : Nat) (d : Data) : Result (List Data) := do
  let items ← asList path d
  if items.length ≠ count then .error (.fieldCount path count items.length) else .ok items

/-- A constructor whose tag is the position of a number of fields, and with that many fields. -/
def asConstr (path : Path) (arities : List Nat) : Data → Result (UInt64 × List Data)
  | .constr tag fields =>
    match arities[tag.toNat]? with
    | none => .error (.tagOutOfRange path tag arities.length)
    | some count =>
      if fields.length ≠ count then .error (.fieldCount path count fields.length)
      else .ok (tag, fields)
  | d => .error (.kindMismatch path .constr d.kind)

/-- Bytes of the size that a primitive prescribes. -/
def sized (path : Path) (p : Primitive) (size : Nat) (b : Bytes) : Result Bytes :=
  if b.length ≠ size then .error (.byteLength path p size b.length) else .ok b

def asSizedBytes (path : Path) (p : Primitive) (size : Nat) (d : Data) : Result Bytes := do
  sized path p size (← asBytes path d)

/-- A number from 0 below `2 ^ 64`. -/
def asWord (path : Path) (d : Data) : Result UInt64 := do
  let n ← asInt path d
  match n.toUInt64? with
  | some w => .ok w
  | none => .error (.invalidData path (.notNatural n))

/-! ## 3. Optional parts -/

/-- The data of an optional part. -/
def optional : Option Data → Data
  | some d => .constr 0 [d]
  | none => .constr 1 []

/-- The part that optional data holds. -/
def asOptional (path : Path) (d : Data) : Result (Option Data) := do
  let (_, fields) ← asConstr path [1, 0] d
  return fields.head?

/-- An optional part is found as it was put in. -/
@[simp] theorem asOptional_optional (path : Path) (d : Option Data) :
    asOptional path (optional d) = .ok d := by
  cases d <;> rfl

/-! ## 4. Walking over lists -/

/-- Converts the items of a list from a position on, each under its own path. -/
def eachFrom (convert : Path → α → Result β) (path : Path) :
    (index : Nat) → List α → Result (List β)
  | _, [] => .ok []
  | index, a :: rest => do
    let b ← convert (.item path index) a
    let bs ← eachFrom convert path (index + 1) rest
    return b :: bs

/-- Converts the items of a list, each under its own path. -/
def each (convert : Path → α → Result β) (path : Path) (items : List α) : Result (List β) :=
  eachFrom convert path 0 items

end ScriptBundle.Codec

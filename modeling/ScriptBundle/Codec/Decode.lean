/-
# Decoding data

Data is decoded along its schema, and only data of exactly that shape is accepted: the right kind
of node everywhere, a tag that belongs to a variant, as many items as the schema has.  The value
that comes out has one form: records and variants list their fields in the order of the schema,
options say whether they are there.

A record of one field is not wrapped, as it is not when it is encoded.
-/
import ScriptBundle.Codec.Primitive

namespace ScriptBundle.Codec

/-- A key and its value, each by its own rule and under the same path. -/
def decodePair (key value : Path → Data → Result Value) (path : Path) (pair : Data × Data) :
    Result (Value × Value) := do
  let k ← key path pair.1
  let v ← value path pair.2
  return (k, v)

mutual
/-- The value of data at a place. -/
def decodeAt (network : Network) : Schema → Path → Data → Result Value
  | .primitive p, path, d => p.decode network path d
  | .list item, path, d => do
    let items ← asList path d
    return .list (← each (decodeAt network item) path items)
  | .map key value, path, d => do
    let pairs ← asMap path d
    return .map (← each (decodePair (decodeAt network key) (decodeAt network value)) path pairs)
  | .option inner, path, d => do
    match ← asOptional path d with
    | some d => return .present (← decodeAt network inner path d)
    | none => return .absent
  | .tuple items, path, d => do
    let ds ← asListOf path items.length d
    return .list (← decodeItems network items path 0 ds)
  | .record [⟨name, s⟩], path, d => do
    let v ← decodeAt network s (.field path name) d
    return .record [(name, v)]
  | .record fields, path, d => do
    let ds ← asListOf path fields.length d
    return .record (← decodeFields network fields path ds)
  | .enum variants, path, d => do
    let (tag, ds) ← asConstr path (variants.map (·.fields.length)) d
    decodeVariant network variants path tag.toNat ds
termination_by structural s => s

/-- The items of a tuple, from a position on. -/
def decodeItems (network : Network) :
    List Schema → Path → (index : Nat) → List Data → Result (List Value)
  | s :: items, path, index, d :: ds => do
    let v ← decodeAt network s (.item path index) d
    let vs ← decodeItems network items path (index + 1) ds
    return v :: vs
  | _, _, _, _ => .ok []
termination_by structural items => items

/-- The named fields of a record or variant. -/
def decodeFields (network : Network) :
    List (Field Schema) → Path → List Data → Result (List (String × Value))
  | ⟨name, s⟩ :: fields, path, d :: ds => do
    let v ← decodeAt network s (.field path name) d
    let vs ← decodeFields network fields path ds
    return (name, v) :: vs
  | _, _, _ => .ok []
termination_by structural fields => fields

/-- The variant at some position. -/
def decodeVariant (network : Network) :
    List (Variant Schema) → Path → (position : Nat) → List Data → Result Value
  | [], path, position, _ => .error (.tagOutOfRange path (UInt64.ofNat position) 0)
  | ⟨name, _, fields⟩ :: _, path, 0, ds => do
    return .variant name (← decodeFields network fields (.field path name) ds)
  | _ :: variants, path, position + 1, ds => decodeVariant network variants path position ds
termination_by structural variants => variants
end

/-- The value of data. -/
def decode (network : Network) (s : Schema) (d : Data) : Result Value := decodeAt network s .top d

end ScriptBundle.Codec

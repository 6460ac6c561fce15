/-
# Values

A value is what a caller hands over to be encoded and what it gets back decoded.  Several values
may encode alike: a hash may be given as bytes or as hexadecimal text, a record by name or by
position.  Decoding always gives the same one of them, which the codec's own modules spell out.
-/
import ScriptBundle.Real
import ScriptBundle.Address
import ScriptBundle.Data

namespace ScriptBundle

/-- A value on the caller's side. -/
inductive Value
  | bool (b : Bool)
  | int (n : Int128)
  | real (r : Real)
  | bytes (b : Bytes)
  | text (s : String)
  | list (items : List Value)
  | map (pairs : List (Value × Value))
  | absent
  | present (v : Value)
  | record (fields : List (String × Value))
  | variant (name : String) (fields : List (String × Value))
  | address (a : Address)
  /-- Data that is already encoded. -/
  | data (d : Data)
deriving Inhabited

namespace Value

/-- The kind of a value in one word. -/
def kindName : Value → String
  | .bool _ => "bool"
  | .int _ => "int"
  | .real _ => "real"
  | .bytes _ => "bytes"
  | .text _ => "text"
  | .list _ => "list"
  | .map _ => "map"
  | .absent => "option"
  | .present _ => "option"
  | .record _ => "record"
  | .variant _ _ => "variant"
  | .address _ => "address"
  | .data _ => "data"

/-- The first entry of a name. -/
def entry? (name : String) (entries : List (String × Value)) : Option Value :=
  (entries.find? (·.1 = name)).map (·.2)

/-- The field of a record or variant with some name; the first, if several have it. -/
def field? (v : Value) (name : String) : Option Value :=
  match v with
  | .record fields => entry? name fields
  | .variant _ fields => entry? name fields
  | _ => none

end Value

end ScriptBundle

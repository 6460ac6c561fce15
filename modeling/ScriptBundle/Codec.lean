/-
# Codecs

A codec is a schema bound to the network it is used on.  The schema is known to be well formed, so
that names address one field each and tags one variant each.
-/
import ScriptBundle.Codec.Encode
import ScriptBundle.Codec.Decode
import ScriptBundle.Schema.WellFormed

namespace ScriptBundle

/-- A well-formed schema on a network. -/
structure Codec where
  schema : Schema
  network : Network
  check_schema : schema.check = .ok ()

namespace Codec

/-- Binds a schema to a network, if it is well formed. -/
def ofSchema (schema : Schema) (network : Network) : Except Schema.Defect Codec :=
  match h : schema.check with
  | .ok () => .ok ⟨schema, network, h⟩
  | .error e => .error e

/-- The data of a value. -/
def dataOf (c : Codec) (v : Value) : Result Data := encode c.network c.schema v

/-- The value of data. -/
def valueOf (c : Codec) (d : Data) : Result Value := decode c.network c.schema d

end Codec

end ScriptBundle

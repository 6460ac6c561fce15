/-
# The key of a build

Two builds have the same key when nothing that can change their outcome differs.  All of it is
written into one byte string, the key's stream, and the digest of that is the key.

The order of declarations does not count: validators, modules, parameters and the lists of names
inside a validator are written in the order of their names.  In the stream everything of variable
size has its size or its count in front, and an absent schema is told from a present one, so the
stream can be read back and no two inputs run together.
-/
import ScriptBundle.Digest
import ScriptBundle.Schema.Document
import ScriptBundle.Data.Binary

namespace ScriptBundle

/-- What a validator's declaration contributes to the key. -/
structure ValidatorKey where
  name : String
  source : String
  purpose : String
  modules : List String
  hashDependencies : List String
  dependsOnOwnHash : Bool
  redeemer : Schema
  datum : Option Schema

/-- Everything that the key of a build covers. -/
structure KeyInputs where
  compilerVersion : String
  debug : Bool
  mainnet : Bool
  validators : List ValidatorKey
  /-- Names and sources. -/
  modules : List (String × String)
  parameters : List (String × Data)

namespace KeyInputs

/-- The items in the order of their names; items of one name keep their order. -/
def byName (name : α → String) (items : List α) : List α :=
  items.mergeSort fun a b => name a ≤ name b

/-- A count, and then each item. -/
def counted (write : α → Bytes) (items : List α) : Bytes :=
  Feed.count items.length ++ items.flatMap write

/-- A schema, as its JSON text. -/
def schemaStream (s : Schema) : Bytes := Feed.text s.toJson

/-- A schema that may be absent. -/
def optionalSchemaStream : Option Schema → Bytes
  | none => Feed.flag false
  | some s => Feed.flag true ++ schemaStream s

def validatorStream (v : ValidatorKey) : Bytes :=
  Feed.text v.name ++ Feed.text v.source ++ Feed.text v.purpose
    ++ counted Feed.text (byName id v.modules)
    ++ counted Feed.text (byName id v.hashDependencies)
    ++ Feed.flag v.dependsOnOwnHash
    ++ schemaStream v.redeemer ++ optionalSchemaStream v.datum

def moduleStream (m : String × String) : Bytes := Feed.text m.1 ++ Feed.text m.2

def parameterStream (p : String × Data) : Bytes := Feed.text p.1 ++ Feed.bytes p.2.toBinary

/-- The bytes that the key is the digest of. -/
def stream (i : KeyInputs) : Bytes :=
  Feed.text i.compilerVersion ++ Feed.flag i.debug ++ Feed.flag i.mainnet
    ++ counted validatorStream (byName (·.name) i.validators)
    ++ counted moduleStream (byName (·.1) i.modules)
    ++ counted parameterStream (byName (·.1) i.parameters)

/-- The key of a build. -/
def key (i : KeyInputs) : Digest := Digest.ofContent i.stream

end KeyInputs

end ScriptBundle

/-
# Well-formed schemas

A schema is well formed when the names of the fields of any one record or variant are distinct,
the names of the variants of any one enumeration are distinct, and every variant carries its
position as its tag.  What is exchanged under such a schema can be addressed by name without
ambiguity and read by tag.

`Schema.check` walks the schema from left to right, outside in, and reports the first defect it
meets.  At a field the name is looked at before the field's own schema, and at a variant first the
name, then the tag, then the fields.
-/
import ScriptBundle.Schema

namespace ScriptBundle.Schema

/-- What can be wrong with a schema. -/
inductive Defect
  /-- Two fields of one record or variant share a name. -/
  | duplicateField (name : String)
  /-- Two variants of one enumeration share a name. -/
  | duplicateVariant (name : String)
  /-- A variant's tag is not its position. -/
  | tagMismatch (variant : String) (expected actual : UInt64)
deriving DecidableEq

/-- The defect in words. -/
def Defect.message : Defect → String
  | .duplicateField name => "duplicate field '" ++ name ++ "'"
  | .duplicateVariant name => "duplicate variant '" ++ name ++ "'"
  | .tagMismatch variant expected actual =>
    "variant '" ++ variant ++ "' has tag " ++ toString actual.toNat ++ ", expected "
      ++ toString expected.toNat

mutual
/-- Succeeds on a well-formed schema, and otherwise reports its first defect. -/
def check : Schema → Except Defect Unit
  | .primitive _ => .ok ()
  | .list item => check item
  | .map key value => do check key; check value
  | .option inner => check inner
  | .tuple items => checkAll items
  | .record fields => checkFields [] fields
  | .enum variants => checkVariants [] 0 variants

def checkAll : List Schema → Except Defect Unit
  | [] => .ok ()
  | s :: rest => do check s; checkAll rest

/-- Checks fields whose names may not be among those already `seen`. -/
def checkFields (seen : List String) : List (Field Schema) → Except Defect Unit
  | [] => .ok ()
  | ⟨name, s⟩ :: rest =>
    if name ∈ seen then .error (.duplicateField name)
    else do check s; checkFields (name :: seen) rest

/-- Checks variants from a position on, whose names may not be among those already `seen`. -/
def checkVariants (seen : List String) (position : Nat) : List (Variant Schema) → Except Defect Unit
  | [] => .ok ()
  | ⟨name, tag, fields⟩ :: rest =>
    if name ∈ seen then .error (.duplicateVariant name)
    else if tag.toNat ≠ position then
      .error (.tagMismatch name (UInt64.ofNat position) tag)
    else do checkFields [] fields; checkVariants (name :: seen) (position + 1) rest
end

end ScriptBundle.Schema

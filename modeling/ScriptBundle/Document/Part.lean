/-
# Parts of records

A part of a record has to be there, has a default, or may be absent; and it may be a table with an
entry for every name of some kind.  This is how such parts are written into documents and read from
them.
-/
import ScriptBundle.Document
import ScriptBundle.NameMap

namespace ScriptBundle.Document

/-! ## 1. Writing -/

/-- An entry for a part that may be absent. -/
def entryOf (name : String) (write : α → Document) : Option α → List (String × Document)
  | some a => [(name, write a)]
  | none => []

/-- A table with an entry for every name. -/
def ofNameMap (write : α → Document) (m : NameMap α) : Document :=
  .ofEntries (m.entries.map fun (name, a) => (name, write a))

/-! ## 2. Reading -/

/-- A part that has to be there. -/
def required? (read : Document → Option α) : Option Document → Option α
  | some d => read d
  | none => none

/-- A part that has a default. -/
def defaulted? (default : α) (read : Document → Option α) : Option Document → Option α
  | some d => read d
  | none => some default

/-- A table of entries that are all read alike. -/
def nameMap? (read : Document → Option α) (d : Document) : Option (NameMap α) := do
  let entries ← d.entries?
  let entries ← entries.mapM fun (name, d) => (read d).map (name, ·)
  return NameMap.ofList entries

end ScriptBundle.Document

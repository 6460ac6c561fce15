/-
# Schemas in documents

A schema is a table whose entry `kind` names its shape and whose other entries are the parts of
that shape.  It may also be given as a list: the kind first, then the parts in their order.

A schema is kept as a document before its kind is known, so everything in it has to be plain, also
the entries that no shape asks for.  The schemas inside it are then read from what was kept, and
there some formats also allow a kind to be given by its number; whether they do is the parameter
`byNumber`.
-/
import ScriptBundle.Schema
import ScriptBundle.Json

namespace ScriptBundle

/-! ## 1. Primitives -/

/-- A primitive is its keyword, or a table with the keyword as its one name and nothing behind. -/
def Primitive.ofDocument? : Document → Option Primitive
  | .text (some s) => ofKeyword? s
  | .table [(some s, .null)] => ofKeyword? s
  | .table [(some s, .table [])] => ofKeyword? s
  | _ => none

namespace Schema

/-! ## 2. Kinds -/

/-- The seven shapes. -/
inductive Kind
  | primitive
  | list
  | map
  | option
  | tuple
  | record
  | enum
deriving DecidableEq

namespace Kind

/-- The shapes by number. -/
def all : List Kind := [.primitive, .list, .map, .option, .tuple, .record, .enum]

/-- The name of a shape in documents. -/
def keyword : Kind → String
  | .primitive => "primitive"
  | .list => "list"
  | .map => "map"
  | .option => "option"
  | .tuple => "tuple"
  | .record => "struct"
  | .enum => "enum"

/-- The names of the parts of a shape, in their order. -/
def parts : Kind → List String
  | .primitive => ["primitive"]
  | .list => ["item"]
  | .map => ["key", "value"]
  | .option => ["some"]
  | .tuple => ["items"]
  | .record => ["fields"]
  | .enum => ["variants"]

/-- A shape is given by its name and, where allowed, by its number. -/
def ofDocument? (byNumber : Bool) : Document → Option Kind
  | .text (some s) => all.find? (·.keyword = s)
  | .number n => if byNumber then n.natural?.bind (all[·]?) else none
  | _ => none

@[simp] theorem ofDocument?_keyword (byNumber : Bool) (k : Kind) :
    ofDocument? byNumber (.ofText k.keyword) = some k := by
  cases k <;> rfl

end Kind

/-! ## 3. Writing -/

/-- A schema of some shape, given the parts of the shape. -/
def shaped (k : Kind) (contents : List Document) : Document :=
  .ofEntries (("kind", .ofText k.keyword) :: k.parts.zip contents)

mutual
/-- The document of a schema. -/
def toDocument : Schema → Document
  | .primitive p => shaped .primitive [.ofText p.keyword]
  | .list item => shaped .list [toDocument item]
  | .map key value => shaped .map [toDocument key, toDocument value]
  | .option inner => shaped .option [toDocument inner]
  | .tuple items => shaped .tuple [.list (toDocuments items)]
  | .record fields => shaped .record [.list (fieldDocuments fields)]
  | .enum variants => shaped .enum [.list (variantDocuments variants)]

def toDocuments : List Schema → List Document
  | [] => []
  | s :: rest => toDocument s :: toDocuments rest

def fieldDocuments : List (Field Schema) → List Document
  | [] => []
  | ⟨name, s⟩ :: rest =>
    .ofEntries [("name", .ofText name), ("type", toDocument s)] :: fieldDocuments rest

def variantDocuments : List (Variant Schema) → List Document
  | [] => []
  | ⟨name, tag, fields⟩ :: rest =>
    .ofEntries [("name", .ofText name), ("tag", .ofNat tag.toNat),
      ("fields", .list (fieldDocuments fields))] :: variantDocuments rest
end

/-- The JSON text of a schema. -/
def toJson (s : Schema) : String := Json.write s.toDocument

/-! ## 4. Reading -/

/-- The kind of a schema and the document of its parts. -/
def kindAndParts? : Document → Option (Document × Document)
  | .table entries =>
    match Document.given "kind" entries with
    | [kind] => some (kind, .table (entries.filter (·.1 ≠ some "kind")))
    | _ => none
  | .list (kind :: rest) => some (kind, .list rest)
  | _ => none

/-- A field, its type read by `read`. -/
def fieldOf? (read : Document → Option Schema) (d : Document) : Option (Field Schema) := do
  let [some name, some type] ← d.parts? ["name", "type"] | none
  let name ← name.text?
  let type ← read type
  return ⟨name, type⟩

def fieldsOf? (read : Document → Option Schema) (d : Document) : Option (List (Field Schema)) :=
  d.list?.bind fun items => items.mapM (fieldOf? read)

/-- A variant, the types of its fields read by `read`. -/
def variantOf? (read : Document → Option Schema) (d : Document) : Option (Variant Schema) := do
  let [some name, some tag, some fields] ← d.parts? ["name", "tag", "fields"] | none
  let name ← name.text?
  let tag ← tag.word?
  let fields ← fieldsOf? read fields
  return ⟨name, tag, fields⟩

/-- A schema of a known shape, the schemas inside it read by `read`. -/
def ofParts? (read : Document → Option Schema) (k : Kind) (d : Document) : Option Schema := do
  match k, ← d.parts? k.parts with
  | .primitive, [some p] => return .primitive (← Primitive.ofDocument? p)
  | .list, [some item] => return .list (← read item)
  | .map, [some key, some value] =>
    let key ← read key
    let value ← read value
    return .map key value
  | .option, [some inner] => return .option (← read inner)
  | .tuple, [some items] => return .tuple (← (← items.list?).mapM read)
  | .record, [some fields] => return .record (← fieldsOf? read fields)
  | .enum, [some variants] => return .enum (← (← variants.list?).mapM (variantOf? read))
  | _, _ => none

/-- One level of a schema. -/
def level? (byNumber : Bool) (read : Document → Option Schema) (d : Document) : Option Schema := do
  let (kind, parts) ← kindAndParts? d
  ofParts? read (← Kind.ofDocument? byNumber kind) parts

/-- A schema inside another one, of at most `depth` levels. -/
def inner? (byNumber : Bool) : (depth : Nat) → Document → Option Schema
  | 0, _ => none
  | depth + 1, d => level? byNumber (inner? byNumber depth) d

/-- The schema of a document. -/
def ofDocument? (byNumber : Bool) (d : Document) : Option Schema :=
  level? false (inner? byNumber d.nesting) d

/-- The schema of a part of a text, in which at most `depth` lists and tables enclose one
another. -/
def ofJsonDocument? (depth : Nat) (d : Document) : Option Schema :=
  if d.isPlain depth then ofDocument? true d else none

end Schema

end ScriptBundle

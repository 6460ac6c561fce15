/-
# Data trees as JSON

A tree is written as a table with one entry whose name tells the kind of the root and whose value
holds its content.  Byte strings are lists of numbers, pairs are lists of two, and a constructor
is a record of its tag and its fields.

A tree read from a text may not nest more than 127 lists and tables of the text (`textDepth`).
The bound is on the text, and one node of a tree takes up to three levels of it, so `ofDocument?`
counts the levels down as it enters them; the count also bounds its recursion.
-/
import ScriptBundle.Data
import ScriptBundle.Json

namespace ScriptBundle

/-- How many lists and tables may enclose one another in a text that is read into a typed value. -/
def Document.textDepth : Nat := 127

namespace Data

/-! ## 1. Writing -/

mutual
/-- The document of a tree. -/
def toDocument : Data → Document
  | .int n => .ofEntries [("Int", .ofInt n.val)]
  | .bytes b => .ofEntries [("Bytes", .list (b.map fun x => .ofNat x.toNat))]
  | .list items => .ofEntries [("List", .list (toDocuments items))]
  | .map pairs => .ofEntries [("Map", .list (pairDocuments pairs))]
  | .constr tag fields =>
    .ofEntries [("Constr",
      .ofEntries [("tag", .ofNat tag.toNat), ("fields", .list (toDocuments fields))])]

def toDocuments : List Data → List Document
  | [] => []
  | d :: rest => toDocument d :: toDocuments rest

def pairDocuments : List (Data × Data) → List Document
  | [] => []
  | (k, v) :: rest => .list [toDocument k, toDocument v] :: pairDocuments rest
end

/-- The JSON text of a tree. -/
def toJson (d : Data) : String := Json.write d.toDocument

/-! ## 2. Reading -/

/-- A number from 0 to 255. -/
def byteOf? : Document → Option UInt8
  | .number n => n.natural?.bind fun k => if k < 256 then some (UInt8.ofNat k) else none
  | _ => none

/-- A list of two, each part read by `read`. -/
def pairOf? (read : Document → Option Data) : Document → Option (Data × Data)
  | .list [k, v] => do
    let k ← read k
    let v ← read v
    return (k, v)
  | _ => none

/-- The tree of a document in which at most `depth` lists and tables enclose one another. -/
def ofDocument? : (depth : Nat) → Document → Option Data
  | _ + 1, .table [(some "Int", .number n)] => (n.integer?.bind Int128.ofInt?).map .int
  | _ + 2, .table [(some "Bytes", .list items)] => (items.mapM byteOf?).map .bytes
  | depth + 2, .table [(some "List", .list items)] => (items.mapM (ofDocument? depth)).map .list
  | 2, .table [(some "Map", .list [])] => some (.map [])
  | depth + 3, .table [(some "Map", .list items)] =>
    (items.mapM (pairOf? (ofDocument? depth))).map .map
  | depth + 3, .table [(some "Constr", content)] => do
    let [some tag, some fields] ← content.parts? ["tag", "fields"] | none
    let tag ← tag.word?
    let items ← fields.list?
    let fields ← items.mapM (ofDocument? depth)
    return .constr tag fields
  | _, _ => none

/-- The tree of a JSON text. -/
def ofJson? (text : String) : Option Data := (Json.read text).bind (ofDocument? Document.textDepth)

end Data

end ScriptBundle

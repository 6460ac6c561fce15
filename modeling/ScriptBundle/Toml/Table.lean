/-
# Tables in TOML

A TOML text builds its tables piece by piece: a header opens a table or a further item of a list of
tables, and keys with dots reach into tables inside the open one.  What may still be added to a
table depends on how it came about (`Origin`).  A table that a header has opened is not opened
again, and is not reached into by dots from outside; one that dots have made is not opened by a
header; one that a header has only led through may still be opened.  No name is given twice.

A value is closed: nothing is added to a table that is written as a value.
-/
import ScriptBundle.Document

namespace ScriptBundle.Toml

/-- How a table came about. -/
inductive Origin
  /-- A header has opened it. -/
  | opened
  /-- A header has led through it. -/
  | passed
  /-- A key with dots has reached into it. -/
  | dotted
deriving DecidableEq

/-- What a name stands for in a table that may still grow. -/
inductive Node
  | value (d : Document)
  | table (origin : Origin) (entries : List (String × Node))
  /-- A list of tables, of which the last may still grow. -/
  | tables (items : List (List (String × Node)))
deriving Inhabited

/-- The content of a table that may still grow. -/
abbrev Entries := List (String × Node)

namespace Entries

/-- The entries with what a name stands for replaced. -/
def replace (name : String) (n : Node) (entries : Entries) : Entries :=
  entries.map fun e => if e.1 = name then (name, n) else e

/-- The entries with another one behind them. -/
def add (name : String) (n : Node) (entries : Entries) : Entries := entries ++ [(name, n)]

/-- The entries with the last table of a list changed. -/
def changeLast (name : String) (items : List Entries) (change : Entries → Option Entries)
    (entries : Entries) : Option Entries := do
  let last ← items.getLast?
  let changed ← change last
  return entries.replace name (.tables (items.dropLast ++ [changed]))

/-- Gives a value to the name at the end of a path. -/
def define (name : String) (d : Document) : (path : List String) → Entries → Option Entries
  | [], entries =>
    match entries.lookup name with
    | none => some (entries.add name (.value d))
    | some _ => none
  | first :: path, entries =>
    match entries.lookup first with
    | none => do return entries.add first (.table .dotted (← define name d path []))
    | some (.table .dotted inside) => do
      return entries.replace first (.table .dotted (← define name d path inside))
    | some (.table .passed inside) =>
      if path = [] then none
      else do return entries.replace first (.table .passed (← define name d path inside))
    | some (.tables items) =>
      if path = [] then none else entries.changeLast first items (define name d path)
    | some _ => none

/-- Changes the table that a path of headers leads to. -/
def change (f : Entries → Option Entries) : (path : List String) → Entries → Option Entries
  | [], entries => f entries
  | first :: path, entries =>
    match entries.lookup first with
    | none => do return entries.add first (.table .passed (← change f path []))
    | some (.table origin inside) => do
      return entries.replace first (.table origin (← change f path inside))
    | some (.tables items) => entries.changeLast first items (change f path)
    | some (.value _) => none

/-- Opens a table. -/
def openTable (name : String) (entries : Entries) : Option Entries :=
  match entries.lookup name with
  | none => some (entries.add name (.table .opened []))
  | some (.table .passed inside) => some (entries.replace name (.table .opened inside))
  | some _ => none

/-- Opens a further table of a list. -/
def openItem (name : String) (entries : Entries) : Option Entries :=
  match entries.lookup name with
  | none => some (entries.add name (.tables [[]]))
  | some (.tables items) => some (entries.replace name (.tables (items ++ [[]])))
  | some _ => none

end Entries

mutual
/-- What a name stands for when nothing will be added any more. -/
def Node.toDocument : Node → Document
  | .value d => d
  | .table _ entries => .table (entriesDocuments entries)
  | .tables items => .list (itemDocuments items)

def entriesDocuments : List (String × Node) → List (Option String × Document)
  | [] => []
  | (name, n) :: rest => (some name, n.toDocument) :: entriesDocuments rest

def itemDocuments : List (List (String × Node)) → List Document
  | [] => []
  | entries :: rest => .table (entriesDocuments entries) :: itemDocuments rest
end

/-- A table to which nothing will be added any more. -/
def Entries.toDocument (entries : Entries) : Document := .table (entriesDocuments entries)

end ScriptBundle.Toml

/-
# Documents

A document is what a text in one of the structured formats denotes, before anyone has asked what
it means: truth values, numbers, texts, lists and tables, nested at will.  Records, schemas and
configurations are all read from documents, so what they share about reading is said here:

* a record may be given as a table, in any order and with entries nobody asked for, or as the
  list of its parts in their declared order (`Document.parts?`);
* a number is kept as it is written (`Number`), because whether it is a whole number is decided by
  its spelling and not by its value;
* an entry nobody asked for is not examined, so a document may hold what no reader would take: a
  number beyond every range, or a text that is no text because one of its escapes is half of a
  pair.  The second kind is a text without a value (`text none`).  A reader that has to keep a
  part of a document for later asks for `isPlain`, which excludes both and bounds the nesting.
  It approximates numbers while it goes over the digits (`Number.hasProduct`).
-/
import ScriptBundle.Number

namespace ScriptBundle

/-! ## 1. Documents -/

/-- What a structured text denotes. -/
inductive Document
  | null
  | bool (b : Bool)
  | number (n : Number)
  | text (s : Option String)
  | list (items : List Document)
  | table (entries : List (Option String × Document))
deriving Inhabited

namespace Document

/-- A text that is well formed. -/
def ofText (s : String) : Document := .text (some s)

def ofNat (n : Nat) : Document := .number (.whole false n)

def ofInt (z : Int) : Document := .number (.ofInt z)

/-- A table with well-formed names. -/
def ofEntries (entries : List (String × Document)) : Document :=
  .table (entries.map fun (name, d) => (some name, d))

def text? : Document → Option String
  | .text s => s
  | _ => none

def bool? : Document → Option Bool
  | .bool b => some b
  | _ => none

def list? : Document → Option (List Document)
  | .list items => some items
  | _ => none

/-- A whole number from 0 below `2 ^ 64`. -/
def word? : Document → Option UInt64
  | .number n =>
    n.natural?.bind fun k => if k < 0x10000000000000000 then some (UInt64.ofNat k) else none
  | _ => none

mutual
/-- A document that can be kept and read later: its numbers have finite approximations, its texts
are texts, and no more than `depth` lists and tables enclose one another. -/
def isPlain (depth : Nat) : Document → Bool
  | .null => true
  | .bool _ => true
  | .number n => n.hasProduct
  | .text s => s.isSome
  | .list items => 0 < depth && arePlain (depth - 1) items
  | .table entries => 0 < depth && haveAllPlain (depth - 1) entries

/-- Every document of a list can be kept. -/
def arePlain (depth : Nat) : List Document → Bool
  | [] => true
  | d :: rest => isPlain depth d && arePlain depth rest

/-- Every entry of a table can be kept. -/
def haveAllPlain (depth : Nat) : List (Option String × Document) → Bool
  | [] => true
  | (name, d) :: rest => name.isSome && isPlain depth d && haveAllPlain depth rest
end

mutual
/-- How many lists and tables enclose one another at most. -/
def nesting : Document → Nat
  | .list items => nestingAll items + 1
  | .table entries => nestingEntries entries + 1
  | _ => 0

def nestingAll : List Document → Nat
  | [] => 0
  | d :: rest => max (nesting d) (nestingAll rest)

def nestingEntries : List (Option String × Document) → Nat
  | [] => 0
  | (_, d) :: rest => max (nesting d) (nestingEntries rest)
end

/-! ## 2. Records -/

/-- The documents that a table gives to a name. -/
def given (name : String) (entries : List (Option String × Document)) : List Document :=
  entries.filterMap fun (key, d) => if key = some name then some d else none

/-- The parts of a record with the given names.  A table may hold them in any order, each at most
once, beside entries of other names; a list holds the first of them in order and nothing else. -/
def parts? (names : List String) : Document → Option (List (Option Document))
  | .table entries =>
    if entries.all (·.1.isSome) then
      names.mapM fun name =>
        match given name entries with
        | [] => some none
        | [d] => some (some d)
        | _ => none
    else
      none
  | .list items =>
    if items.length ≤ names.length then
      some (items.map some ++ List.replicate (names.length - items.length) none)
    else
      none
  | _ => none

/-- The entries of a table whose names stand for themselves; of two entries of one name the later
one holds. -/
def entries? : Document → Option (List (String × Document))
  | .table entries => entries.mapM fun (key, d) => key.map (·, d)
  | _ => none

/-- A part that may be missing or null. -/
def optional? (read : Document → Option α) : Option Document → Option (Option α)
  | none => some none
  | some .null => some none
  | some d => (read d).map some

end Document

end ScriptBundle

/-
# TOML texts

`Toml.read` gives the document of a TOML text.  It goes two ways one after the other: first the
text is read as a list of statements (`Statement`), each a header or a key with its value, and
then the statements build the tables.

Lists and tables inside one another, and names in one key, are bounded in number: fewer than
eighty of either.  What a reader's recursion is bounded by is the length of the text, since every
call but one in two takes a character.
-/
import ScriptBundle.Toml.Scalar
import ScriptBundle.Toml.Table

namespace ScriptBundle.Toml

/-! ## 1. Keys -/

/-- A character of a name that needs no quotation marks. -/
def isBare (c : Char) : Bool := c.isAlphanum || c = '_' || c = '-'

/-- A name in a key. -/
def name (cs : List Char) : Option (String × List Char) :=
  match cs with
  | '"' :: _ | '\'' :: _ => (shortString cs).map fun (s, rest) => (String.ofList s, rest)
  | _ =>
    let bare := cs.takeWhile isBare
    if bare = [] then none else some (String.ofList bare, cs.dropWhile isBare)

/-- The names of a key, between which stand dots. -/
def names : (fuel : Nat) → List Char → Option (List String × List Char)
  | 0, _ => none
  | fuel + 1, cs => do
    let (first, cs) ← name (skipBlanks cs)
    match skipBlanks cs with
    | '.' :: rest =>
      let (others, rest) ← names fuel rest
      return (first :: others, rest)
    | rest => return ([first], rest)

/-- What lists and tables inside one another, and names in one key, are fewer than. -/
def nestingLimit : Nat := 80

/-- A key: the path to a table and a name in it. -/
structure Key where
  path : List String
  name : String

/-- A key, and what follows the blanks behind it. -/
def key (cs : List Char) : Option (Key × List Char) := do
  let (all, rest) ← names (cs.length + 1) cs
  if nestingLimit ≤ all.length then none
  else return (⟨all.dropLast, ← all.getLast?⟩, rest)

/-- What follows an equals sign and blanks. -/
def afterEquals : List Char → Option (List Char)
  | '=' :: rest => some (skipBlanks rest)
  | _ => none

/-! ## 2. Values -/

mutual
/-- A value, inside which there may be `depth` more lists and tables around one another. -/
def value (depth : Nat) : (fuel : Nat) → List Char → Option (Document × List Char)
  | 0, _ => none
  | fuel + 1, cs =>
    match cs with
    | '[' :: rest =>
      if depth = 0 then none
      else do
        let (items, rest) ← items (depth - 1) fuel (skipFill false rest)
        return (.list items, rest)
    | '\x7b' :: rest =>
      if depth = 0 then none
      else
        match skipBlanks rest with
        | '\x7d' :: rest => some (.table [], rest)
        | rest => do
          let (entries, rest) ← entries (depth - 1) fuel [] rest
          return (entries.toDocument, rest)
    | 't' :: 'r' :: 'u' :: 'e' :: rest => some (.bool true, rest)
    | 'f' :: 'a' :: 'l' :: 's' :: 'e' :: rest => some (.bool false, rest)
    | '"' :: _ => (string cs).map fun (s, rest) => (.ofText (String.ofList s), rest)
    | '\'' :: _ => (string cs).map fun (s, rest) => (.ofText (String.ofList s), rest)
    | cs => scalar cs

/-- The items of a list up to its end. -/
def items (depth : Nat) : (fuel : Nat) → List Char → Option (List Document × List Char)
  | 0, _ => none
  | fuel + 1, cs =>
    match cs with
    | ']' :: rest => some ([], rest)
    | cs => do
      let (d, rest) ← value depth fuel cs
      match skipFill false rest with
      | ',' :: rest =>
        let (ds, rest) ← items depth fuel (skipFill false rest)
        return (d :: ds, rest)
      | ']' :: rest => return ([d], rest)
      | _ => none

/-- The entries of a table that is a value, up to its end, behind others. -/
def entries (depth : Nat) : (fuel : Nat) → Entries → List Char → Option (Entries × List Char)
  | 0, _, _ => none
  | fuel + 1, before, cs => do
    let (k, cs) ← key cs
    let cs ← afterEquals cs
    let (d, cs) ← value depth fuel cs
    let here ← before.define k.name d k.path
    match skipBlanks cs with
    | ',' :: rest => entries depth fuel here rest
    | '\x7d' :: rest => return (here, rest)
    | _ => none
end

/-! ## 3. Statements -/

inductive Statement
  | entry (key : Key) (value : Document)
  | table (key : Key)
  /-- A further table of a list. -/
  | item (key : Key)

/-- A statement that does not start with a blank or the end of the line. -/
def statement (fuel : Nat) (cs : List Char) : Option (Statement × List Char) :=
  match cs with
  | '[' :: '[' :: rest => do
    let (k, rest) ← key rest
    match rest with
    | ']' :: ']' :: rest => return (.item k, rest)
    | _ => none
  | '[' :: rest => do
    let (k, rest) ← key rest
    match rest with
    | ']' :: rest => return (.table k, rest)
    | _ => none
  | cs => do
    let (k, rest) ← key cs
    let rest ← afterEquals rest
    let (d, rest) ← value (nestingLimit - 1) fuel rest
    return (.entry k d, rest)

/-- The statements of a text, at most one a line. -/
def statements : (fuel : Nat) → List Char → Option (List Statement)
  | 0, _ => none
  | fuel + 1, cs =>
    match skipBlanks cs with
    | [] => some []
    | cs =>
      match endOfLine cs with
      | some rest => statements fuel rest
      | none => do
        let (s, rest) ← statement (2 * cs.length + 1) cs
        let rest ← endOfLine rest
        return s :: (← statements fuel rest)

/-! ## 4. Documents -/

/-- The tables of a text, and the path of the open one. -/
structure Progress where
  path : List String
  entries : Entries

/-- Goes on by a statement. -/
def Progress.step (p : Progress) : Statement → Option Progress
  | .entry k d => do
    return ⟨p.path, ← p.entries.change (Entries.define k.name d k.path) p.path⟩
  | .table k => do
    return ⟨k.path ++ [k.name], ← p.entries.change (Entries.openTable k.name) k.path⟩
  | .item k => do
    return ⟨k.path ++ [k.name], ← p.entries.change (Entries.openItem k.name) k.path⟩

/-- A byte order mark in front of a text does not belong to it. -/
def skipMark : List Char → List Char
  | '\ufeff' :: rest => rest
  | cs => cs

/-- The document of a TOML text. -/
def read (text : String) : Option Document := do
  let cs := skipMark text.toList
  let all ← statements (cs.length + 1) cs
  let p ← all.foldlM Progress.step ⟨[], []⟩
  return p.entries.toDocument

end ScriptBundle.Toml

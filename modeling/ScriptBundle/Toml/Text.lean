/-
# Blanks, comments and strings in TOML

What stands between the parts of a TOML text, and the four kinds of strings: in double or single
quotation marks, on one line or, with three marks at either end, on several.  Only between double
marks does a backslash escape anything.

Control characters stand nowhere but for line breaks and tabs, and a line break is a line feed
with or without a carriage return in front of it.  Inside a string it always counts as the line
feed alone.

Every reader here takes the characters that are left and gives back those that are left then.
-/
import ScriptBundle.Bytes.Hex
import ScriptBundle.Text.Numeral

namespace ScriptBundle.Toml

/-! ## 1. Blanks and comments -/

/-- A blank inside a line. -/
def isBlank (c : Char) : Bool := c = ' ' || c = '\t'

def skipBlanks (cs : List Char) : List Char := cs.dropWhile isBlank

/-- A character that may stand for itself on a line: no control character but the tab. -/
def isPrinting (c : Char) : Bool := c = '\t' || (0x20 ≤ c.toNat && c.toNat ≠ 0x7F)

/-- What follows a line break. -/
def afterBreak? : List Char → Option (List Char)
  | '\n' :: rest => some rest
  | '\r' :: '\n' :: rest => some rest
  | _ => none

/-- What follows a comment, if there is one. -/
def skipComment : List Char → List Char
  | '#' :: rest => rest.dropWhile isPrinting
  | cs => cs

/-- What follows the end of a line, in front of which only blanks and a comment may stand. -/
def endOfLine (cs : List Char) : Option (List Char) :=
  match skipComment (skipBlanks cs) with
  | [] => some []
  | cs => afterBreak? cs

/-- What follows blanks, line breaks and comments; `inComment` says whether this is in the middle
of a comment. -/
def skipFill (inComment : Bool) : List Char → List Char
  | [] => []
  | '\r' :: '\n' :: rest => skipFill false rest
  | c :: rest =>
    if inComment && isPrinting c then skipFill true rest
    else if isBlank c || c = '\n' then skipFill false rest
    else if c = '#' then skipFill true rest
    else c :: rest

/-! ## 2. Escapes -/

/-- The character behind a backslash and a letter. -/
def escape? : Char → Option Char
  | 'b' => some '\x08'
  | 'f' => some '\x0c'
  | 'n' => some '\n'
  | 'r' => some '\r'
  | 't' => some '\t'
  | '"' => some '"'
  | '\\' => some '\\'
  | _ => none

/-- The value of a hexadecimal digit of either case. -/
def hexValue? (c : Char) : Option Nat :=
  if c.toNat < 128 then Hex.digitValue? (UInt8.ofNat c.toNat) else none

/-- The number that hexadecimal digits denote. -/
def hexNumber? (ds : List Char) : Option Nat :=
  ds.foldlM (fun n d => (hexValue? d).map (n * 16 + ·)) 0

/-- The character with the number that hexadecimal digits denote, if there is such a one. -/
def scalar? (ds : List Char) : Option Char := do
  let n ← hexNumber? ds
  if n.isValidChar then some (Char.ofNat n) else none

/-! ## 3. Strings on one line -/

/-- A character that stands for itself between double marks. -/
def isBasic (c : Char) : Bool := isPrinting c && c ≠ '"' && c ≠ '\\'

/-- A character that stands for itself between single marks. -/
def isLiteral (c : Char) : Bool := isPrinting c && c ≠ '\''

/-- A character in front of a string that has been read. -/
def put (c : Char) (r : List Char × List Char) : List Char × List Char := (c :: r.1, r.2)

/-- The string up to the closing double mark. -/
def basic : List Char → Option (List Char × List Char)
  | [] => none
  | '"' :: rest => some ([], rest)
  | '\\' :: 'u' :: a :: b :: c :: d :: rest => do
    return put (← scalar? [a, b, c, d]) (← basic rest)
  | '\\' :: 'U' :: a :: b :: c :: d :: e :: f :: g :: h :: rest => do
    return put (← scalar? [a, b, c, d, e, f, g, h]) (← basic rest)
  | '\\' :: e :: rest => do
    return put (← escape? e) (← basic rest)
  | c :: rest => if isBasic c then (basic rest).map (put c) else none

/-- The string up to the closing single mark. -/
def literal : List Char → Option (List Char × List Char)
  | [] => none
  | '\'' :: rest => some ([], rest)
  | c :: rest => if isLiteral c then (literal rest).map (put c) else none

/-! ## 4. Strings on several lines -/

/-- Whether what a backslash at the end of a line folds away is being skipped. -/
inductive Fold
  | none
  /-- A line break has to come. -/
  | started
  /-- Everything blank goes. -/
  | running
deriving DecidableEq

/-- The string up to three closing double marks.  Two more may stand in front of them. -/
def longBasic (fold : Fold) : List Char → Option (List Char × List Char)
  | [] => none
  | '\r' :: '\n' :: rest =>
    if fold = .none then (longBasic .none rest).map (put '\n') else longBasic .running rest
  | '\n' :: rest =>
    if fold = .none then (longBasic .none rest).map (put '\n') else longBasic .running rest
  | c :: rest =>
    if fold ≠ .none ∧ isBlank c then longBasic fold rest
    else if fold = .started then none
    else
      match c, rest with
      | '"', '"' :: '"' :: '"' :: '"' :: rest => some (['"', '"'], rest)
      | '"', '"' :: '"' :: '"' :: rest => some (['"'], rest)
      | '"', '"' :: '"' :: rest => some ([], rest)
      | '"', rest => (longBasic .none rest).map (put '"')
      | '\\', 'u' :: a :: b :: c :: d :: rest => do
        return put (← scalar? [a, b, c, d]) (← longBasic .none rest)
      | '\\', 'U' :: a :: b :: c :: d :: e :: f :: g :: h :: rest => do
        return put (← scalar? [a, b, c, d, e, f, g, h]) (← longBasic .none rest)
      | '\\', e :: rest =>
        if isBlank e || e = '\n' || e = '\r' then longBasic .started (e :: rest)
        else do return put (← escape? e) (← longBasic .none rest)
      | c, rest => if isBasic c then (longBasic .none rest).map (put c) else none

/-- The string up to three closing single marks.  Two more may stand in front of them. -/
def longLiteral : List Char → Option (List Char × List Char)
  | [] => none
  | '\'' :: '\'' :: '\'' :: '\'' :: '\'' :: rest => some (['\'', '\''], rest)
  | '\'' :: '\'' :: '\'' :: '\'' :: rest => some (['\''], rest)
  | '\'' :: '\'' :: '\'' :: rest => some ([], rest)
  | '\r' :: '\n' :: rest => (longLiteral rest).map (put '\n')
  | c :: rest =>
    if isPrinting c || c = '\n' then (longLiteral rest).map (put c) else none

/-- What follows a line break, if there is one. -/
def skipBreak (cs : List Char) : List Char := (afterBreak? cs).getD cs

/-- A string on one line. -/
def shortString : List Char → Option (List Char × List Char)
  | '"' :: rest => basic rest
  | '\'' :: rest => literal rest
  | _ => none

/-- A string of any kind.  A line break right behind three opening marks does not count. -/
def string : List Char → Option (List Char × List Char)
  | '"' :: '"' :: '"' :: rest => longBasic .none (skipBreak rest)
  | '\'' :: '\'' :: '\'' :: rest => longLiteral (skipBreak rest)
  | cs => shortString cs

end ScriptBundle.Toml

/-
# JSON texts

`Json.write` gives the compact text of a document and `Json.read` the document of a text.  The
writer escapes in strings what it must and nothing more: quotation marks, backslashes and control
characters.  The reader is strict: numbers have no superfluous zeros, control characters do not
stand for themselves in a string, and nothing but blanks surrounds the value.

The reader puts no bound on nesting; how deep a document may be is for its readers to say.
Its recursion is bounded by the length of the text instead, since every call but one in two takes
a character.

A document can also be read from bytes.  Only those strings have to be texts then that are looked
at; so bytes that are not the UTF-8 form of a text may have a document, if they differ from one
inside of strings only (`Json.readBytes`).
-/
import ScriptBundle.Document
import ScriptBundle.Bytes.Hex

namespace ScriptBundle.Json

/-! ## 1. Writing -/

/-- The lower-case hexadecimal digit of a number below sixteen. -/
def hexDigit (n : Nat) : Char := Char.ofNat (Hex.digit n).toNat

/-- A character as it stands in a string. -/
def escaped (c : Char) : List Char :=
  if c = '"' then ['\\', '"']
  else if c = '\\' then ['\\', '\\']
  else if c = '\x08' then ['\\', 'b']
  else if c = '\x0c' then ['\\', 'f']
  else if c = '\n' then ['\\', 'n']
  else if c = '\r' then ['\\', 'r']
  else if c = '\t' then ['\\', 't']
  else if c.toNat < 0x20 then
    ['\\', 'u', '0', '0', hexDigit (c.toNat / 16), hexDigit (c.toNat % 16)]
  else [c]

/-- A text in quotation marks.  A text without a value is written as half of a pair, which reads
back as it. -/
def quoted : Option String → List Char
  | some s => '"' :: s.toList.flatMap escaped ++ ['"']
  | none => ['"', '\\', 'u', 'd', '8', '0', '0', '"']

def sign (negative : Bool) : List Char := if negative then ['-'] else []

def numberChars : Number → List Char
  | .whole negative n => sign negative ++ Numeral.digits n
  | .decimal negative n e => sign negative ++ Numeral.digits n ++ 'e' :: Numeral.signedDigits e

mutual
/-- The characters of a document's compact text. -/
def chars : Document → List Char
  | .null => ['n', 'u', 'l', 'l']
  | .bool true => ['t', 'r', 'u', 'e']
  | .bool false => ['f', 'a', 'l', 's', 'e']
  | .number n => numberChars n
  | .text s => quoted s
  | .list [] => ['[', ']']
  | .list (d :: rest) => '[' :: chars d ++ tailChars rest
  | .table [] => ['\x7b', '\x7d']
  | .table ((name, d) :: rest) => '\x7b' :: quoted name ++ ':' :: chars d ++ tailEntryChars rest

/-- What follows the first item of a list. -/
def tailChars : List Document → List Char
  | [] => [']']
  | d :: rest => ',' :: chars d ++ tailChars rest

/-- What follows the first entry of a table. -/
def tailEntryChars : List (Option String × Document) → List Char
  | [] => ['\x7d']
  | (name, d) :: rest => ',' :: quoted name ++ ':' :: chars d ++ tailEntryChars rest
end

/-- The compact text of a document. -/
def write (d : Document) : String := String.ofList (chars d)

/-! ## 2. Reading strings -/

/-- The blanks between the parts of a text. -/
def isSpace (c : Char) : Bool := c = ' ' || c = '\n' || c = '\t' || c = '\r'

def skip (cs : List Char) : List Char := cs.dropWhile isSpace

/-- What a string is made of: characters that stand for themselves, and numbered UTF-16 units. -/
inductive Piece
  | char (c : Char)
  | unit (code : Nat)

/-- The character behind a backslash escape of one letter. -/
def escape? : Char → Option Char
  | '"' => some '"'
  | '\\' => some '\\'
  | '/' => some '/'
  | 'b' => some '\x08'
  | 'f' => some '\x0c'
  | 'n' => some '\n'
  | 'r' => some '\r'
  | 't' => some '\t'
  | _ => none

/-- The value of a hexadecimal digit of either case. -/
def hexValue? (c : Char) : Option Nat :=
  if c.toNat < 128 then Hex.digitValue? (UInt8.ofNat c.toNat) else none

/-- The number of four hexadecimal digits. -/
def unit? (a b c d : Char) : Option Nat := do
  let a ← hexValue? a
  let b ← hexValue? b
  let c ← hexValue? c
  let d ← hexValue? d
  return ((a * 16 + b) * 16 + c) * 16 + d

/-- The pieces up to the closing quotation mark, and what follows it. -/
def pieces : List Char → Option (List Piece × List Char)
  | '"' :: rest => some ([], rest)
  | '\\' :: 'u' :: a :: b :: c :: d :: rest => do
    let code ← unit? a b c d
    let (ps, rest) ← pieces rest
    return (.unit code :: ps, rest)
  | '\\' :: e :: rest => do
    let c ← escape? e
    let (ps, rest) ← pieces rest
    return (.char c :: ps, rest)
  | c :: rest =>
    if c = '\\' ∨ c.toNat < 0x20 then none
    else do
      let (ps, rest) ← pieces rest
      return (.char c :: ps, rest)
  | [] => none

/-- The first unit of a pair. -/
def isHigh (code : Nat) : Bool := 0xD800 ≤ code && code < 0xDC00

/-- The second unit of a pair. -/
def isLow (code : Nat) : Bool := 0xDC00 ≤ code && code < 0xE000

/-- The characters that pieces denote: units outside the range of pairs stand alone, and the
others come in pairs.  Half of a pair denotes nothing. -/
def characters : List Piece → Option (List Char)
  | [] => some []
  | .char c :: rest => (characters rest).map (c :: ·)
  | .unit high :: .unit low :: rest =>
    if isHigh high then
      if isLow low then
        (characters rest).map
          (Char.ofNat (0x10000 + (high - 0xD800) * 0x400 + (low - 0xDC00)) :: ·)
      else none
    else if isLow high then none
    else (characters (.unit low :: rest)).map (Char.ofNat high :: ·)
  | .unit code :: rest =>
    if isHigh code || isLow code then none else (characters rest).map (Char.ofNat code :: ·)

/-- A string whose opening quotation mark is already taken. -/
def string (cs : List Char) : Option (Option String × List Char) := do
  let (ps, rest) ← pieces cs
  return ((characters ps).map String.ofList, rest)

/-! ## 3. Reading numbers -/

/-- The leading digits, and what follows them. -/
def digitRun (cs : List Char) : List Char × List Char :=
  (cs.takeWhile Char.isDigit, cs.dropWhile Char.isDigit)

/-- The digits of a fraction, if there is one. -/
def fraction? : List Char → Option (List Char × List Char)
  | '.' :: rest =>
    let (ds, rest) := digitRun rest
    if ds.isEmpty then none else some (ds, rest)
  | rest => some ([], rest)

/-- The number that follows an exponent mark: a sign is free, a digit is not. -/
def exponentDigits? (cs : List Char) : Option (Int × List Char) :=
  let (negative, cs) :=
    match cs with
    | '-' :: rest => (true, rest)
    | '+' :: rest => (false, rest)
    | rest => (false, rest)
  let (ds, rest) := digitRun cs
  if ds.isEmpty then none
  else some (if negative then -(Numeral.value ds : Int) else Numeral.value ds, rest)

/-- The exponent, if there is one. -/
def exponent? : List Char → Option (Option Int × List Char)
  | 'e' :: rest => (exponentDigits? rest).map fun (e, rest) => (some e, rest)
  | 'E' :: rest => (exponentDigits? rest).map fun (e, rest) => (some e, rest)
  | rest => some (none, rest)

/-- A number without its sign: no digit follows a leading zero. -/
def magnitude (negative : Bool) (cs : List Char) : Option (Number × List Char) := do
  let (ds, rest) := digitRun cs
  if ds.isEmpty || (ds.head? = some '0' && ds.length ≠ 1) then none
  else
    let (fs, rest) ← fraction? rest
    let (e, rest) ← exponent? rest
    match fs, e with
    | [], none => return (.whole negative (Numeral.value ds), rest)
    | fs, e => return (.decimal negative (Numeral.value (ds ++ fs)) (e.getD 0 - fs.length), rest)

def number : List Char → Option (Number × List Char)
  | '-' :: rest => magnitude true rest
  | cs => magnitude false cs

/-! ## 4. Reading values -/

mutual
/-- A value and what follows it. -/
def value : (fuel : Nat) → List Char → Option (Document × List Char)
  | 0, _ => none
  | fuel + 1, cs =>
    match skip cs with
    | '\x7b' :: rest =>
      match skip rest with
      | '\x7d' :: rest => some (.table [], rest)
      | rest => (members fuel rest).map fun (entries, rest) => (.table entries, rest)
    | '[' :: rest =>
      match skip rest with
      | ']' :: rest => some (.list [], rest)
      | rest => (elements fuel rest).map fun (items, rest) => (.list items, rest)
    | '"' :: rest => (string rest).map fun (s, rest) => (.text s, rest)
    | 'n' :: 'u' :: 'l' :: 'l' :: rest => some (.null, rest)
    | 't' :: 'r' :: 'u' :: 'e' :: rest => some (.bool true, rest)
    | 'f' :: 'a' :: 'l' :: 's' :: 'e' :: rest => some (.bool false, rest)
    | rest => (number rest).map fun (n, rest) => (.number n, rest)

/-- The items of a list that has some, up to the closing bracket, and what follows it. -/
def elements : (fuel : Nat) → List Char → Option (List Document × List Char)
  | 0, _ => none
  | fuel + 1, cs => do
    let (d, rest) ← value fuel cs
    match skip rest with
    | ',' :: rest =>
      let (items, rest) ← elements fuel rest
      return (d :: items, rest)
    | ']' :: rest => return ([d], rest)
    | _ => none

/-- The entries of a table that has some, up to the closing brace, and what follows it. -/
def members : (fuel : Nat) → List Char → Option (List (Option String × Document) × List Char)
  | 0, _ => none
  | fuel + 1, cs =>
    match skip cs with
    | '"' :: rest => do
      let (name, rest) ← string rest
      match skip rest with
      | ':' :: rest =>
        let (d, rest) ← value fuel rest
        match skip rest with
        | ',' :: rest =>
          let (entries, rest) ← members fuel rest
          return ((name, d) :: entries, rest)
        | '\x7d' :: rest => return ([(name, d)], rest)
        | _ => none
      | _ => none
    | _ => none
end

/-- The document of a text that is one value between blanks. -/
def read (text : String) : Option Document := do
  let cs := text.toList
  let (d, rest) ← value (2 * cs.length + 2) cs
  if (skip rest).isEmpty then some d else none

/-! ## 5. Reading bytes -/

/-- The character that a byte string starts with the UTF-8 form of. -/
def front? (bytes : Bytes) : Option Char := (ByteArray.mk (bytes.take 4).toArray).utf8DecodeChar? 0

/-- What is read in place of a byte that belongs to no character.  In a string it is half of a pair,
so the string has no value; elsewhere it is an error.  A mark at either end keeps the half pair
apart from a backslash before it and from another half behind it. -/
def noCharacter : List Char := ['?', '\\', 'u', 'd', '8', '0', '0', '?']

/-- What is read of a byte string, the first bytes of which may be `taken` already. -/
def legible : (taken : Nat) → Bytes → List Char
  | _, [] => []
  | taken + 1, _ :: rest => legible taken rest
  | 0, b :: rest =>
    match front? (b :: rest) with
    | some c => c :: legible (c.utf8Size - 1) rest
    | none => noCharacter ++ legible 0 rest

/-- The document of a byte string that is one value between blanks. -/
def readBytes (bytes : Bytes) : Option Document :=
  match Bytes.toText? bytes with
  | some text => read text
  | none => read (String.ofList (legible 0 bytes))

@[simp] theorem readBytes_ofText (text : String) : readBytes (Bytes.ofText text) = read text := by
  rw [readBytes, Bytes.toText?_ofText]

/-- A string that is no text is a string all the same. -/
example : readBytes [0x22, 0xff, 0x22] = some (.text none) := rfl

end ScriptBundle.Json

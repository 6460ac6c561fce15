/-
# Numbers, dates and times in TOML

A number or a moment starts with a sign or a digit, or with the letters of what is no number and
of what is no finite one.  Between two digits of a number an underscore may stand.

Whole numbers fit into 64 bits, with their sign.  Numbers with a fraction or an exponent stay as
they are written, and one that double precision would take for positive infinity is refused.

A moment is a date, a time of day, or both, and then perhaps with the distance from universal
time.  Nothing here calculates with moments; a moment is a table with its text as the one entry,
and the text is in one form however the moment was written (`Moment`).
-/
import ScriptBundle.Document
import ScriptBundle.Toml.Text

namespace ScriptBundle.Toml

/-! ## 1. Digits -/

/-- The digits that go on behind another, in which single underscores may stand between two. -/
def moreDigits (isDigit : Char → Bool) : List Char → Option (List Char × List Char)
  | '_' :: d :: rest => if isDigit d then (moreDigits isDigit rest).map (put d) else none
  | c :: rest => if isDigit c then (moreDigits isDigit rest).map (put c) else some ([], c :: rest)
  | [] => some ([], [])

/-- The digits of a run, one at least. -/
def digitRun (isDigit : Char → Bool) : List Char → Option (List Char × List Char)
  | c :: rest => if isDigit c then (moreDigits isDigit rest).map (put c) else none
  | [] => none

/-- A sign, if there is one; whether it is a minus sign. -/
def signed : List Char → Bool × List Char
  | '-' :: rest => (true, rest)
  | '+' :: rest => (false, rest)
  | cs => (false, cs)

/-- The digits of a decimal number without superfluous zeros. -/
def decimalDigits : List Char → Option (List Char × List Char)
  | '0' :: rest => some (['0'], rest)
  | cs => digitRun Char.isDigit cs

/-! ## 2. Numbers -/

/-- A number that fits into 64 bits with its sign. -/
def word? (negative : Bool) (n : Nat) : Option Document :=
  let z : Int := if negative then -n else n
  if -0x8000000000000000 ≤ z ∧ z < 0x8000000000000000 then some (.ofInt z) else none

/-- The number that digits to a base denote. -/
def based (base : Nat) (isDigit : Char → Bool) (cs : List Char) :
    Option (Document × List Char) := do
  let (ds, rest) ← digitRun isDigit cs
  let n := ds.foldl (fun n d => n * base + (hexValue? d).getD 0) 0
  return (← word? false n, rest)

/-- The exponent, if there is one. -/
def exponent (cs : List Char) : Option (Option Int × List Char) :=
  match cs with
  | c :: rest =>
    if c = 'e' ∨ c = 'E' then do
      let (negative, rest) := signed rest
      let (ds, rest) ← digitRun Char.isDigit rest
      let n : Int := Numeral.value ds
      return (some (if negative then -n else n), rest)
    else some (none, cs)
  | [] => some (none, cs)

/-- The digits of a fraction, if there is one. -/
def fraction (cs : List Char) : Option (Option (List Char) × List Char) :=
  match cs with
  | '.' :: rest => (digitRun Char.isDigit rest).map fun (ds, rest) => (some ds, rest)
  | _ => some (none, cs)

/-- A number with a fraction or an exponent, unless it is too large. -/
def float? (negative : Bool) (ds : List Char) (e : Int) : Option Document :=
  let n := Number.decimal negative (Numeral.value ds) e
  if negative || n.isFinite then some (.number n) else none

/-- A decimal number. -/
def decimal (cs : List Char) : Option (Document × List Char) := do
  let (negative, cs) := signed cs
  let (ds, cs) ← decimalDigits cs
  let (fractionDigits, cs) ← fraction cs
  let (e, cs) ← exponent cs
  match fractionDigits, e with
  | none, none => return (← word? negative (Numeral.value ds), cs)
  | _, _ =>
    let fs := fractionDigits.getD []
    return (← float? negative (ds ++ fs) (e.getD 0 - fs.length), cs)

/-- A number that double precision does not have as a finite one.  Nobody asks which it is; it
stands as a number too large for any reader. -/
def notFinite (negative : Bool) : Document := .number (.decimal negative 1 400)

def isOctal (c : Char) : Bool := '0' ≤ c && c ≤ '7'

def isBinary (c : Char) : Bool := c = '0' || c = '1'

def isHex (c : Char) : Bool := (hexValue? c).isSome

/-- A number. -/
def number (cs : List Char) : Option (Document × List Char) :=
  match cs with
  | '0' :: 'x' :: rest => based 16 isHex rest
  | '0' :: 'o' :: rest => based 8 isOctal rest
  | '0' :: 'b' :: rest => based 2 isBinary rest
  | _ =>
    match signed cs with
    | (negative, 'i' :: 'n' :: 'f' :: rest) => some (notFinite negative, rest)
    | (negative, 'n' :: 'a' :: 'n' :: rest) => some (notFinite negative, rest)
    | _ => decimal cs

/-! ## 3. Moments -/

structure Date where
  year : Nat
  month : Nat
  day : Nat

structure Time where
  hour : Nat
  minute : Nat
  second : Nat
  nanosecond : Nat

/-- The distance from universal time. -/
inductive Offset
  | universal
  | minutes (behind : Bool) (n : Nat)

inductive Moment
  | date (d : Date)
  | time (t : Time)
  | both (d : Date) (t : Time) (o : Option Offset)

namespace Moment

def two (n : Nat) : String := String.ofList (Numeral.padded 2 n)

def dateText (d : Date) : String :=
  String.ofList (Numeral.padded 4 d.year) ++ "-" ++ two d.month ++ "-" ++ two d.day

/-- The digits of a fraction of a second, without zeros at the end. -/
def secondFraction (n : Nat) : String :=
  if n = 0 then ""
  else "." ++ String.ofList ((Numeral.padded 9 n).reverse.dropWhile (· = '0')).reverse

def timeText (t : Time) : String :=
  two t.hour ++ ":" ++ two t.minute ++ ":" ++ two t.second ++ secondFraction t.nanosecond

def offsetText : Offset → String
  | .universal => "Z"
  | .minutes behind n =>
    (if behind && n ≠ 0 then "-" else "+") ++ two (n / 60) ++ ":" ++ two (n % 60)

/-- The text of a moment. -/
def text : Moment → String
  | .date d => dateText d
  | .time t => timeText t
  | .both d t o => dateText d ++ "T" ++ timeText t ++ (o.map offsetText).getD ""

/-- The name under which a moment holds its text. -/
def entryName : String := "$__toml_private_datetime"

def toDocument (m : Moment) : Document := .ofEntries [(entryName, .ofText m.text)]

def isLeapYear (year : Nat) : Bool := year % 4 = 0 && (year % 100 ≠ 0 || year % 400 = 0)

def daysIn (year month : Nat) : Nat :=
  if month = 2 then (if isLeapYear year then 29 else 28)
  else if month = 4 ∨ month = 6 ∨ month = 9 ∨ month = 11 then 30
  else 31

/-- The number of exactly two digits, if it is in a range. -/
def pair (low high : Nat) : List Char → Option (Nat × List Char)
  | a :: b :: rest =>
    if a.isDigit && b.isDigit then
      let n := Numeral.value [a, b]
      if low ≤ n ∧ n ≤ high then some (n, rest) else none
    else none
  | _ => none

/-- What follows a mark. -/
def after (mark : Char) : List Char → Option (List Char)
  | c :: rest => if c = mark then some rest else none
  | [] => none

/-- A date. -/
def readDate : List Char → Option (Date × List Char)
  | a :: b :: c :: d :: '-' :: rest =>
    if [a, b, c, d].all Char.isDigit then do
      let year := Numeral.value [a, b, c, d]
      let (month, rest) ← pair 1 12 rest
      let rest ← after '-' rest
      let (day, rest) ← pair 1 31 rest
      if day ≤ daysIn year month then some (⟨year, month, day⟩, rest) else none
    else none
  | _ => none

/-- The billionths in a fraction of a second; what is finer is cut off. -/
def readFraction : List Char → Option (Nat × List Char)
  | '.' :: rest =>
    let ds := rest.takeWhile Char.isDigit
    if ds = [] then none
    else
      let nine := (ds.take 9) ++ List.replicate (9 - ds.length) '0'
      some (Numeral.value nine, rest.dropWhile Char.isDigit)
  | cs => some (0, cs)

/-- A time of day. -/
def readTime (cs : List Char) : Option (Time × List Char) := do
  let (hour, cs) ← pair 0 23 cs
  let cs ← after ':' cs
  let (minute, cs) ← pair 0 59 cs
  let cs ← after ':' cs
  let (second, cs) ← pair 0 60 cs
  let (nanosecond, cs) ← readFraction cs
  return (⟨hour, minute, second, nanosecond⟩, cs)

/-- A distance from universal time, if there is one. -/
def readOffset (cs : List Char) : Option (Option Offset × List Char) :=
  match cs with
  | c :: rest =>
    if c = 'Z' ∨ c = 'z' then some (some .universal, rest)
    else if c = '+' ∨ c = '-' then do
      let (hours, rest) ← pair 0 23 rest
      let rest ← after ':' rest
      let (minutes, rest) ← pair 0 59 rest
      return (some (.minutes (c = '-') (hours * 60 + minutes)), rest)
    else some (none, cs)
  | [] => some (none, cs)

/-- Whether a time follows: a mark that separates it from the date, and an hour with a colon. -/
def timeFollows : List Char → Bool
  | c :: a :: b :: ':' :: _ =>
    (c = 'T' || c = 't' || c = ' ') && (pair 0 23 [a, b]).isSome
  | _ => false

/-- Whether a date starts here. -/
def startsDate : List Char → Bool
  | a :: b :: c :: d :: '-' :: _ => [a, b, c, d].all Char.isDigit
  | _ => false

/-- Whether a time of day starts here. -/
def startsTime : List Char → Bool
  | a :: b :: ':' :: _ => a.isDigit && b.isDigit
  | _ => false

/-- A moment. -/
def read (cs : List Char) : Option (Moment × List Char) := do
  if startsDate cs then
    let (d, cs) ← readDate cs
    if timeFollows cs then
      let (t, cs) ← readTime cs.tail
      let (o, cs) ← readOffset cs
      return (.both d t o, cs)
    else
      return (.date d, cs)
  else
    let (t, cs) ← readTime cs
    return (.time t, cs)

end Moment

/-- A number or a moment. -/
def scalar (cs : List Char) : Option (Document × List Char) :=
  if Moment.startsDate cs || Moment.startsTime cs then
    (Moment.read cs).map fun (m, rest) => (m.toDocument, rest)
  else number cs

end ScriptBundle.Toml

/-
# A small language of scripts

A toolchain for a language that is just large enough to exercise a build.  A source is a list of
lines, and each line embeds a hash, emits a function, sets the source map, fails, or is a text of
its own.  A program is a text too: what went into it, in the order in which it went in.  So two
programs are the same exactly if nothing that went into them differs, and a build's passes can be
read off their programs.

Programs run as well: the first word of the text says what is done with the arguments.

Compiling depends on nothing but the request, and a program is loaded back from its bytes.
-/
import ScriptBundle.Build.Toolchain
import ScriptBundle.Text.Blank

namespace ScriptBundle.LineScript

/-! ## 1. Programs -/

/-- A program, which is a text. -/
structure Code where
  text : String
deriving DecidableEq

namespace Code

/-- The first word of a text and what follows it. -/
def words (text : List Char) : List Char × List Char :=
  (Text.splitAtFirst ' ' text).getD (text, [])

/-- The position that a text stands for: digits, with a plus sign in front at most. -/
def position? : List Char → Option Nat
  | '+' :: ds => if Numeral.isNumeral ds then some (Numeral.value ds) else none
  | ds => if Numeral.isNumeral ds then some (Numeral.value ds) else none

/-- The numbers that count as an argument's: itself, or those it holds as a record. -/
def summands : Data → List Int128
  | .int n => [n]
  | .constr _ fields => fields.filterMap fun
    | .int n => some n
    | _ => none
  | _ => []

/-- The sum of some numbers on top of another, as long as it never grows too large. -/
def sumFrom (total : Int128) : List Int128 → Except String Int128
  | [] => .ok total
  | n :: rest =>
    match Int128.ofInt? (total.val + n.val) with
    | some total => sumFrom total rest
    | none => .error "overflow"

/-- Gives all arguments back, and a number; the number thirteen in front brings bad luck. -/
def evalEcho (rest : List Char) (arguments : List Data) : Except String Data :=
  match arguments with
  | .int n :: _ =>
    if n.val = 13 then .error "unlucky" else .ok (.list (arguments ++ [.int number]))
  | _ => .ok (.list (arguments ++ [.int number]))
where
  number : Int128 := (Int128.ofChars? rest).getD .zero

/-- Gives the argument at a position back. -/
def evalNth (rest : List Char) (arguments : List Data) : Except String Data :=
  match (position? rest).bind fun i => arguments[i]? with
  | some d => .ok d
  | none => .error ("no argument " ++ String.ofList rest)

/-- Adds up all numbers in the arguments. -/
def evalSum (arguments : List Data) : Except String Data := do
  let total ← sumFrom .zero (arguments.flatMap summands)
  if total.val < 0 then .error ("negative sum " ++ total.text) else .ok (.int total)

/-- What a program makes of its arguments. -/
def eval (p : Code) (arguments : List Data) : Except String Data :=
  let (mode, rest) := words p.text.toList
  match String.ofList mode with
  | "echo" => evalEcho rest arguments
  | "nth" => evalNth rest arguments
  | "fail" => .error (String.ofList rest)
  | _ => evalSum arguments

def toBytes (p : Code) : Bytes := Bytes.ofText p.text

/-- The hash of a program: 28 bytes. -/
def hash (p : Code) : Bytes :=
  let h := Digest.ofContent p.toBytes
  h.bytes ++ (Digest.ofContent h.bytes).bytes.take 12

instance : Program Code := ⟨hash, eval, toBytes⟩

end Code

/-! ## 2. Lines -/

/-- What a line of a source says. -/
inductive Line
  | blank
  /-- Embeds the hash of a validator. -/
  | embed (validator : String)
  /-- Emits a function, unless it is excluded or the program is optimized. -/
  | emit (func : String)
  /-- Emits a function in any case. -/
  | force (func : String)
  | sourceMap (map : String)
  | failure
  /-- Fails unless the program is optimized. -/
  | rawFailure
  | text (line : String)
deriving DecidableEq

namespace Line

/-- What follows some text at the start of a line. -/
def after? (start : String) (line : List Char) : Option String :=
  if start.toList.isPrefixOf line then some (String.ofList (line.drop start.length)) else none

/-- What a line of a source says. -/
def ofChars (line : List Char) : Line :=
  if line = [] then .blank
  else if let some x := after? "hash " line then .embed x
  else if let some x := after? "func " line then .emit x
  else if let some x := after? "force " line then .force x
  else if let some t := after? "map " line then .sourceMap t
  else if (after? "fail" line).isSome then .failure
  else if line = "rawfail".toList then .rawFailure
  else .text (String.ofList line)

/-- The lines of what is left of a source; `begun` is the start of the first one, backwards. -/
def ofRest (begun : List Char) : List Char → List Line
  | [] => [ofChars begun.reverse]
  | c :: rest =>
    if c = '\n' then ofChars begun.reverse :: ofRest [] rest else ofRest (c :: begun) rest

/-- The lines of a source. -/
def ofSource (source : List Char) : List Line := ofRest [] source

end Line

/-! ## 3. Compiling -/

/-- A function that can be emitted. -/
structure Func where
  programs : Programs Code
  signature : Signature
deriving DecidableEq

/-- The function of a name that nothing else is known about: it takes a number and perhaps
another, and the validator it runs for. -/
def Func.ofName (name : String) : Func where
  programs := ⟨⟨"func " ++ name⟩, some ⟨"func " ++ name ++ " raw"⟩⟩
  signature := {
    arguments := [⟨"amount", .primitive .int, false⟩, ⟨"bonus", .primitive .int, true⟩]
    returns := some (.primitive .int)
    requiresContext := false
    requiresCurrentValidator := true }

/-- What a compiler for this language is told beforehand. -/
structure Settings where
  version : String
  /-- The version of the form of programs. -/
  format : String
  funcs : NameMap Func

/-- The function under a name, emitted along with a validator. -/
def Settings.emission (c : Settings) (validator name : String) : Emission Code :=
  let func := (c.funcs.get? name).getD (.ofName name)
  { name
    programs := func.programs
    signature := func.signature
    diagnostics := ⟨some ("ir of " ++ name ++ " by " ++ validator), none⟩
    unoptimizedDiagnostics := ⟨none, some ("map of " ++ name)⟩ }

/-- How far a compilation has come. -/
structure Progress where
  content : String
  sourceMap : Option String
  emitted : List (Emission Code)

namespace Progress

/-- What every program starts with. -/
def start (r : Request) : Progress where
  content :=
    "validator " ++ r.name ++ " mainnet=" ++ toString r.network.isMainnet
      ++ String.join (r.modules.map fun (name, source) => " module " ++ name ++ "=" ++ source)
      ++ String.join (r.parameters.entries.map fun (name, d) =>
        " param " ++ name ++ "=" ++ d.display)
  sourceMap := none
  emitted := []

def append (p : Progress) (text : String) : Progress := { p with content := p.content ++ text }

def emit (p : Progress) (e : Emission Code) : Progress := { p with emitted := p.emitted ++ [e] }

/-- The hash of a validator in full, if the validator that is being compiled may know it. -/
def knownHash (r : Request) (name : String) : Except String String :=
  match r.references.find? (·.name = name) with
  | none => .error ("unknown validator " ++ name)
  | some ref =>
    if ref.isPlaceholder then .error ("hash of " ++ name ++ " is not known yet")
    else .ok (Hex.encode ref.hash)

/-- Goes on by a line, or says what is wrong with it. -/
def step (c : Settings) (r : Request) (p : Progress) : Line → Except String Progress
  | .blank => .ok p
  | .embed name => do return p.append (" hash " ++ name ++ "=" ++ (← knownHash r name))
  | .emit name =>
    if !r.optimize && !r.excluded.contains name then .ok (p.emit (c.emission r.name name))
    else .ok p
  | .force name => .ok (p.emit (c.emission r.name name))
  | .sourceMap map => .ok { p with sourceMap := some map }
  | .failure => .error ("syntax error in " ++ r.name)
  | .rawFailure =>
    if r.optimize then .ok (p.append " text rawfail") else .error ("cannot lower " ++ r.name)
  | .text line => .ok (p.append (" text " ++ line))

/-- Goes on by some lines: how far that goes, and what is wrong with the line it stops at. -/
def run (c : Settings) (r : Request) : Progress → List Line → Progress × Option String
  | p, [] => (p, none)
  | p, line :: rest =>
    match step c r p line with
    | .ok p => run c r p rest
    | .error complaint => (p, some complaint)

/-- The compiled validator. -/
def output (r : Request) (p : Progress) : Output Code :=
  let content := p.content ++ if r.dependsOnOwnHash then " own-hash" else ""
  if r.optimize then
    ⟨⟨"opt " ++ content⟩, ⟨some ("ir of " ++ r.name), p.sourceMap⟩⟩
  else
    let self := Hex.encode (r.ownHash.getD [])
    ⟨⟨"raw " ++ content ++ " self=" ++ self⟩, ⟨some ("raw ir of " ++ r.name), p.sourceMap⟩⟩

end Progress

/-- What comes of a request. -/
def Settings.compile (c : Settings) (r : Request) : Compilation Code :=
  match Progress.run c r (.start r) (Line.ofSource r.source.toList) with
  | (p, none) => ⟨p.emitted, .ok (p.output r)⟩
  | (p, some complaint) => ⟨p.emitted, .error complaint⟩

/-- The program that bytes in a form of some version stand for. -/
def Settings.load (c : Settings) (bytes : Bytes) (format : String) : Except String Code :=
  if format ≠ c.format then .error ("unsupported format " ++ format)
  else
    match Bytes.toText? bytes with
    | some text => .ok ⟨text⟩
    | none => .error "program is not UTF-8"

/-- The toolchain, which remembers nothing. -/
def Settings.toolchain (c : Settings) : Toolchain Unit Code where
  version := c.version
  format := c.format
  compile r s := (c.compile r, s)
  load bytes format s := (c.load bytes format, s)

end ScriptBundle.LineScript

/-
# Functions for use outside the scripts

A function that was emitted along with the scripts is a program that takes its arguments by
position.  Whoever calls it gives them by name, as values, in any order; the call is laid out by
the function's signature: the declared arguments in the order of their declaration, then the
context the function runs in, then the validator it runs for, which is told by its index.

An argument that may be left out always takes its position, wrapped to say whether it is there.

In a build for debugging a call runs both forms of the program, and refuses a result on which they
do not agree.
-/
import ScriptBundle.Codec
import ScriptBundle.Build.Toolchain

namespace ScriptBundle

/-! ## 1. Functions and calls -/

/-- A function that was emitted in a build. -/
structure UserFunc (P : Type) where
  name : String
  programs : Programs P
  signature : Signature
  /-- The indices of the validators of the build. -/
  indices : NameMap Nat
  network : Network
  /-- Whether calls compare the two forms of the program. -/
  checksDivergence : Bool
  diagnostics : Diagnostics
  unoptimizedDiagnostics : Diagnostics
deriving DecidableEq

/-- What a function is called with. -/
structure Call where
  arguments : List (String × Value)
  context : Option Data
  currentValidator : Option String

/-- Why a call has no result. -/
inductive CallError
  | missingArgument (argument : String)
  | unknownArgument (argument : String)
  | duplicateArgument (argument : String)
  | missingContext
  | missingCurrentValidator
  | unknownValidator (validator : String)
  /-- An argument or the result has another form than the signature says. -/
  | codec (cause : Codec.Error)
  | evalFailed (complaint : String)
  /-- The two forms of the program come to different results. -/
  | divergence (optimized unoptimized : String)

/-- The complaint in words, for a function of some name. -/
def CallError.message (func : String) (e : CallError) : String :=
  func ++ ": " ++
    match e with
    | .missingArgument argument => "missing argument '" ++ argument ++ "'"
    | .unknownArgument argument => "unknown argument '" ++ argument ++ "'"
    | .duplicateArgument argument => "argument '" ++ argument ++ "' supplied more than once"
    | .missingContext => "requires a script context"
    | .missingCurrentValidator => "requires the current validator"
    | .unknownValidator validator => "unknown validator '" ++ validator ++ "'"
    | .codec cause => cause.message
    | .evalFailed complaint => "evaluation failed: " ++ complaint
    | .divergence optimized unoptimized =>
      "optimized program returned " ++ optimized ++ " but unoptimized returned " ++ unoptimized

namespace UserFunc

variable {P : Type}

/-! ## 2. The layout of a call -/

/-- The first name that occurs a second time. -/
def repeated? : (before : List String) → List String → Option String
  | _, [] => none
  | before, name :: rest =>
    if before.contains name then some name else repeated? (name :: before) rest

/-- Refuses arguments that are not declared, and then those given twice. -/
def checkNames (declared given : List String) : Except CallError Unit :=
  match given.find? fun name => !declared.contains name with
  | some name => .error (.unknownArgument name)
  | none =>
    match repeated? [] given with
    | some name => .error (.duplicateArgument name)
    | none => .ok ()

/-- The data at the position of an argument. -/
def argumentData (network : Network) (a : Argument) : Option Value → Except CallError Data
  | some v =>
    match Codec.encode network a.schema v with
    | .ok d => .ok (if a.isOptional then Codec.optional (some d) else d)
    | .error e => .error (.codec e)
  | none => if a.isOptional then .ok (Codec.optional none) else .error (.missingArgument a.name)

/-- The items without the one at a position, which the last one takes. -/
def swapRemove {α : Type} (items : List α) (i : Fin items.length) : List α :=
  match items.getLast? with
  | some last => (items.set i last).dropLast
  | none => []

/-- The value of a name, if it is given, and what is given besides. -/
def take (name : String) (given : List (String × Value)) : Option Value × List (String × Value) :=
  match given.findFinIdx? fun e => e.1 = name with
  | some i => (some given[i].2, swapRemove given i)
  | none => (none, given)

/-- The data at the positions of the declared arguments.  A value is used up by the first argument
of its name. -/
def argumentsData (network : Network) :
    List Argument → (given : List (String × Value)) → Except CallError (List Data)
  | [], _ => .ok []
  | a :: rest, given => do
    let (value, given) := take a.name given
    let d ← argumentData network a value
    let ds ← argumentsData network rest given
    return d :: ds

/-- The context, if the function requires one. -/
def contextData (f : UserFunc P) (call : Call) : Except CallError (List Data) :=
  if f.signature.requiresContext then
    match call.context with
    | some d => .ok [d]
    | none => .error .missingContext
  else .ok []

/-- The index of the current validator, if the function requires one. -/
def currentData (f : UserFunc P) (call : Call) : Except CallError (List Data) :=
  if f.signature.requiresCurrentValidator then
    match call.currentValidator with
    | some name =>
      match f.indices.get? name with
      | some index => .ok [.constr (UInt64.ofNat index) []]
      | none => .error (.unknownValidator name)
    | none => .error .missingCurrentValidator
  else .ok []

/-- The data that the program takes, in order. -/
def layout (f : UserFunc P) (call : Call) : Except CallError (List Data) := do
  checkNames (f.signature.arguments.map (·.name)) (call.arguments.map (·.1))
  let arguments ← argumentsData f.network f.signature.arguments call.arguments
  let context ← f.contextData call
  let current ← f.currentData call
  return arguments ++ context ++ current

/-! ## 3. Calling -/

/-- What an evaluation came to, in words. -/
def outcomeText : Except String Data → String
  | .ok d => d.display
  | .error complaint => "error '" ++ complaint ++ "'"

/-- Whether two evaluations agree: on the result, or on there being none. -/
def agree : Except String Data → Except String Data → Bool
  | .ok a, .ok b => a = b
  | .error _, .error _ => true
  | _, _ => false

/-- Refuses two evaluations that do not agree. -/
def compare (optimized unoptimized : Except String Data) : Except CallError Unit :=
  if agree optimized unoptimized then .ok ()
  else .error (.divergence (outcomeText optimized) (outcomeText unoptimized))

variable [Program P]

/-- What the function makes of a call, as data. -/
def callRaw (f : UserFunc P) (call : Call) : Except CallError Data := do
  let arguments ← f.layout call
  let result := Program.eval f.programs.optimized arguments
  if f.checksDivergence then
    match f.programs.unoptimized with
    | some program => compare result (Program.eval program arguments)
    | none => pure ()
  match result with
  | .ok d => return d
  | .error complaint => throw (.evalFailed complaint)

/-- What the function makes of a call. -/
def call (f : UserFunc P) (call : Call) : Except CallError Value := do
  let d ← f.callRaw call
  match f.signature.returns with
  | none => return .data d
  | some s =>
    match Codec.decode f.network s d with
    | .ok v => return v
    | .error e => throw (.codec e)

end UserFunc

end ScriptBundle

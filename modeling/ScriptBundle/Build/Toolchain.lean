/-
# What a build asks of a language

Sources are not read here.  A build hands each of them to a toolchain, with all that the toolchain
has to know about the other validators, and receives a program; what a program does, and in which
form it is kept, is the toolchain's business.

A toolchain may remember things from one call to the next.  What it remembers is a value that is
handed on from call to call.  While it compiles it may also emit functions for use outside the
scripts; they count even if the compilation then fails.
-/
import ScriptBundle.Address
import ScriptBundle.Data
import ScriptBundle.Digest
import ScriptBundle.NameMap
import ScriptBundle.Schema

namespace ScriptBundle

/-! ## 1. Programs -/

/-- Programs of some language. -/
class Program (P : Type) where
  /-- The hash that a program is known by. -/
  hash : P → Bytes
  /-- What a program makes of its arguments, or the complaint of its evaluation. -/
  eval : P → List Data → Except String Data
  toBytes : P → Bytes

/-- One program, in one or two forms. -/
structure Programs (P : Type) where
  /-- The form whose hash counts. -/
  optimized : P
  /-- The form that says more when it fails. -/
  unoptimized : Option P
deriving DecidableEq

/-- The hash that a program is known by, whatever forms there are of it. -/
def Programs.hash {P : Type} [Program P] (p : Programs P) : Bytes := Program.hash p.optimized

/-- What helps to find out about a program. -/
structure Diagnostics where
  /-- The program in an intermediate form. -/
  ir : Option String
  sourceMap : Option String
deriving DecidableEq, Repr

def Diagnostics.none : Diagnostics := ⟨.none, .none⟩

/-! ## 2. Functions for use outside the scripts -/

structure Argument where
  name : String
  schema : Schema
  /-- Whether it may be left out of a call. -/
  isOptional : Bool
deriving DecidableEq

structure Signature where
  arguments : List Argument
  /-- The form of results; without one they are used as they are. -/
  returns : Option Schema
  requiresContext : Bool
  requiresCurrentValidator : Bool
deriving DecidableEq

/-- A function as it was compiled along with a validator. -/
structure Emission (P : Type) where
  name : String
  programs : Programs P
  diagnostics : Diagnostics
  unoptimizedDiagnostics : Diagnostics
  signature : Signature
deriving DecidableEq

/-! ## 3. Toolchains -/

/-- What a validator that is being compiled may know about a validator of the set. -/
structure Reference where
  name : String
  hashType : Primitive
  index : Nat
  /-- The hash, or nothing as long as it is not to be used. -/
  hash : Bytes
deriving DecidableEq

/-- Whether the hash is not to be used. -/
def Reference.isPlaceholder (r : Reference) : Bool := r.hash.isEmpty

/-- What a toolchain is asked to compile. -/
structure Request where
  name : String
  source : String
  /-- The names and sources of the modules that the source imports. -/
  modules : List (String × String)
  optimize : Bool
  network : Network
  /-- All validators of the set, in the order of their names. -/
  references : List Reference
  ownHash : Option Bytes
  dependsOnOwnHash : Bool
  parameters : NameMap Data
  /-- The functions that need not be emitted, in order. -/
  excluded : List String
deriving DecidableEq

/-- A compiled validator. -/
structure Output (P : Type) where
  program : P
  diagnostics : Diagnostics
deriving DecidableEq

/-- What comes of a request. -/
structure Compilation (P : Type) where
  /-- The functions that were emitted, in that order. -/
  emitted : List (Emission P)
  /-- The program, or the complaint about its source. -/
  outcome : Except String (Output P)

/-- A compiler for some language, and what is needed to use its programs again.  It remembers a
`σ`. -/
structure Toolchain (σ P : Type) where
  version : String
  /-- The version of the form in which it writes programs. -/
  format : String
  compile : Request → σ → Compilation P × σ
  /-- The program that bytes in a form of some version stand for, or why there is none. -/
  load : Bytes → String → σ → Except String P × σ

/-! ## 4. Toolchains that are watched -/

/-- What a toolchain was made to do. -/
structure Activity where
  /-- What it was asked to compile, in that order. -/
  requests : List Request
  /-- How many programs it has loaded. -/
  loads : Nat

def Activity.none : Activity := ⟨[], 0⟩

/-- The toolchain, watched: it does the same and remembers what it was made to do. -/
def Toolchain.watched {σ P : Type} (t : Toolchain σ P) : Toolchain (σ × Activity) P where
  version := t.version
  format := t.format
  compile request s :=
    let (compilation, state) := t.compile request s.1
    (compilation, state, { s.2 with requests := s.2.requests ++ [request] })
  load bytes format s :=
    match t.load bytes format s.1 with
    | (.ok program, state) => (.ok program, state, { s.2 with loads := s.2.loads + 1 })
    | (.error complaint, state) => (.error complaint, state, s.2)

end ScriptBundle

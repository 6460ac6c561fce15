/-
# What a build comes to

A bundle holds the compiled validators of a set and the functions that were emitted along with
them.  It can be written down as a record, with the programs as hexadecimal text, and used again
without compiling anything (`Bundle.ofRecord`).

Nothing in a record is believed.  Programs are loaded by the toolchain, which knows whether it
still understands their form; a validator's hash is compared with its program's; schemas are
checked as they were when the bundle was made.
-/
import ScriptBundle.Build.Error
import ScriptBundle.Build.UserFunc
import ScriptBundle.Store.Record

namespace ScriptBundle

/-! ## 1. Settings and bundles -/

/-- What a build is asked for, apart from the validators. -/
structure BuildOptions where
  network : Network
  /-- Whether to keep what helps to debug, and to compare the forms of functions. -/
  debug : Bool
  /-- The hashes that validators have to have. -/
  expected : NameMap Bytes
  /-- Values for names that occur in sources. -/
  parameters : NameMap Data
deriving DecidableEq

/-- A validator that has been compiled. -/
structure CompiledValidator (P : Type) where
  name : String
  purpose : Purpose
  hash : Bytes
  programs : Programs P
  /-- The version of the form of the programs. -/
  version : String
  redeemer : Codec
  datum : Option Codec
  /-- The hashes that the program embeds. -/
  dependencies : NameMap Bytes
  diagnostics : Diagnostics
  unoptimizedDiagnostics : Diagnostics

/-- The type that the validator's hash has. -/
def CompiledValidator.hashType {P : Type} (v : CompiledValidator P) : Primitive :=
  v.purpose.hashType

structure Bundle (P : Type) where
  key : Digest
  /-- Whether nothing had to be compiled. -/
  fromCache : Bool
  validators : NameMap (CompiledValidator P)
  userFuncs : NameMap (UserFunc P)

/-! ## 2. The record of a bundle -/

section

variable {P : Type} [Program P]

/-- A program, as it is recorded. -/
def programText (p : P) : String := Hex.encode (Program.toBytes p)

/-- Two forms of a program and their diagnostics, as they are recorded. -/
def codeRecord (programs : Programs P) (diagnostics unoptimizedDiagnostics : Diagnostics)
    (version : String) : CodeRecord where
  bytecode := programText programs.optimized
  unoptimizedBytecode := programs.unoptimized.map programText
  ir := diagnostics.ir
  sourceMap := diagnostics.sourceMap
  unoptimizedIr := unoptimizedDiagnostics.ir
  unoptimizedSourceMap := unoptimizedDiagnostics.sourceMap
  version

def CompiledValidator.record (v : CompiledValidator P) : ValidatorRecord where
  purpose := v.purpose.name
  hash := Hex.encode v.hash
  code := codeRecord v.programs v.diagnostics v.unoptimizedDiagnostics v.version
  network := v.redeemer.network
  redeemer := v.redeemer.schema
  datum := v.datum.map (·.schema)
  dependencies := v.dependencies.map fun _ hash => Hex.encode hash

def Argument.record (a : Argument) : ArgumentRecord := ⟨a.name, a.schema, a.isOptional⟩

def UserFunc.record (f : UserFunc P) (version : String) : UserFuncRecord where
  code := codeRecord f.programs f.diagnostics f.unoptimizedDiagnostics version
  arguments := f.signature.arguments.map Argument.record
  returns := f.signature.returns
  requiresContext := f.signature.requiresContext
  requiresCurrentValidator := f.signature.requiresCurrentValidator

/-- The record of a bundle whose functions are in a form of some version. -/
def Bundle.record (b : Bundle P) (debug : Bool) (version : String) : BuildRecord where
  debug
  validators := b.validators.map fun _ v => v.record
  userFuncs := b.userFuncs.map fun _ f => f.record version

end

/-! ## 3. Work that can fail -/

/-- Work on a build that uses a toolchain.  What the toolchain remembers outlasts a failure. -/
abbrev Work (σ α : Type) : Type := EStateM BuildError σ α

namespace Work

variable {σ α β : Type}

/-- Work that is done already, or has failed. -/
def ofResult : Except BuildError α → Work σ α
  | .ok a => pure a
  | .error e => throw e

/-- Work of the toolchain, whose complaints are wrapped. -/
def ofTool (wrap : String → BuildError) (step : σ → Except String α × σ) : Work σ α := fun s =>
  match step s with
  | (.ok a, s) => .ok a s
  | (.error complaint, s) => .error (wrap complaint) s

/-- Work on every entry of a list. -/
def eachEntry (f : String → α → Work σ β) :
    (entries : List (String × α)) →
      Work σ { bs : List (String × β) // bs.map (·.1) = entries.map (·.1) }
  | [] => pure ⟨[], rfl⟩
  | (name, a) :: rest => do
    let b ← f name a
    let ⟨bs, h⟩ ← eachEntry f rest
    return ⟨(name, b) :: bs, by simp [h]⟩

/-- Work on every entry of a map, in the order of names. -/
def onEach (f : String → α → Work σ β) (m : NameMap α) : Work σ (NameMap β) := do
  let ⟨bs, h⟩ ← eachEntry f m.entries
  return m.withNames bs h

/-- The outcome of work, and what the toolchain remembers then. -/
def outcome (work : Work σ α) (s : σ) : Except BuildError α × σ :=
  match work s with
  | .ok a s => (.ok a, s)
  | .error e s => (.error e, s)

end Work

/-! ## 4. The bundle of a record -/

section

variable {σ P : Type} [Program P]

/-- The bytes of a recorded part. -/
def recordedBytes (name part text : String) : Except BuildError Bytes :=
  match Hex.decode text with
  | .ok bytes => .ok bytes
  | .error cause => .error (.corruptRecord (.notHex name part cause))

/-- Binds a schema of a validator to a network. -/
def validatorCodec (name : String) (schema : Schema) (network : Network) :
    Except BuildError Codec :=
  match Codec.ofSchema schema network with
  | .ok codec => .ok codec
  | .error cause => .error (.invalidSchema name cause)

/-- Binds a schema that may be absent. -/
def optionalCodec (name : String) (schema : Option Schema) (network : Network) :
    Except BuildError (Option Codec) :=
  match schema with
  | none => .ok none
  | some s => (validatorCodec name s network).map some

/-- Loads a recorded program. -/
def loadProgram (t : Toolchain σ P) (name version text : String) : Work σ P := do
  let bytes ← Work.ofResult (recordedBytes name "bytecode" text)
  Work.ofTool (.programLoad name) (t.load bytes version)

/-- Loads the recorded forms of a program. -/
def loadPrograms (t : Toolchain σ P) (name : String) (code : CodeRecord) :
    Work σ (Programs P) := do
  let optimized ← loadProgram t name code.version code.bytecode
  match code.unoptimizedBytecode with
  | none => return ⟨optimized, none⟩
  | some text =>
    let unoptimized ← loadProgram t name code.version text
    return ⟨optimized, some unoptimized⟩

namespace CodeRecord

def diagnostics (c : CodeRecord) : Diagnostics := ⟨c.ir, c.sourceMap⟩

def unoptimizedDiagnostics (c : CodeRecord) : Diagnostics :=
  ⟨c.unoptimizedIr, c.unoptimizedSourceMap⟩

end CodeRecord

/-- The purpose in a record. -/
def recordedPurpose (name : String) (r : ValidatorRecord) : Except BuildError Purpose :=
  match Purpose.parse r.purpose with
  | .ok purpose => .ok purpose
  | .error _ => .error (.unknownPurpose name r.purpose)

/-- The compiled validator of a record. -/
def CompiledValidator.ofRecord (t : Toolchain σ P) (name : String) (r : ValidatorRecord) :
    Work σ (CompiledValidator P) := do
  let purpose ← Work.ofResult (recordedPurpose name r)
  let hash ← Work.ofResult (recordedBytes name "hash" r.hash)
  let programs ← loadPrograms t name r.code
  if programs.hash ≠ hash then throw (.corruptRecord (.otherHash name))
  let dependencies ← Work.ofResult (r.dependencies.traverse fun d text => recordedBytes name d text)
  let redeemer ← Work.ofResult (validatorCodec name r.redeemer r.network)
  let datum ← Work.ofResult (optionalCodec name r.datum r.network)
  return {
    name, purpose, hash, programs, redeemer, datum, dependencies
    version := r.code.version
    diagnostics := r.code.diagnostics
    unoptimizedDiagnostics := r.code.unoptimizedDiagnostics }

def ArgumentRecord.argument (a : ArgumentRecord) : Argument := ⟨a.name, a.schema, a.isOptional⟩

def UserFuncRecord.signature (r : UserFuncRecord) : Signature where
  arguments := r.arguments.map ArgumentRecord.argument
  returns := r.returns
  requiresContext := r.requiresContext
  requiresCurrentValidator := r.requiresCurrentValidator

/-- The function of a record, in a build with some settings. -/
def UserFunc.ofRecord (t : Toolchain σ P) (options : BuildOptions) (indices : NameMap Nat)
    (name : String) (r : UserFuncRecord) : Work σ (UserFunc P) := do
  let programs ← loadPrograms t name r.code
  return {
    name, programs, indices
    signature := r.signature
    network := options.network
    checksDivergence := options.debug
    diagnostics := r.code.diagnostics
    unoptimizedDiagnostics := r.code.unoptimizedDiagnostics }

/-- The bundle of a record, in a build with some settings. -/
def Bundle.ofRecord (t : Toolchain σ P) (options : BuildOptions) (indices : NameMap Nat)
    (key : Digest) (r : BuildRecord) : Work σ (Bundle P) := do
  let validators ← Work.onEach (CompiledValidator.ofRecord t) r.validators
  let userFuncs ← Work.onEach (UserFunc.ofRecord t options indices) r.userFuncs
  return { key, fromCache := true, validators, userFuncs }

end

end ScriptBundle

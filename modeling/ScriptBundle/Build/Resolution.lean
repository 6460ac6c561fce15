/-
# The first pass: every hash

In the order of compilation every validator is compiled optimized, and the hash of that program is
final.  The toolchain is told of all validators of the set, but only those that the validator has
declared to embed come with their hash; all others, itself among them, are placeholders.  So what
a program embeds does not depend on which of the possible orders was taken, and a hash that is
used without having been declared is found out every time.

What else the toolchain emits in this pass is dropped.
-/
import ScriptBundle.Build.Bundle

namespace ScriptBundle

/-- A validator whose hash is known. -/
structure Resolved (P : Type) where
  validator : Validator
  program : P
  hash : Bytes
  diagnostics : Diagnostics

namespace BuildOptions

/-- Refuses a hash that is not the expected one, if one is expected. -/
def checkExpected (options : BuildOptions) (name : String) (actual : Bytes) :
    Except BuildError Unit :=
  match options.expected.get? name with
  | some expected =>
    if expected = actual then .ok () else .error (.hashMismatch name expected actual)
  | none => .ok ()

end BuildOptions

namespace ValidatorSet

/-- What a toolchain is told about the validators, with the hashes that are `known` to it. -/
def references (s : ValidatorSet) (known : String → Option Bytes) : List Reference :=
  s.validators.entries.zipIdx.map fun ((name, v), index) =>
    ⟨name, v.purpose.hashType, index, (known name).getD []⟩

/-- The modules that a validator imports, with their sources. -/
def importedModules (s : ValidatorSet) (name : String) (v : Validator) :
    Except BuildError (List (String × String)) :=
  v.modules.mapM fun m =>
    match s.modules.get? m with
    | some source => .ok (m, source)
    | none => .error (.declaration (.unknownModule name m))

end ValidatorSet

variable {σ P : Type}

/-- The request for a validator in the first pass, in which some hashes are `known`. -/
def firstRequest (options : BuildOptions) (set : ValidatorSet) (known : NameMap Bytes)
    (name : String) (v : Validator) (modules : List (String × String)) : Request where
  name
  source := v.source
  modules
  optimize := true
  network := options.network
  references := set.references fun n =>
    if (v.externalDependencies name).contains n then known.get? n else none
  ownHash := none
  dependsOnOwnHash := v.needsOwnHash name
  parameters := options.parameters
  excluded := []

/-- Has a request compiled: the program, and the functions that were emitted. -/
def compileRequest (t : Toolchain σ P) (request : Request) :
    Work σ (Output P × List (Emission P)) :=
  Work.ofTool (.frontend request.name) fun s =>
    let (compilation, s) := t.compile request s
    (compilation.outcome.map (·, compilation.emitted), s)

variable [Program P]

/-- The hashes of what has been resolved. -/
def resolvedHashes (resolved : NameMap (Resolved P)) : NameMap Bytes :=
  resolved.map fun _ r => r.hash

/-- Compiles a validator and finds its hash. -/
def resolve (t : Toolchain σ P) (options : BuildOptions) (set : ValidatorSet)
    (resolved : NameMap (Resolved P)) (name : String) (v : Validator) :
    Work σ (NameMap (Resolved P)) := do
  let modules ← Work.ofResult (set.importedModules name v)
  let request := firstRequest options set (resolvedHashes resolved) name v modules
  let (output, _) ← compileRequest t request
  let hash := Program.hash output.program
  Work.ofResult (options.checkExpected name hash)
  return resolved.insert name ⟨v, output.program, hash, output.diagnostics⟩

/-- Resolves validators in some order, when others have been resolved already. -/
def resolveFrom (t : Toolchain σ P) (options : BuildOptions) (set : ValidatorSet)
    (resolved : NameMap (Resolved P)) : (order : List String) → Work σ (NameMap (Resolved P))
  | [] => return resolved
  | name :: rest => do
    match set.validators.get? name with
    | some v =>
      let resolved ← resolve t options set resolved name v
      resolveFrom t options set resolved rest
    | none => resolveFrom t options set resolved rest

/-- Resolves validators in some order. -/
def resolveAll (t : Toolchain σ P) (options : BuildOptions) (set : ValidatorSet)
    (order : List String) : Work σ (NameMap (Resolved P)) :=
  resolveFrom t options set .empty order

end ScriptBundle

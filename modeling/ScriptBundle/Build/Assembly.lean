/-
# The second pass: the bundle

With every hash known, every validator is compiled again in the order of names, not optimized this
time and with its own hash, and the functions that the toolchain emits meanwhile are gathered.  A
function is gathered once, from the first validator that it is emitted along with; the toolchain
is told which ones need not be emitted any more, and one that is emitted all the same is dropped.

The schemas of validators are checked here, each when its validator has been compiled.
-/
import ScriptBundle.Build.Resolution

namespace ScriptBundle

variable {σ P : Type}

/-! ## 1. Gathering functions -/

/-- The gathered functions with those that were emitted lately; the first of a name stays. -/
def gather (gathered : NameMap (Emission P)) (emitted : List (Emission P)) :
    NameMap (Emission P) :=
  emitted.foldl (fun g e => if g.contains e.name then g else g.insert e.name e) gathered

namespace BuildOptions

/-- Diagnostics, if they are to be kept. -/
def keep (options : BuildOptions) (d : Diagnostics) : Diagnostics :=
  if options.debug then d else .none

/-- The function that was emitted under a name. -/
def userFunc (options : BuildOptions) (indices : NameMap Nat) (name : String) (e : Emission P) :
    UserFunc P where
  name
  programs := e.programs
  signature := e.signature
  indices
  network := options.network
  checksDivergence := options.debug
  diagnostics := options.keep e.diagnostics
  unoptimizedDiagnostics := options.keep e.unoptimizedDiagnostics

end BuildOptions

/-! ## 2. Compiling again -/

/-- The request for a validator in the second pass, in which all hashes are known. -/
def secondRequest (options : BuildOptions) (set : ValidatorSet) (hashes : NameMap Bytes)
    (excluded : List String) (name : String) (r : Resolved P) (modules : List (String × String)) :
    Request where
  name
  source := r.validator.source
  modules
  optimize := false
  network := options.network
  references := set.references hashes.get?
  ownHash := some r.hash
  dependsOnOwnHash := r.validator.needsOwnHash name
  parameters := options.parameters
  excluded

/-- The hashes that a validator embeds. -/
def embeddedHashes (hashes : NameMap Bytes) (v : Validator) : NameMap Bytes :=
  .ofList (v.hashDependencies.filterMap fun d => (hashes.get? d).map (d, ·))

/-- Compiles a validator again: the whole validator, and the functions that were emitted. -/
def assemble (t : Toolchain σ P) (options : BuildOptions) (set : ValidatorSet)
    (hashes : NameMap Bytes) (excluded : List String) (name : String) (r : Resolved P) :
    Work σ (CompiledValidator P × List (Emission P)) := do
  let v := r.validator
  let modules ← Work.ofResult (set.importedModules name v)
  let (output, emitted) ←
    compileRequest t (secondRequest options set hashes excluded name r modules)
  let redeemer ← Work.ofResult (validatorCodec name v.redeemer options.network)
  let datum ← Work.ofResult (optionalCodec name v.datum options.network)
  return ({
    name, redeemer, datum
    purpose := v.purpose
    hash := r.hash
    programs := ⟨r.program, some output.program⟩
    version := t.format
    dependencies := embeddedHashes hashes v
    diagnostics := options.keep r.diagnostics
    unoptimizedDiagnostics := options.keep output.diagnostics }, emitted)

/-- Compiles validators again, when functions have been gathered from others already. -/
def assembleFrom (t : Toolchain σ P) (options : BuildOptions) (set : ValidatorSet)
    (hashes : NameMap Bytes) :
    NameMap (Emission P) → (entries : List (String × Resolved P)) →
      Work σ ({ vs : List (String × CompiledValidator P) // vs.map (·.1) = entries.map (·.1) }
        × NameMap (Emission P))
  | gathered, [] => return (⟨[], rfl⟩, gathered)
  | gathered, (name, r) :: rest => do
    let (v, emitted) ← assemble t options set hashes gathered.names name r
    let (⟨vs, h⟩, gathered) ← assembleFrom t options set hashes (gather gathered emitted) rest
    return (⟨(name, v) :: vs, by simp [h]⟩, gathered)

variable [Program P]

/-- The bundle of resolved validators. -/
def assembleAll (t : Toolchain σ P) (options : BuildOptions) (set : ValidatorSet) (key : Digest)
    (resolved : NameMap (Resolved P)) : Work σ (Bundle P) := do
  let (⟨vs, h⟩, gathered) ←
    assembleFrom t options set (resolvedHashes resolved) .empty resolved.entries
  return {
    key
    fromCache := false
    validators := resolved.withNames vs h
    userFuncs := gathered.map (options.userFunc set.indices) }

end ScriptBundle

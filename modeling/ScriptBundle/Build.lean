/-
# Building a set of validators

Validators embed each other's hashes, and a hash is known only when what it is the hash of has been
compiled.  A build goes over the set twice: once in the order of dependencies to find the hashes,
once more with all of them known (`compileSet`).

A build has a key, the digest of all that its outcome depends on.  With a cache, a build of a known
key is restored from its record instead, and a build that has succeeded is stored.

Everything that can be told from the declarations is refused before the cache is asked or anything
is compiled.  Expected hashes are enforced in either case.
-/
import ScriptBundle.Build.Assembly
import ScriptBundle.Build.Order
import ScriptBundle.Store.Cache
import ScriptBundle.Store.Key

namespace ScriptBundle

variable {σ κ P : Type}

/-! ## 1. The key -/

/-- All that the outcome of a build depends on. -/
def keyInputs (t : Toolchain σ P) (set : ValidatorSet) (options : BuildOptions) : KeyInputs where
  compilerVersion := t.version
  debug := options.debug
  mainnet := options.network.isMainnet
  validators := set.validators.entries.map fun (name, v) => {
    name
    source := v.source
    purpose := v.purpose.name
    modules := v.modules
    hashDependencies := v.hashDependencies
    dependsOnOwnHash := v.dependsOnOwnHash
    redeemer := v.redeemer
    datum := v.datum }
  modules := set.modules.entries
  parameters := options.parameters.entries

/-- The key of a build. -/
def buildKey (t : Toolchain σ P) (set : ValidatorSet) (options : BuildOptions) : Digest :=
  (keyInputs t set options).key

/-! ## 2. Compiling and restoring -/

/-- Refuses what can be told from the declarations and settings alone. -/
def checkDeclared (set : ValidatorSet) (options : BuildOptions) : Except BuildError Unit :=
  match set.check with
  | .error flaw => .error (.declaration flaw)
  | .ok () =>
    match options.expected.names.find? fun name => !set.validators.contains name with
    | some name => .error (.unknownValidator name)
    | none => .ok ()

/-- The order of compilation. -/
def compilationOrder (set : ValidatorSet) : Except BuildError (List String) :=
  match set.strayDependency? with
  | some (name, dependency) => .error (.declaration (.unknownDependency name dependency))
  | none =>
    match set.hashOrder with
    | .ok order => .ok order
    | .error members => .error (.dependencyCycle members)

variable [Program P]

/-- The bundle of a set, by compiling it. -/
def compileSet (t : Toolchain σ P) (set : ValidatorSet) (options : BuildOptions) :
    Work σ (Bundle P) := do
  let order ← Work.ofResult (compilationOrder set)
  let resolved ← resolveAll t options set order
  assembleAll t options set (buildKey t set options) resolved

/-- Refuses a bundle in which a hash is not the expected one. -/
def checkHashes (options : BuildOptions) (b : Bundle P) : Except BuildError Unit :=
  b.validators.values.forM fun v => options.checkExpected v.name v.hash

/-- The bundle of a set, from its record. -/
def restoreSet (t : Toolchain σ P) (set : ValidatorSet) (options : BuildOptions)
    (record : BuildRecord) : Work σ (Bundle P) := do
  let bundle ← Bundle.ofRecord t options set.indices (buildKey t set options) record
  Work.ofResult (checkHashes options bundle)
  return bundle

/-! ## 3. Building -/

/-- What comes of a build: the bundle or why there is none, the cache, and what the toolchain
remembers. -/
structure BuildRun (σ κ P : Type) where
  outcome : Except BuildError (Bundle P)
  cache : Option (Cache κ)
  state : σ

variable [Backend κ]

/-- A compiled bundle if its record could be put into a cache, and the cache afterwards. -/
def storeBundle (t : Toolchain σ P) (options : BuildOptions) (c : Cache κ) (b : Bundle P) :
    Except BuildError (Bundle P) × Cache κ :=
  match c.store b.key (b.record options.debug t.format) with
  | (.ok (), c) => (.ok b, c)
  | (.error cause, c) => (.error (.store cause), c)

/-- Builds a set of validators, with a cache or without one. -/
def build (t : Toolchain σ P) (set : ValidatorSet) (options : BuildOptions)
    (cache : Option (Cache κ)) (s : σ) : BuildRun σ κ P :=
  match checkDeclared set options with
  | .error e => ⟨.error e, cache, s⟩
  | .ok () =>
    match cache with
    | none =>
      let (outcome, s) := (compileSet t set options).outcome s
      ⟨outcome, none, s⟩
    | some c =>
      match c.lookup (buildKey t set options) with
      | (some record, c) =>
        let (outcome, s) := (restoreSet t set options record).outcome s
        ⟨outcome, some c, s⟩
      | (none, c) =>
        match (compileSet t set options).outcome s with
        | (.error e, s) => ⟨.error e, some c, s⟩
        | (.ok bundle, s) =>
          let (outcome, c) := storeBundle t options c bundle
          ⟨outcome, some c, s⟩

end ScriptBundle

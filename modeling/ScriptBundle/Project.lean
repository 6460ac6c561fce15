/-
# Projects

A project is a folder with a configuration and the sources that it names.  Loading it gives all
that a build needs: the set of validators with their sources, the settings, and the cache that the
configuration asks for.

Paths in a configuration lead on from the project's folder.  Sources have to be text.
-/
import ScriptBundle.Build
import ScriptBundle.Config

namespace ScriptBundle

structure Project where
  /-- The path of the folder. -/
  root : String
  set : ValidatorSet
  options : BuildOptions
  cache : Option (Cache AnyStore)

namespace Project

/-- The name of the configuration in a project's folder. -/
def configName : String := "plinth.toml"

/-- Why a project cannot be loaded. -/
inductive Error
  | config (cause : Config.Error)
  /-- A source cannot be read; its path leads on from the project's folder. -/
  | unreadable (path : String)
  | unknownPurpose (validator purpose : String)

/-- The complaint in words. -/
def Error.message : Error → String
  | .config cause => cause.message
  | .unreadable path => "failed to read " ++ path
  | .unknownPurpose validator purpose => (BuildError.unknownPurpose validator purpose).message

/-! ## 1. Reading -/

/-- The text of a file. -/
def readText (tree : FileTree) (path : String) : Option String :=
  (tree.read path).toOption.bind Bytes.toText?

/-- The configuration of the project in a folder. -/
def readConfig (tree : FileTree) (root : String) : Except Error Config :=
  match readText tree (FileTree.join root configName) with
  | none => .error (.config .unreadable)
  | some text =>
    match Config.parse text with
    | .ok c => .ok c
    | .error cause => .error (.config cause)

/-- The source at a path that leads on from the project's folder. -/
def readSource (tree : FileTree) (root path : String) : Except Error String :=
  match readText tree (FileTree.join root path) with
  | some text => .ok text
  | none => .error (.unreadable path)

/-- The declaration of a validator, with its source read. -/
def readValidator (tree : FileTree) (root name : String) (v : ValidatorConfig) :
    Except Error Validator :=
  match Purpose.parse v.purpose with
  | .error _ => .error (.unknownPurpose name v.purpose)
  | .ok purpose =>
    match readSource tree root v.source with
    | .error cause => .error cause
    | .ok source => .ok {
        purpose, source
        modules := v.modules
        hashDependencies := v.hashDependencies
        dependsOnOwnHash := v.dependsOnOwnHash
        redeemer := v.redeemer
        datum := v.datum }

/-- The bytes of an expected hash. -/
def readHash (name text : String) : Except Error Bytes :=
  match Hex.decode text with
  | .ok bytes => .ok bytes
  | .error cause => .error (.config (.badHash name cause))

/-! ## 2. Loading -/

/-- The cache that a configuration asks for. -/
def cacheOf (tree : FileTree) (root : String) (c : CacheConfig) : Option (Cache AnyStore) :=
  if !c.enabled then none
  else if c.positional then some .replay
  else
    match c.folder with
    | some folder => some (.keyed (.folder ⟨tree, FileTree.join root folder⟩))
    | none => some (.keyed (.memory .empty))

/-- The project of a configuration. -/
def ofConfig (tree : FileTree) (root : String) (c : Config) : Except Error Project := do
  let modules ← c.modules.traverse fun _ path => readSource tree root path
  let validators ← c.validators.traverse (readValidator tree root)
  let expected ← c.expected.traverse readHash
  return {
    root
    set := ⟨validators, modules⟩
    options := { network := c.network, debug := c.debug, expected, parameters := .empty }
    cache := cacheOf tree root c.cache }

/-- Loads the project in a folder. -/
def load (tree : FileTree) (root : String) : Except Error Project := do
  ofConfig tree root (← readConfig tree root)

/-! ## 3. Building -/

variable {σ P : Type} [Program P]

/-- Builds a project with its own cache. -/
def build (p : Project) (t : Toolchain σ P) (s : σ) : BuildRun σ AnyStore P :=
  ScriptBundle.build t p.set p.options p.cache s

/-- The project after a build, with what was stored then. -/
def afterBuild (p : Project) (run : BuildRun σ AnyStore P) : Project :=
  { p with cache := run.cache }

/-- The tree of files after builds that may have stored something in it. -/
def treeAfter (p : Project) (tree : FileTree) : FileTree :=
  match p.cache with
  | some (.keyed (.folder store)) => store.tree
  | _ => tree

end Project

end ScriptBundle

/-
# The configuration of a project

A project says in a file which validators it has, where their sources are, and how they are to be
built.  The file is TOML; what it leaves out has a default, and what nobody knows is skipped.

A configuration that can be read may still be of no use.  `Config.check` finds that before anything
is built on it: names and paths that are empty, schemas that are not well formed, and expected
hashes that are no hashes or are of no validator.
-/
import ScriptBundle.Address
import ScriptBundle.Document.Part
import ScriptBundle.Schema.Document
import ScriptBundle.Schema.WellFormed
import ScriptBundle.Toml

namespace ScriptBundle

/-! ## 1. What a configuration says -/

structure CacheConfig where
  enabled : Bool
  /-- The folder to keep finished builds in. -/
  folder : Option String
  positional : Bool
deriving DecidableEq

/-- The declaration of a validator. -/
structure ValidatorConfig where
  purpose : String
  /-- The path of the source. -/
  source : String
  modules : List String
  hashDependencies : List String
  dependsOnOwnHash : Bool
  redeemer : Schema
  datum : Option Schema
deriving DecidableEq

structure Config where
  network : Network
  debug : Bool
  cache : CacheConfig
  /-- The hashes that validators have to have, in hexadecimal. -/
  expected : NameMap String
  /-- The paths of the modules. -/
  modules : NameMap String
  validators : NameMap ValidatorConfig
deriving DecidableEq

namespace Config

/-! ## 2. Errors -/

/-- Why there is no configuration. -/
inductive Error
  | unreadable
  /-- It is no TOML, or not the TOML of a configuration. -/
  | malformed
  | missingModulePath (name : String)
  | missingSource (validator : String)
  | missingPurpose (validator : String)
  | emptyModuleName
  | emptyValidatorName
  | redeemer (validator : String) (cause : Schema.Defect)
  | datum (validator : String) (cause : Schema.Defect)
  /-- A hash is expected of a validator that is not declared. -/
  | unknownValidator (validator : String)
  | notHex (validator text : String)
  /-- A hash that has to be used is not hexadecimal. -/
  | badHash (validator : String) (cause : Hex.Error)

/-- The complaint in words. -/
def Error.message : Error → String
  | .unreadable => "cannot read plinth.toml"
  | .malformed => "invalid plinth.toml"
  | .missingModulePath name => missing ("modules." ++ name)
  | .missingSource validator => missing ("validators." ++ validator ++ ".source")
  | .missingPurpose validator => missing ("validators." ++ validator ++ ".purpose")
  | .emptyModuleName => invalid "empty module name"
  | .emptyValidatorName => invalid "empty validator name"
  | .redeemer validator cause =>
    invalid ("validators." ++ validator ++ ".redeemer: " ++ cause.message)
  | .datum validator cause => invalid ("validators." ++ validator ++ ".datum: " ++ cause.message)
  | .unknownValidator validator =>
    invalid ("expected hash for unknown validator '" ++ validator ++ "'")
  | .notHex validator text =>
    invalid ("expected hash for '" ++ validator ++ "' is not valid hex: '" ++ text ++ "'")
  | .badHash validator cause =>
    invalid ("expected hash for '" ++ validator ++ "': " ++ cause.message)
where
  missing (field : String) : String := "missing required field: " ++ field
  invalid (what : String) : String := "validation error: " ++ what

/-! ## 3. Reading -/

/-- The parts of a record, which may be given as a list with more behind them. -/
def parts? (names : List String) : Document → Option (List (Option Document))
  | .list items => Document.parts? names (.list (items.take names.length))
  | d => d.parts? names

open Document (required? defaulted? optional? nameMap?)

def texts? (d : Document) : Option (List String) :=
  d.list?.bind fun items => items.mapM Document.text?

def schema? : Document → Option Schema := Schema.ofDocument? false

/-- The network and whether to keep what helps to debug. -/
def build? (d : Document) : Option (Network × Bool) := do
  let [mainnet, debug] ← parts? ["is_mainnet", "debug"] d | none
  return (Network.ofFlag (← defaulted? false Document.bool? mainnet),
    ← defaulted? false Document.bool? debug)

def cache? (d : Document) : Option CacheConfig := do
  let [enabled, folder, positional] ← parts? ["enabled", "dir", "positional"] d | none
  return {
    enabled := ← defaulted? true Document.bool? enabled
    folder := ← optional? Document.text? folder
    positional := ← defaulted? false Document.bool? positional }

def validator? (d : Document) : Option ValidatorConfig := do
  let [purpose, source, modules, hashDependencies, dependsOnOwnHash, redeemer, datum] ←
    parts? ["purpose", "source", "modules", "hash_dependencies", "depends_on_own_hash",
      "redeemer", "datum"] d | none
  return {
    purpose := ← required? Document.text? purpose
    source := ← required? Document.text? source
    modules := ← defaulted? [] texts? modules
    hashDependencies := ← defaulted? [] texts? hashDependencies
    dependsOnOwnHash := ← defaulted? false Document.bool? dependsOnOwnHash
    redeemer := ← required? schema? redeemer
    datum := ← optional? schema? datum }

/-- The configuration in a document. -/
def ofDocument? (d : Document) : Option Config := do
  let [build, cache, expected, modules, validators] ←
    parts? ["build", "cache", "expected_hashes", "modules", "validators"] d | none
  let (network, debug) ← defaulted? (Network.ofFlag false, false) build? build
  return {
    network, debug
    cache := ← defaulted? ⟨true, none, false⟩ cache? cache
    expected := ← defaulted? .empty (nameMap? Document.text?) expected
    modules := ← defaulted? .empty (nameMap? Document.text?) modules
    validators := ← defaulted? .empty (nameMap? validator?) validators }

/-! ## 4. Checking -/

/-- Refuses something for a cause. -/
def refuseIf (condition : Bool) (cause : Error) : Except Error Unit :=
  if condition then .error cause else .ok ()

def checkModule (name path : String) : Except Error Unit := do
  refuseIf (name = "") .emptyModuleName
  refuseIf (path = "") (.missingModulePath name)

def checkSchema (cause : Schema.Defect → Error) (s : Schema) : Except Error Unit :=
  match s.check with
  | .ok () => .ok ()
  | .error defect => .error (cause defect)

def checkValidator (name : String) (v : ValidatorConfig) : Except Error Unit := do
  refuseIf (name = "") .emptyValidatorName
  refuseIf (v.source = "") (.missingSource name)
  refuseIf (v.purpose = "") (.missingPurpose name)
  checkSchema (.redeemer name) v.redeemer
  match v.datum with
  | some datum => checkSchema (.datum name) datum
  | none => pure ()

def checkExpected (c : Config) (name text : String) : Except Error Unit := do
  refuseIf (!c.validators.contains name) (.unknownValidator name)
  refuseIf (Hex.decode? text).isNone (.notHex name text)

/-- Refuses a configuration that is of no use. -/
def check (c : Config) : Except Error Unit := do
  c.modules.entries.forM fun (name, path) => checkModule name path
  c.validators.entries.forM fun (name, v) => checkValidator name v
  c.expected.entries.forM fun (name, text) => c.checkExpected name text

/-- The configuration in a text. -/
def parse (text : String) : Except Error Config :=
  match (Toml.read text).bind ofDocument? with
  | none => .error .malformed
  | some c =>
    match c.check with
    | .ok () => .ok c
    | .error cause => .error cause

end Config

end ScriptBundle

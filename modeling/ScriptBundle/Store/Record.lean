/-
# Records of finished builds

A record is a finished build written down: programs as hexadecimal text together with the version
of the format they are in, and beside them all that is needed to use them again.  Nothing in a
record has been checked; that is done when a build is restored from it.

A record is stored as JSON.  Parts that are absent are left out, and whoever reads a record takes
a missing part and a null for the same where the part may be absent, fills in what has a default,
and skips entries it does not know, whose strings need not even be texts.
-/
import ScriptBundle.Document.Part
import ScriptBundle.Schema.Document
import ScriptBundle.Address
import ScriptBundle.Data.Json

namespace ScriptBundle

/-! ## 1. What a record holds -/

/-- The programs of one validator or function, and what was kept to debug them. -/
structure CodeRecord where
  /-- The optimized program. -/
  bytecode : String
  unoptimizedBytecode : Option String
  ir : Option String
  sourceMap : Option String
  unoptimizedIr : Option String
  unoptimizedSourceMap : Option String
  /-- The version of the format that the programs are in. -/
  version : String
deriving DecidableEq

structure ValidatorRecord where
  purpose : String
  hash : String
  code : CodeRecord
  /-- The network that redeemer and datum are for. -/
  network : Network
  redeemer : Schema
  datum : Option Schema
  /-- The hashes that went into the program, by the validators they are of. -/
  dependencies : NameMap String
deriving DecidableEq

structure ArgumentRecord where
  name : String
  schema : Schema
  isOptional : Bool
deriving DecidableEq

structure UserFuncRecord where
  code : CodeRecord
  arguments : List ArgumentRecord
  returns : Option Schema
  requiresContext : Bool
  requiresCurrentValidator : Bool
deriving DecidableEq

/-- A finished build. -/
structure BuildRecord where
  /-- Whether what helps to debug was kept. -/
  debug : Bool
  validators : NameMap ValidatorRecord
  userFuncs : NameMap UserFuncRecord
deriving DecidableEq

/-! ## 2. Writing -/

namespace CodeRecord

def entries (c : CodeRecord) : List (String × Document) :=
  ("bytecode", .ofText c.bytecode)
    :: Document.entryOf "unoptimized_bytecode" .ofText c.unoptimizedBytecode
    ++ Document.entryOf "ir" .ofText c.ir
    ++ Document.entryOf "source_map" .ofText c.sourceMap
    ++ Document.entryOf "unoptimized_ir" .ofText c.unoptimizedIr
    ++ Document.entryOf "unoptimized_source_map" .ofText c.unoptimizedSourceMap
    ++ [("version", .ofText c.version)]

end CodeRecord

def ValidatorRecord.toDocument (v : ValidatorRecord) : Document :=
  .ofEntries
    ([("purpose", .ofText v.purpose), ("hash", .ofText v.hash)]
      ++ v.code.entries
      ++ [("codec", .ofEntries [("is_mainnet", .bool v.network.isMainnet)]),
        ("redeemer", v.redeemer.toDocument)]
      ++ Document.entryOf "datum" Schema.toDocument v.datum
      ++ [("dependencies", .ofNameMap .ofText v.dependencies)])

def ArgumentRecord.toDocument (a : ArgumentRecord) : Document :=
  .ofEntries [("name", .ofText a.name), ("schema", a.schema.toDocument),
    ("optional", .bool a.isOptional)]

def UserFuncRecord.toDocument (f : UserFuncRecord) : Document :=
  .ofEntries
    (f.code.entries
      ++ [("arguments", .list (f.arguments.map ArgumentRecord.toDocument))]
      ++ Document.entryOf "returns" Schema.toDocument f.returns
      ++ [("requires_context", .bool f.requiresContext),
        ("requires_current_validator", .bool f.requiresCurrentValidator)])

namespace BuildRecord

def toDocument (r : BuildRecord) : Document :=
  .ofEntries [("debug", .bool r.debug),
    ("validators", .ofNameMap ValidatorRecord.toDocument r.validators),
    ("user_funcs", .ofNameMap UserFuncRecord.toDocument r.userFuncs)]

/-- The JSON text of a record. -/
def toJson (r : BuildRecord) : String := Json.write r.toDocument

/-- The bytes that a record is stored as. -/
def toBytes (r : BuildRecord) : Bytes := Bytes.ofText r.toJson

end BuildRecord

/-! ## 3. Reading -/

namespace Document

/-- The network that a table names. -/
def network? (d : Document) : Option Network := do
  let [mainnet] ← d.parts? ["is_mainnet"] | none
  return Network.ofFlag (← required? bool? mainnet)

end Document

open Document

/-- How deep schemas of validators and results may be nested: three tables enclose them. -/
def BuildRecord.schemaDepth : Nat := textDepth - 3

/-- How deep schemas of arguments may be nested: five lists and tables enclose them. -/
def BuildRecord.argumentDepth : Nat := textDepth - 5

def ValidatorRecord.ofDocument? (d : Document) : Option ValidatorRecord := do
  let [purpose, hash, bytecode, unoptimizedBytecode, ir, sourceMap, unoptimizedIr,
      unoptimizedSourceMap, version, codec, redeemer, datum, dependencies] ←
    d.parts? ["purpose", "hash", "bytecode", "unoptimized_bytecode", "ir", "source_map",
      "unoptimized_ir", "unoptimized_source_map", "version", "codec", "redeemer", "datum",
      "dependencies"] | none
  let schema := Schema.ofJsonDocument? BuildRecord.schemaDepth
  return {
    purpose := ← required? text? purpose
    hash := ← required? text? hash
    code := {
      bytecode := ← required? text? bytecode
      unoptimizedBytecode := ← optional? text? unoptimizedBytecode
      ir := ← optional? text? ir
      sourceMap := ← optional? text? sourceMap
      unoptimizedIr := ← optional? text? unoptimizedIr
      unoptimizedSourceMap := ← optional? text? unoptimizedSourceMap
      version := ← required? text? version }
    network := ← required? network? codec
    redeemer := ← required? schema redeemer
    datum := ← optional? schema datum
    dependencies := ← defaulted? .empty (nameMap? text?) dependencies }

def ArgumentRecord.ofDocument? (d : Document) : Option ArgumentRecord := do
  let [name, schema, isOptional] ← d.parts? ["name", "schema", "optional"] | none
  return {
    name := ← required? text? name
    schema := ← required? (Schema.ofJsonDocument? BuildRecord.argumentDepth) schema
    isOptional := ← defaulted? false bool? isOptional }

def argumentRecords? (d : Document) : Option (List ArgumentRecord) :=
  d.list?.bind fun items => items.mapM ArgumentRecord.ofDocument?

def UserFuncRecord.ofDocument? (d : Document) : Option UserFuncRecord := do
  let [bytecode, unoptimizedBytecode, ir, sourceMap, unoptimizedIr, unoptimizedSourceMap, version,
      arguments, returns, requiresContext, requiresCurrentValidator] ←
    d.parts? ["bytecode", "unoptimized_bytecode", "ir", "source_map", "unoptimized_ir",
      "unoptimized_source_map", "version", "arguments", "returns", "requires_context",
      "requires_current_validator"] | none
  return {
    code := {
      bytecode := ← required? text? bytecode
      unoptimizedBytecode := ← optional? text? unoptimizedBytecode
      ir := ← optional? text? ir
      sourceMap := ← optional? text? sourceMap
      unoptimizedIr := ← optional? text? unoptimizedIr
      unoptimizedSourceMap := ← optional? text? unoptimizedSourceMap
      version := ← required? text? version }
    arguments := ← required? argumentRecords? arguments
    returns := ← optional? (Schema.ofJsonDocument? BuildRecord.schemaDepth) returns
    requiresContext := ← defaulted? false bool? requiresContext
    requiresCurrentValidator := ← defaulted? false bool? requiresCurrentValidator }

namespace BuildRecord

def ofDocument? (d : Document) : Option BuildRecord := do
  let [debug, validators, userFuncs] ← d.parts? ["debug", "validators", "user_funcs"] | none
  return {
    debug := ← required? bool? debug
    validators := ← required? (nameMap? ValidatorRecord.ofDocument?) validators
    userFuncs := ← defaulted? .empty (nameMap? UserFuncRecord.ofDocument?) userFuncs }

/-- The record of a JSON text. -/
def ofJson? (text : String) : Option BuildRecord := (Json.read text).bind ofDocument?

/-- The record that bytes store. -/
def ofBytes? (bytes : Bytes) : Option BuildRecord := (Json.readBytes bytes).bind ofDocument?

@[simp] theorem ofBytes?_ofText (text : String) : ofBytes? (Bytes.ofText text) = ofJson? text := by
  rw [ofBytes?, Json.readBytes_ofText, ofJson?]

end BuildRecord

end ScriptBundle

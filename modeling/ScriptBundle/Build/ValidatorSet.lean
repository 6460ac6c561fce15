/-
# Sets of validators

A set declares validators and the modules that they import.  Validators and modules are found by
name and numbered by the order of their names, whatever order they were declared in; a second
declaration of a name takes the place of the first.

A validator may embed hashes of others, and its own.  Which ones it means to embed it declares; the
declaration is what the order of compilation follows, so it has to hold together before anything
is compiled (`ValidatorSet.check`).
-/
import ScriptBundle.NameMap
import ScriptBundle.Schema
import ScriptBundle.Build.Purpose

namespace ScriptBundle

/-! ## 1. Declarations -/

/-- The declaration of a validator, apart from its name. -/
structure Validator where
  purpose : Purpose
  source : String
  /-- The modules it imports. -/
  modules : List String
  /-- The validators whose hashes it embeds; it may list itself, and others more than once. -/
  hashDependencies : List String
  dependsOnOwnHash : Bool
  redeemer : Schema
  datum : Option Schema
deriving DecidableEq

namespace Validator

/-- Whether the validator of this declaration and name needs its own hash. -/
def needsOwnHash (v : Validator) (name : String) : Bool :=
  v.dependsOnOwnHash || v.hashDependencies.contains name

/-- The other validators whose hashes it embeds, as it lists them. -/
def externalDependencies (v : Validator) (name : String) : List String :=
  v.hashDependencies.filter (· ≠ name)

end Validator

structure ValidatorSet where
  validators : NameMap Validator
  /-- The sources of the modules. -/
  modules : NameMap String
deriving DecidableEq

namespace ValidatorSet

def empty : ValidatorSet := ⟨.empty, .empty⟩

instance : Inhabited ValidatorSet := ⟨empty⟩

def insert (s : ValidatorSet) (name : String) (v : Validator) : ValidatorSet :=
  { s with validators := s.validators.insert name v }

def insertModule (s : ValidatorSet) (name source : String) : ValidatorSet :=
  { s with modules := s.modules.insert name source }

def size (s : ValidatorSet) : Nat := s.validators.size

/-- The position of every validator in the order of names. -/
def indices (s : ValidatorSet) : NameMap Nat := s.validators.indices

/-! ## 2. Declarations that hold together -/

/-- Why declarations do not hold together. -/
inductive Flaw
  /-- What is spent carries a datum, and the validator does not say of which form. -/
  | missingDatum (validator : String)
  | unknownModule (validator module : String)
  | unknownDependency (validator dependency : String)
deriving DecidableEq, Repr

/-- The complaint in words. -/
def Flaw.message : Flaw → String
  | .missingDatum validator => "spending validator '" ++ validator ++ "' has no datum type"
  | .unknownModule validator module =>
    "validator '" ++ validator ++ "' imports unknown module '" ++ module ++ "'"
  | .unknownDependency validator dependency =>
    "validator '" ++ validator ++ "' depends on the hash of unknown validator '" ++ dependency
      ++ "'"

/-- What is wrong with one declaration, the first thing if there are several. -/
def flaw? (s : ValidatorSet) (name : String) (v : Validator) : Option Flaw :=
  if v.purpose = .spending ∧ v.datum = none then some (.missingDatum name)
  else
    match v.modules.find? fun m => !s.modules.contains m with
    | some m => some (.unknownModule name m)
    | none =>
      (v.hashDependencies.find? fun d => !s.validators.contains d).map (.unknownDependency name)

/-- Refuses declarations that do not hold together, with what is wrong with the first validator
that anything is wrong with. -/
def check (s : ValidatorSet) : Except Flaw Unit :=
  match s.validators.entries.findSome? fun (name, v) => s.flaw? name v with
  | some flaw => .error flaw
  | none => .ok ()

end ValidatorSet

end ScriptBundle

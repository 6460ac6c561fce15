/-
# Primitive types

The closed set of types whose encoding is fixed once and for all.  A primitive has two names: the
one people read, and a keyword, its lower-case form, that stands for it in documents.  Keywords
are distinct, so a primitive is read back from its own (`ofKeyword?_keyword`).
-/

namespace ScriptBundle

/-- A type with a fixed encoding rule. -/
inductive Primitive
  | bool
  | int
  /-- A decimal with six places. -/
  | real
  | byteArray
  | string
  /-- Milliseconds since the epoch. -/
  | time
  /-- Milliseconds. -/
  | duration
  /-- Any data tree. -/
  | data
  | pubKeyHash
  | validatorHash
  | mintingPolicyHash
  | stakingValidatorHash
  /-- The hash of a script of any purpose. -/
  | scriptHash
  | datumHash
  | txId
  /-- A transaction and the position of one of its outputs. -/
  | txOutputId
  | credential
  | stakingHash
  | stakingCredential
  | address
  /-- A minting policy and a token name. -/
  | assetClass
  /-- Amounts by minting policy and token name. -/
  | value
  /-- A fraction whose bottom is not zero. -/
  | ratio
deriving DecidableEq, Repr, Inhabited

namespace Primitive

/-- Every primitive, in the order of declaration. -/
def all : List Primitive :=
  [.bool, .int, .real, .byteArray, .string, .time, .duration, .data, .pubKeyHash, .validatorHash,
   .mintingPolicyHash, .stakingValidatorHash, .scriptHash, .datumHash, .txId, .txOutputId,
   .credential, .stakingHash, .stakingCredential, .address, .assetClass, .value, .ratio]

/-- The name for people. -/
def name : Primitive → String
  | .bool => "Bool"
  | .int => "Int"
  | .real => "Real"
  | .byteArray => "ByteArray"
  | .string => "String"
  | .time => "Time"
  | .duration => "Duration"
  | .data => "Data"
  | .pubKeyHash => "PubKeyHash"
  | .validatorHash => "ValidatorHash"
  | .mintingPolicyHash => "MintingPolicyHash"
  | .stakingValidatorHash => "StakingValidatorHash"
  | .scriptHash => "ScriptHash"
  | .datumHash => "DatumHash"
  | .txId => "TxId"
  | .txOutputId => "TxOutputId"
  | .credential => "Credential"
  | .stakingHash => "StakingHash"
  | .stakingCredential => "StakingCredential"
  | .address => "Address"
  | .assetClass => "AssetClass"
  | .value => "Value"
  | .ratio => "Ratio"

/-- The name in documents. -/
def keyword : Primitive → String
  | .bool => "bool"
  | .int => "int"
  | .real => "real"
  | .byteArray => "bytearray"
  | .string => "string"
  | .time => "time"
  | .duration => "duration"
  | .data => "data"
  | .pubKeyHash => "pubkeyhash"
  | .validatorHash => "validatorhash"
  | .mintingPolicyHash => "mintingpolicyhash"
  | .stakingValidatorHash => "stakingvalidatorhash"
  | .scriptHash => "scripthash"
  | .datumHash => "datumhash"
  | .txId => "txid"
  | .txOutputId => "txoutputid"
  | .credential => "credential"
  | .stakingHash => "stakinghash"
  | .stakingCredential => "stakingcredential"
  | .address => "address"
  | .assetClass => "assetclass"
  | .value => "value"
  | .ratio => "ratio"

/-- The primitive of a keyword. -/
def ofKeyword? (s : String) : Option Primitive := all.find? (·.keyword = s)

/-- A primitive is read back from its keyword. -/
@[simp] theorem ofKeyword?_keyword (p : Primitive) : ofKeyword? p.keyword = some p := by
  cases p <;> decide

/-- The size of the hashes that are written as bare bytes. -/
def hashLength? : Primitive → Option Nat
  | .pubKeyHash | .validatorHash | .mintingPolicyHash | .stakingValidatorHash | .scriptHash =>
    some 28
  | .datumHash => some 32
  | _ => none

end Primitive

end ScriptBundle

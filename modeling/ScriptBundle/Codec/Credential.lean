/-
# Credentials and addresses as data and as values

As data, a choice between two hashes is a constructor with the hash as its one field, and a larger
thing is a constructor of its parts.  The network is no part of the data: decoding stamps the
network it is done for on the address, and encoding refuses an address of the other one.

As values, credentials are variants with named fields, and an address is either structured or
given by its bytes, raw or as hexadecimal text.
-/
import ScriptBundle.Codec.Supply

namespace ScriptBundle

open Codec

/-! ## 1. Choices between two hashes -/

namespace Codec

/-- The tag and the hash of a choice between two hashes. -/
def asHashChoice (path : Path) (first second : Primitive) (d : Data) : Result (UInt64 × Bytes) := do
  let (tag, fields) ← asConstr path [1, 1] d
  let hash ← asSizedBytes (.item path 0) (if tag = 0 then first else second) Address.hashLength
    (fields.headD (.list []))
  return (tag, hash)

/-- The name and the hash of a variant that chooses between two hashes. -/
def hashVariantOf (path : Path) (p : Primitive) : Value → Result (String × Bytes)
  | .variant name fields => do
    let field ← fieldOf path "hash" (.variant name fields)
    let hash ← sizedBytesOf (.field path "hash") p Address.hashLength field
    return (name, hash)
  | v => .error (unexpected path (.primitive p) v)

end Codec

/-! ## 2. Payment -/

namespace Credential

def toData : Credential → Data
  | .pubKey h => .constr 0 [.bytes h]
  | .validator h => .constr 1 [.bytes h]

def ofData (path : Path) (d : Data) : Result Credential := do
  let (tag, hash) ← asHashChoice path .pubKeyHash .validatorHash d
  return if tag = 0 then .pubKey hash else .validator hash

def toValue : Credential → Value
  | .pubKey h => .variant "PubKey" [("hash", .bytes h)]
  | .validator h => .variant "Validator" [("hash", .bytes h)]

def ofValue (path : Path) (v : Value) : Result Credential := do
  let (name, hash) ← hashVariantOf path .credential v
  match name with
  | "PubKey" => return .pubKey hash
  | "Validator" => return .validator hash
  | name => throw (.unknownVariant path name)

end Credential

/-! ## 3. Staking -/

namespace StakingHash

def toData : StakingHash → Data
  | .stakeKey h => .constr 0 [.bytes h]
  | .validator h => .constr 1 [.bytes h]

def ofData (path : Path) (d : Data) : Result StakingHash := do
  let (tag, hash) ← asHashChoice path .pubKeyHash .stakingValidatorHash d
  return if tag = 0 then .stakeKey hash else .validator hash

def toValue : StakingHash → Value
  | .stakeKey h => .variant "StakeKey" [("hash", .bytes h)]
  | .validator h => .variant "Validator" [("hash", .bytes h)]

def ofValue (path : Path) (v : Value) : Result StakingHash := do
  let (name, hash) ← hashVariantOf path .stakingHash v
  match name with
  | "StakeKey" => return .stakeKey hash
  | "Validator" => return .validator hash
  | name => throw (.unknownVariant path name)

end StakingHash

namespace StakingCredential

def toData : StakingCredential → Data
  | .hash h => .constr 0 [h.toData]
  | .pointer slot txIndex certIndex =>
    .constr 1 [.int (.ofUInt64 slot), .int (.ofUInt64 txIndex), .int (.ofUInt64 certIndex)]

def ofData (path : Path) (d : Data) : Result StakingCredential := do
  match ← asConstr path [1, 3] d with
  | (_, [slot, txIndex, certIndex]) =>
    let slot ← asWord (.item path 0) slot
    let txIndex ← asWord (.item path 1) txIndex
    let certIndex ← asWord (.item path 2) certIndex
    return .pointer slot txIndex certIndex
  | (_, fields) => return .hash (← StakingHash.ofData (.item path 0) (fields.headD (.list [])))

def toValue : StakingCredential → Value
  | .hash h => .variant "Hash" [("hash", h.toValue)]
  | .pointer slot txIndex certIndex =>
    .variant "Pointer" [("slot", .int (.ofUInt64 slot)), ("tx_index", .int (.ofUInt64 txIndex)),
      ("cert_index", .int (.ofUInt64 certIndex))]

/-- A number of a pointer, from the field of some name. -/
def pointerField (path : Path) (v : Value) (name : String) : Result UInt64 := do
  wordOf (.field path name) (← fieldOf path name v)

def ofValue (path : Path) : Value → Result StakingCredential
  | .variant name fields => do
    let v := Value.variant name fields
    match name with
    | "Hash" => return .hash (← StakingHash.ofValue (.field path "hash") (← fieldOf path "hash" v))
    | "Pointer" =>
      let slot ← pointerField path v "slot"
      let txIndex ← pointerField path v "tx_index"
      let certIndex ← pointerField path v "cert_index"
      return .pointer slot txIndex certIndex
    | name => throw (.unknownVariant path name)
  | v => .error (unexpected path (.primitive .stakingCredential) v)

end StakingCredential

/-! ## 4. Addresses -/

namespace Address

def toData (a : Address) : Data :=
  .constr 0 [a.payment.toData, optional (a.staking.map StakingCredential.toData)]

def ofData (network : Network) (path : Path) (d : Data) : Result Address := do
  let (_, fields) ← asConstr path [2] d
  let payment ← Credential.ofData (.item path 0) (fields.getD 0 (.list []))
  match ← asOptional (.item path 1) (fields.getD 1 (.list [])) with
  | some d => return ⟨network, payment, some (← StakingCredential.ofData (.item path 1) d)⟩
  | none => return ⟨network, payment, none⟩

/-- The address that a value stands for, of whichever network it is. -/
def given (path : Path) : Value → Result Address
  | .address a => .ok a
  | .bytes b => (ofBytes b).mapError fun e => .invalidValue path (.notAddress e)
  | .text s => do
    let b ← hexBytes path s
    (ofBytes b).mapError fun e => .invalidValue path (.notAddress e)
  | v => .error (unexpected path (.primitive .address) v)

/-- The address that a value stands for.  It has to belong to the network, and the hash that may
spend has to be one. -/
def ofValue (network : Network) (path : Path) (v : Value) : Result Address := do
  let a ← given path v
  if a.network ≠ network then throw (.networkMismatch path network)
  if a.payment.hash.length ≠ hashLength then
    throw (.byteLength path .address hashLength a.payment.hash.length)
  return a

end Address

end ScriptBundle

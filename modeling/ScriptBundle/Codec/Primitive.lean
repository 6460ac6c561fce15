/-
# The fixed rules of the primitives

Every primitive has one form as data.  Truth values are constructors without fields, numbers are
integers, everything that is bytes or text is bytes, and hashes are bytes of a fixed size; the
rest are small trees of these.

`Primitive.encode` takes each of the forms that a value may have, and `Primitive.decode` gives
the same one of them every time.
-/
import ScriptBundle.Codec.Credential

namespace ScriptBundle

open Codec

namespace Codec

/-! ## 1. Decimals -/

/-- A decimal, given as such, as a whole number or as text. -/
def realOf (path : Path) : Value → Result Real
  | .real r => .ok r
  | .int n =>
    match Real.ofInt? n with
    | some r => .ok r
    | none => .error (.invalidValue path (.tooLarge n))
  | .text s => (Real.parse s).mapError fun e => .invalidValue path (.notReal e)
  | v => .error (unexpected path (.primitive .real) v)

/-! ## 2. Transactions -/

/-- How many bytes identify a transaction. -/
def txIdLength : Nat := 32

def encodeTxId (path : Path) (v : Value) : Result Data := do
  let b ← sizedBytesOf path .txId txIdLength v
  return .constr 0 [.bytes b]

def decodeTxId (path : Path) (d : Data) : Result Bytes := do
  let (_, fields) ← asConstr path [1] d
  asSizedBytes (.item path 0) .txId txIdLength (fields.headD (.list []))

/-- An output: a record of the transaction and the position, or the text of both with a `#`
between. -/
def encodeTxOutputId (path : Path) : Value → Result Data
  | .record fields => do
    let v := Value.record fields
    let id ← encodeTxId (.field path "tx_id") (← fieldOf path "tx_id" v)
    let index ← intOf (.field path "index") (.primitive .int) (← fieldOf path "index" v)
    return .constr 0 [id, .int index]
  | .text s =>
    match Text.splitAtFirst '#' s.toList with
    | none => .error (.invalidValue path (.notOutputId s))
    | some (id, index) => do
      let id ← encodeTxId path (.text (String.ofList id))
      let index ← intOf path (.primitive .int) (.text (String.ofList index))
      return .constr 0 [id, .int index]
  | v => .error (unexpected path (.primitive .txOutputId) v)

def decodeTxOutputId (path : Path) (d : Data) : Result Value := do
  let (_, fields) ← asConstr path [2] d
  let id ← decodeTxId (.item path 0) (fields.getD 0 (.list []))
  let index ← asInt (.item path 1) (fields.getD 1 (.list []))
  return .record [("tx_id", .bytes id), ("index", .int index)]

/-! ## 3. Assets -/

/-- An asset class: a record of the policy and the token name, or the text of both with a point
between. -/
def encodeAssetClass (path : Path) : Value → Result Data
  | .record fields => do
    let v := Value.record fields
    let policy ← bytesOf (.field path "mph") .byteArray (← fieldOf path "mph" v)
    let token ← bytesOf (.field path "token_name") .byteArray (← fieldOf path "token_name" v)
    return .constr 0 [.bytes policy, .bytes token]
  | .text s =>
    match Text.splitAtFirst '.' s.toList with
    | none => .error (.invalidValue path (.notAssetClass s))
    | some (policy, token) => do
      let policy ← bytesOf path .byteArray (.text (String.ofList policy))
      let token ← bytesOf path .byteArray (.text (String.ofList token))
      return .constr 0 [.bytes policy, .bytes token]
  | v => .error (unexpected path (.primitive .assetClass) v)

def decodeAssetClass (path : Path) (d : Data) : Result Value := do
  let (_, fields) ← asConstr path [2] d
  let policy ← asBytes (.item path 0) (fields.getD 0 (.list []))
  let token ← asBytes (.item path 1) (fields.getD 1 (.list []))
  return .record [("mph", .bytes policy), ("token_name", .bytes token)]

/-- A token name and an amount. -/
def encodeToken (path : Path) (token : Value × Value) : Result (Data × Data) := do
  let name ← bytesOf path .byteArray token.1
  let amount ← intOf path (.primitive .int) token.2
  return (.bytes name, .int amount)

/-- A policy and the amounts of its tokens. -/
def encodePolicy (path : Path) (policy : Value × Value) : Result (Data × Data) := do
  let hash ← bytesOf path .mintingPolicyHash policy.1
  match policy.2 with
  | .map tokens => return (.bytes hash, .map (← each encodeToken path tokens))
  | v => throw (unexpected path .tokens v)

/-- Amounts by policy and token name.  A number alone is an amount of the token that has neither. -/
def encodeAssets (path : Path) : Value → Result Data
  | .int n => .ok (.map [(.bytes [], .map [(.bytes [], .int n)])])
  | .map policies => do return .map (← each encodePolicy path policies)
  | v => .error (unexpected path (.primitive .value) v)

def decodeToken (path : Path) (token : Data × Data) : Result (Value × Value) := do
  let name ← asBytes path token.1
  let amount ← asInt path token.2
  return (.bytes name, .int amount)

def decodePolicy (path : Path) (policy : Data × Data) : Result (Value × Value) := do
  let hash ← asBytes path policy.1
  let tokens ← asMap path policy.2
  let tokens ← each decodeToken path tokens
  return (.bytes hash, .map tokens)

def decodeAssets (path : Path) (d : Data) : Result Value := do
  let policies ← asMap path d
  return .map (← each decodePolicy path policies)

/-! ## 4. Ratios -/

/-- A ratio whose two numbers are known. -/
def encodeParts (path : Path) (top bottom : Int128) : Result Data :=
  if bottom.val = 0 then .error (.invalidValue path .zeroDenominator)
  else .ok (.list [.int top, .int bottom])

/-- A ratio: a record of its two numbers, or the list of them. -/
def encodeRatio (path : Path) : Value → Result Data
  | .record fields => do
    let v := Value.record fields
    let top ← intOf (.field path "top") (.primitive .int) (← fieldOf path "top" v)
    let bottom ← intOf (.field path "bottom") (.primitive .int) (← fieldOf path "bottom" v)
    encodeParts path top bottom
  | .list [top, bottom] => do
    let top ← intOf (.item path 0) (.primitive .int) top
    let bottom ← intOf (.item path 1) (.primitive .int) bottom
    encodeParts path top bottom
  | v => .error (unexpected path (.primitive .ratio) v)

def decodeRatio (path : Path) (d : Data) : Result Value := do
  let items ← asListOf path 2 d
  let top ← asInt (.item path 0) (items.getD 0 (.list []))
  let bottom ← asInt (.item path 1) (items.getD 1 (.list []))
  if bottom.val = 0 then throw (.invalidData (.item path 1) .zeroDenominator)
  return .record [("top", .int top), ("bottom", .int bottom)]

end Codec

/-! ## 5. All of them -/

namespace Primitive

/-- The data of a value, by the rule of a primitive. -/
def encode (network : Network) (path : Path) (p : Primitive) (v : Value) : Result Data :=
  match p with
  | .bool =>
    match v with
    | .bool b => .ok (.constr (if b then 1 else 0) [])
    | v => .error (unexpected path (.primitive .bool) v)
  | .int | .time | .duration => do return .int (← intOf path (.primitive p) v)
  | .real => do return .int (← realOf path v).scaled
  | .byteArray => do return .bytes (← bytesOf path .byteArray v)
  | .string =>
    match v with
    | .text s => .ok (.bytes (Bytes.ofText s))
    | v => .error (unexpected path (.primitive .string) v)
  | .data => .error (unexpected path (.primitive .data) v)
  | .pubKeyHash | .validatorHash | .mintingPolicyHash | .stakingValidatorHash | .scriptHash
  | .datumHash => do return .bytes (← sizedBytesOf path p (p.hashLength?.getD 0) v)
  | .txId => encodeTxId path v
  | .txOutputId => encodeTxOutputId path v
  | .credential => do return (← Credential.ofValue path v).toData
  | .stakingHash => do return (← StakingHash.ofValue path v).toData
  | .stakingCredential => do return (← StakingCredential.ofValue path v).toData
  | .address => do return (← Address.ofValue network path v).toData
  | .assetClass => encodeAssetClass path v
  | .value => encodeAssets path v
  | .ratio => encodeRatio path v

/-- The value of data, by the rule of a primitive. -/
def decode (network : Network) (path : Path) (p : Primitive) (d : Data) : Result Value :=
  match p with
  | .bool => do
    let (tag, _) ← asConstr path [0, 0] d
    return .bool (tag = 1)
  | .int | .time | .duration => do return .int (← asInt path d)
  | .real => do return .real ⟨← asInt path d⟩
  | .byteArray => do return .bytes (← asBytes path d)
  | .string => do
    match Bytes.toText? (← asBytes path d) with
    | some s => return .text s
    | none => throw (.invalidUtf8 path)
  | .data => .ok (.data d)
  | .pubKeyHash | .validatorHash | .mintingPolicyHash | .stakingValidatorHash | .scriptHash
  | .datumHash => do return .bytes (← asSizedBytes path p (p.hashLength?.getD 0) d)
  | .txId => do return .bytes (← decodeTxId path d)
  | .txOutputId => decodeTxOutputId path d
  | .credential => do return (← Credential.ofData path d).toValue
  | .stakingHash => do return (← StakingHash.ofData path d).toValue
  | .stakingCredential => do return (← StakingCredential.ofData path d).toValue
  | .address => do return .address (← Address.ofData network path d)
  | .assetClass => decodeAssetClass path d
  | .value => decodeAssets path d
  | .ratio => decodeRatio path d

end Primitive

end ScriptBundle

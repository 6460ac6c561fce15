/-
# Addresses

An address says who may spend what is paid to it, the holder of a key or a validator, and
optionally who stakes it: a stake key, a staking validator, or whoever made the registration that
a pointer names.  It belongs to one of two networks.

An address has a byte form: a header byte that holds the kind and the network, the 28 bytes of
the payment hash, and then the staking part.  `ofBytes` is strict about lengths and takes nothing
after the end.
-/
import ScriptBundle.Bytes.Hex
import ScriptBundle.Bytes.Base128

namespace ScriptBundle

/-! ## 1. Parts -/

/-- The two networks. -/
inductive Network
  | testnet
  | mainnet
deriving DecidableEq, Repr, Inhabited

namespace Network

def name : Network → String
  | .testnet => "testnet"
  | .mainnet => "mainnet"

def ofFlag (mainnet : Bool) : Network := if mainnet then .mainnet else .testnet

def isMainnet : Network → Bool
  | .testnet => false
  | .mainnet => true

@[simp] theorem ofFlag_isMainnet (n : Network) : ofFlag n.isMainnet = n := by cases n <;> rfl

@[simp] theorem isMainnet_ofFlag (b : Bool) : (ofFlag b).isMainnet = b := by cases b <;> rfl

end Network

/-- Who may spend. -/
inductive Credential
  | pubKey (hash : Bytes)
  | validator (hash : Bytes)
deriving DecidableEq

def Credential.hash : Credential → Bytes
  | .pubKey h => h
  | .validator h => h

/-- Who stakes, by hash. -/
inductive StakingHash
  | stakeKey (hash : Bytes)
  | validator (hash : Bytes)
deriving DecidableEq

def StakingHash.hash : StakingHash → Bytes
  | .stakeKey h => h
  | .validator h => h

/-- Who stakes. -/
inductive StakingCredential
  | hash (h : StakingHash)
  /-- The certificate at a position of a transaction of a slot. -/
  | pointer (slot txIndex certIndex : UInt64)
deriving DecidableEq

/-- A payment address. -/
structure Address where
  network : Network
  payment : Credential
  staking : Option StakingCredential
deriving DecidableEq

namespace Address

/-- How many bytes a hash in an address has. -/
def hashLength : Nat := 28

/-! ## 2. Bytes -/

/-- The kind of an address: two for each form of the staking part. -/
def kind (a : Address) : Nat :=
  let staking :=
    match a.staking with
    | some (.hash (.stakeKey _)) => 0
    | some (.hash (.validator _)) => 2
    | some (.pointer ..) => 4
    | none => 6
  match a.payment with
  | .pubKey _ => staking
  | .validator _ => staking + 1

/-- The bytes of the staking part. -/
def stakingBytes : Option StakingCredential → Bytes
  | some (.hash h) => h.hash
  | some (.pointer slot txIndex certIndex) =>
    Base128.encode slot ++ Base128.encode txIndex ++ Base128.encode certIndex
  | none => []

/-- The byte form of an address. -/
def toBytes (a : Address) : Bytes :=
  UInt8.ofNat (16 * a.kind + if a.network.isMainnet then 1 else 0)
    :: a.payment.hash ++ stakingBytes a.staking

/-- The hexadecimal text of the byte form. -/
def toHex (a : Address) : String := Hex.encode a.toBytes

/-- Why bytes are not an address. -/
inductive Error
  | empty
  | unknownNetwork (id : Nat)
  | unsupportedKind (kind : Nat)
  /-- There is no room for the payment hash. -/
  | tooShort (size : Nat)
  | stakingHashLength (size : Nat)
  | pointer (e : Base128.Error)
  | afterPointer
  | afterPayment
deriving DecidableEq

/-- The complaint in words. -/
def Error.message : Error → String
  | .empty => "empty address"
  | .unknownNetwork id => "unknown network id " ++ toString id
  | .unsupportedKind kind => "unsupported address type " ++ toString kind
  | .tooShort size => "address too short: " ++ toString size ++ " bytes"
  | .stakingHashLength size =>
    "staking hash must be " ++ toString hashLength ++ " bytes, got " ++ toString size
  | .pointer .truncated => "truncated stake pointer"
  | .pointer .overflow => "stake pointer component overflows"
  | .afterPointer => "trailing bytes after stake pointer"
  | .afterPayment => "trailing bytes after enterprise address"

/-- The network of a header's low half. -/
def networkOf : Nat → Except Error Network
  | 0 => .ok .testnet
  | 1 => .ok .mainnet
  | id => .error (.unknownNetwork id)

/-- A number of a pointer. -/
def pointerNumber (bytes : Bytes) : Except Error (UInt64 × Bytes) :=
  (Base128.decode bytes).mapError .pointer

/-- The staking part of an address of some kind, from the bytes behind the payment hash. -/
def stakingOf (kind : Nat) (tail : Bytes) : Except Error (Option StakingCredential) :=
  match kind / 2 with
  | 0 =>
    if tail.length ≠ hashLength then .error (.stakingHashLength tail.length)
    else .ok (some (.hash (.stakeKey tail)))
  | 1 =>
    if tail.length ≠ hashLength then .error (.stakingHashLength tail.length)
    else .ok (some (.hash (.validator tail)))
  | 2 => do
    let (slot, tail) ← pointerNumber tail
    let (txIndex, tail) ← pointerNumber tail
    let (certIndex, tail) ← pointerNumber tail
    if tail.isEmpty then return some (.pointer slot txIndex certIndex) else throw .afterPointer
  | _ => if tail.isEmpty then .ok none else .error .afterPayment

/-- The address of some bytes. -/
def ofBytes : Bytes → Except Error Address
  | [] => .error .empty
  | header :: rest => do
    let kind := header.toNat / 16
    let network ← networkOf (header.toNat % 16)
    if 7 < kind then throw (.unsupportedKind kind)
    if rest.length < hashLength then throw (.tooShort (rest.length + 1))
    let hash := rest.take hashLength
    let payment := if kind % 2 = 0 then Credential.pubKey hash else .validator hash
    let staking ← stakingOf kind (rest.drop hashLength)
    return ⟨network, payment, staking⟩

end Address

end ScriptBundle

/-
# Which bytes are an address

The byte form of an address says everything about it: the header its kind and its network, the first
28 bytes behind it who may spend, and the rest who stakes.  So the reader gives every address whose
hashes have the right size back from its bytes, and no other (`Address.readBack_iff`).

The numbers of a pointer have no fixed width.  Each one shows its own end, which is why three of
them in a row are taken apart again.  But the reader does not ask whether a number is written as
short as can be: zeros in front of it change nothing (`Base128.decode_eq_ok_iff`).  That is the only
liberty there is.  The bytes of an address are those that `toBytes` gives, up to such zeros in front
of the numbers of a pointer, and the texts of an address are the digits of these bytes in either
case (`Address.written_exact`).
-/
import ScriptBundle.Proofs.Bytes.Base128
import ScriptBundle.Proofs.Codec.Credential
import ScriptBundle.Proofs.Text

namespace ScriptBundle

/-! ## 1. The header -/

namespace Address

/-- The form of the staking part, as kinds count them. -/
def stakingForm : Option StakingCredential → Nat
  | some (.hash (.stakeKey _)) => 0
  | some (.hash (.validator _)) => 1
  | some (.pointer ..) => 2
  | none => 3

/-- The form of the payment part, as kinds count them. -/
def paymentForm : Credential → Nat
  | .pubKey _ => 0
  | .validator _ => 1

theorem stakingForm_lt (staking : Option StakingCredential) : stakingForm staking < 4 := by
  obtain _ | (_ | _) | _ := staking <;> simp only [stakingForm] <;> omega

theorem paymentForm_lt (payment : Credential) : paymentForm payment < 2 := by
  cases payment <;> simp only [paymentForm] <;> omega

/-- A kind is made of the two forms. -/
theorem kind_eq (a : Address) : a.kind = 2 * stakingForm a.staking + paymentForm a.payment := by
  obtain ⟨network, payment, _ | (_ | _) | _⟩ := a <;> cases payment <;> rfl

theorem kind_lt (a : Address) : a.kind < 8 := by
  have hstaking := stakingForm_lt a.staking
  have hpayment := paymentForm_lt a.payment
  rw [kind_eq]
  omega

/-- The payment part is of the form that the parity of the kind says. -/
theorem payment_iff {kind : Nat} {hash : Bytes} {payment : Credential} :
    (if kind % 2 = 0 then Credential.pubKey hash else .validator hash) = payment ↔
      kind % 2 = paymentForm payment ∧ payment.hash = hash := by
  rcases Nat.mod_two_eq_zero_or_one kind with hparity | hparity <;> rw [hparity] <;>
    cases payment <;> simp [paymentForm, Credential.hash, eq_comm]

theorem networkOf_eq_ok_iff {id : Nat} {network : Network} :
    networkOf id = .ok network ↔ id = if network.isMainnet then 1 else 0 := by
  unfold networkOf
  split <;> cases network <;> simp_all [Network.isMainnet]

/-- The first byte of an address. -/
def header (a : Address) : UInt8 :=
  UInt8.ofNat (16 * a.kind + if a.network.isMainnet then 1 else 0)

/-- **The header** holds the kind and the network, and nothing else. -/
theorem eq_header_iff {a : Address} {byte : UInt8} :
    byte = a.header ↔
      byte.toNat / 16 = a.kind ∧ networkOf (byte.toNat % 16) = .ok a.network := by
  have hkind := a.kind_lt
  rw [networkOf_eq_ok_iff, header]
  have hflag : (if a.network.isMainnet then 1 else 0) < 2 := by
    cases a.network <;> decide
  generalize (if a.network.isMainnet then 1 else 0) = flag at hflag
  have hcode : (UInt8.ofNat (16 * a.kind + flag)).toNat = 16 * a.kind + flag :=
    UInt8.toNat_ofNat_of_lt' (show _ < 256 by omega)
  constructor
  · rintro rfl
    rw [hcode]
    omega
  · rintro ⟨hhigh, hlow⟩
    rw [← UInt8.toNat_inj, hcode]
    omega

/-! ## 2. The staking part -/

/-- How many superfluous zeros stand in front of each number of a pointer. -/
structure Padding where
  slot : Nat
  txIndex : Nat
  certIndex : Nat
deriving DecidableEq

/-- No superfluous zeros at all. -/
def Padding.none : Padding := ⟨0, 0, 0⟩

/-- The bytes of the staking part with superfluous zeros; only a pointer has room for any. -/
def paddedStaking (zeros : Padding) : Option StakingCredential → Bytes
  | some (.pointer slot txIndex certIndex) =>
    Base128.padded zeros.slot slot ++ Base128.padded zeros.txIndex txIndex ++
      Base128.padded zeros.certIndex certIndex
  | staking => stakingBytes staking

theorem pointerNumber_eq_ok_iff {b rest : Bytes} {n : UInt64} :
    pointerNumber b = .ok (n, rest) ↔ ∃ zeros, b = Base128.padded zeros n ++ rest :=
  mapError_eq_ok_iff.trans Base128.decode_eq_ok_iff

/-- A staking hash is all that is left, if that has the right size. -/
theorem hashOfRest_eq_ok_iff (hash : StakingHash) {staking : Option StakingCredential} :
    (if hash.hash.length ≠ hashLength then .error (Error.stakingHashLength hash.hash.length)
      else .ok (some (.hash hash)) : Except Error (Option StakingCredential)) = .ok staking ↔
      stakingForm (some (.hash hash)) = stakingForm staking ∧ (∀ s ∈ staking, s.Sized) ∧
        ∃ zeros, hash.hash = paddedStaking zeros staking := by
  constructor
  · intro h
    split at h
    · cases h
    · rename_i hlen
      cases h
      refine ⟨rfl, ?_, .none, by cases hash <;> rfl⟩
      have hsized : hash.hash.length = hashLength := Decidable.not_not.mp hlen
      rintro _ ⟨⟩
      exact hsized
  · rintro ⟨hform, hsized, zeros, hrest⟩
    obtain rfl : staking = some (.hash hash) := by
      cases hash <;> obtain _ | (_ | _) | _ := staking <;> cases hform <;> cases hrest <;> rfl
    exact if_neg (not_not_intro (hsized _ rfl))

/-- **The staking part** is of the form that the kind says, takes up the rest, and is written with
superfluous zeros at most. -/
theorem stakingOf_eq_ok_iff {kind : Nat} {tail : Bytes} {staking : Option StakingCredential}
    (hkind : kind < 8) :
    stakingOf kind tail = .ok staking ↔
      kind / 2 = stakingForm staking ∧ (∀ s ∈ staking, s.Sized) ∧
        ∃ zeros, tail = paddedStaking zeros staking := by
  unfold stakingOf
  split
  case h_1 hform =>
    rw [hform]
    exact hashOfRest_eq_ok_iff (.stakeKey tail)
  case h_2 hform =>
    rw [hform]
    exact hashOfRest_eq_ok_iff (.validator tail)
  case h_3 hform =>
    rw [hform]
    simp only [bind_eq_ok_iff, Prod.exists, pointerNumber_eq_ok_iff]
    constructor
    · rintro ⟨slot, _, ⟨i, rfl⟩, txIndex, _, ⟨j, rfl⟩, certIndex, rest, ⟨k, rfl⟩, h⟩
      split at h
      · rename_i hrest
        obtain rfl := List.isEmpty_iff.mp hrest
        cases h
        refine ⟨rfl, ?_, ⟨i, j, k⟩, ?_⟩
        · rintro _ ⟨⟩
          trivial
        · simp only [paddedStaking, List.append_assoc, List.append_nil]
      · cases h
    · rintro ⟨hform, -, zeros, rfl⟩
      obtain _ | (_ | _) | ⟨slot, txIndex, certIndex⟩ := staking <;> cases hform
      refine ⟨slot, _, ⟨zeros.slot, List.append_assoc _ _ _⟩, txIndex, _, ⟨zeros.txIndex, rfl⟩,
        certIndex, [], ⟨zeros.certIndex, (List.append_nil _).symm⟩, rfl⟩
  case h_4 hzero hone htwo =>
    have hform : kind / 2 = 3 := by
      have hne : kind / 2 ≠ 0 ∧ kind / 2 ≠ 1 ∧ kind / 2 ≠ 2 := ⟨hzero, hone, htwo⟩
      omega
    rw [hform]
    constructor
    · intro h
      split at h
      · rename_i hrest
        cases h
        refine ⟨rfl, ?_, .none, List.isEmpty_iff.mp hrest⟩
        rintro _ ⟨⟩
      · cases h
    · rintro ⟨hform, -, zeros, rfl⟩
      obtain _ | (_ | _) | _ := staking <;> cases hform
      rfl

/-! ## 3. The whole address -/

/-- The byte form of an address with superfluous zeros in front of the numbers of its pointer. -/
def toPaddedBytes (zeros : Padding) (a : Address) : Bytes :=
  a.header :: a.payment.hash ++ paddedStaking zeros a.staking

theorem toPaddedBytes_none (a : Address) : a.toPaddedBytes .none = a.toBytes := by
  obtain ⟨network, payment, _ | (_ | _) | _⟩ := a <;> rfl

/-- **Which bytes are an address.**  They are the byte form of one whose hashes have the right size,
but for superfluous zeros. -/
theorem ofBytes_eq_ok_iff {b : Bytes} {a : Address} :
    ofBytes b = .ok a ↔ a.Sized ∧ ∃ zeros, b = a.toPaddedBytes zeros := by
  cases b with
  | nil => exact ⟨fun h => (by cases h), fun ⟨_, _, h⟩ => (by cases h)⟩
  | cons byte rest =>
    have hforms := a.kind_eq
    have hkind := a.kind_lt
    have hodd := paymentForm_lt a.payment
    simp only [ofBytes, bind_eq_ok_iff]
    constructor
    · rintro ⟨network, hnetwork, h⟩
      split at h
      · cases h
      split at h
      · cases h
      rename_i hlow hroom
      simp only [bind_eq_ok_iff, pure_eq_ok_iff] at h
      obtain ⟨staking, hstaking, ha⟩ := h
      obtain rfl : network = a.network := congrArg Address.network ha
      obtain rfl : staking = a.staking := congrArg Address.staking ha
      obtain ⟨hparity, hhash⟩ := payment_iff.mp (congrArg Address.payment ha)
      obtain ⟨hhalf, hsized, zeros, hrest⟩ := (stakingOf_eq_ok_iff (by omega)).mp hstaking
      have hbyte : byte = a.header := eq_header_iff.mpr ⟨by omega, hnetwork⟩
      refine ⟨⟨?_, hsized⟩, zeros, ?_⟩
      · rw [hhash, List.length_take]
        omega
      · rw [toPaddedBytes, hbyte, hhash, ← hrest, List.cons_append, List.take_append_drop]
    · rintro ⟨⟨hlen, hsized⟩, zeros, hb⟩
      rw [toPaddedBytes, List.cons_append, List.cons_eq_cons] at hb
      obtain ⟨hbyte, hrest⟩ := hb
      obtain ⟨hhigh, hnetwork⟩ := eq_header_iff.mp hbyte
      have htake : rest.take hashLength = a.payment.hash := by
        rw [hrest, ← hlen, List.take_left]
      have hdrop : rest.drop hashLength = paddedStaking zeros a.staking := by
        rw [hrest, ← hlen, List.drop_left]
      have hroom : ¬rest.length < hashLength := by
        rw [hrest, List.length_append, hlen]
        omega
      refine ⟨a.network, hnetwork, ?_⟩
      rw [if_neg (by omega), if_neg hroom, htake, hdrop, hhigh]
      refine bind_eq_ok_iff.mpr ⟨a.staking, ?_, ?_⟩
      · exact (stakingOf_eq_ok_iff hkind).mpr ⟨by omega, hsized, zeros, rfl⟩
      · rw [payment_iff.mpr ⟨by omega, rfl⟩]
        rfl

/-- The bytes of an address leave no room for a hash of another size. -/
theorem sized_of_ofBytes {b : Bytes} {a : Address} (h : ofBytes b = .ok a) : a.Sized :=
  (ofBytes_eq_ok_iff.mp h).1

/-- An address is read back from its bytes. -/
theorem ofBytes_toBytes {a : Address} (h : a.Sized) : ofBytes a.toBytes = .ok a :=
  ofBytes_eq_ok_iff.mpr ⟨h, .none, a.toPaddedBytes_none.symm⟩

/-- **Round trip.**  An address is read back from its bytes exactly if its hashes have the right
size, whatever its network, who may spend, and who stakes, pointers to any place included. -/
theorem readBack_iff (a : Address) : ofBytes a.toBytes = .ok a ↔ a.Sized :=
  ⟨sized_of_ofBytes, ofBytes_toBytes⟩

/-! ## 4. How many forms an address has -/

/-- The bytes of a pointer are longer by the zeros in front of its numbers. -/
theorem length_toPaddedBytes {a : Address} {slot txIndex certIndex : UInt64} (zeros : Padding)
    (h : a.staking = some (.pointer slot txIndex certIndex)) :
    (a.toPaddedBytes zeros).length =
      a.toBytes.length + (zeros.slot + zeros.txIndex + zeros.certIndex) := by
  rw [← toPaddedBytes_none, toPaddedBytes, toPaddedBytes, h]
  simp only [paddedStaking, Base128.padded, List.length_append, List.length_cons,
    List.length_replicate, Padding.none]
  omega

/-- Superfluous zeros make another form of an address that has a pointer, and of no other. -/
theorem toPaddedBytes_eq_iff {a : Address} {zeros : Padding} :
    a.toPaddedBytes zeros = a.toBytes ↔
      zeros = .none ∨
        ∀ slot txIndex certIndex, a.staking ≠ some (.pointer slot txIndex certIndex) := by
  constructor
  · intro h
    by_cases hpointer : ∃ slot txIndex certIndex, a.staking = some (.pointer slot txIndex certIndex)
    · obtain ⟨slot, txIndex, certIndex, hpointer⟩ := hpointer
      have hlen := length_toPaddedBytes zeros hpointer
      rw [h] at hlen
      obtain ⟨i, j, k⟩ := zeros
      simp only [Padding.none, Padding.mk.injEq]
      simp only at hlen
      exact .inl ⟨by omega, by omega, by omega⟩
    · exact .inr fun slot txIndex certIndex hpointer' =>
        hpointer ⟨slot, txIndex, certIndex, hpointer'⟩
  · rintro (rfl | hnone)
    · exact a.toPaddedBytes_none
    · obtain ⟨network, payment, _ | (_ | _) | _⟩ := a
      · rfl
      · rfl
      · rfl
      · exact absurd rfl (hnone _ _ _)

/-- **Which texts are an address.**  They are the digits of its bytes, in either case. -/
theorem given_text_eq_ok_iff {path : Codec.Path} {text : String} {a : Address} :
    given path (.text text) = .ok a ↔
      a.Sized ∧ ∃ zeros, text.toLower = Hex.encode (a.toPaddedBytes zeros) := by
  have hbytes : ∀ b, Codec.hexBytes path text = .ok b ↔ text.toLower = Hex.encode b := by
    intro b
    rw [← Hex.decode_eq_ok_iff, Codec.hexBytes]
    split <;> rename_i hdecode <;> simp [hdecode]
  simp only [given, bind_eq_ok_iff, hbytes, mapError_eq_ok_iff, ofBytes_eq_ok_iff]
  constructor
  · rintro ⟨b, htext, hsized, zeros, rfl⟩
    exact ⟨hsized, zeros, htext⟩
  · rintro ⟨hsized, zeros, htext⟩
    exact ⟨_, htext, hsized, zeros, rfl⟩

/-- **The written forms of an address.**  The bytes that are read as an address whose hashes have
the right size are its byte form, with superfluous zeros at most, and the texts are the digits of
such bytes, in either case.  Only in front of the numbers of a pointer is there room for zeros; an
address that has none has one form. -/
theorem written_exact (a : Address) :
    (∀ b, ofBytes b = .ok a ↔ a.Sized ∧ ∃ zeros, b = a.toPaddedBytes zeros) ∧
    (∀ path text, given path (.text text) = .ok a ↔
      a.Sized ∧ ∃ zeros, text.toLower = Hex.encode (a.toPaddedBytes zeros)) ∧
    (∀ zeros, a.toPaddedBytes zeros = a.toBytes ↔ zeros = .none ∨
      ∀ slot txIndex certIndex, a.staking ≠ some (.pointer slot txIndex certIndex)) :=
  ⟨fun _ => ofBytes_eq_ok_iff, fun _ _ => given_text_eq_ok_iff, fun _ => toPaddedBytes_eq_iff⟩

namespace Example

/-- Who may spend is told by a hash of nothing but zeros, and who stakes by a pointer to the very
first certificate. -/
def earliest : Address := ⟨.testnet, .pubKey (List.replicate 28 0), some (.pointer 0 0 0)⟩

/-- The bytes of that address, with a superfluous zero in front of the slot. -/
def looseBytes : Bytes := 0x40 :: List.replicate 28 0 ++ [0x80, 0, 0, 0]

/-- **Two forms of one address.**  Bytes that are read as an address need not be its byte form. -/
theorem toBytes_ne_looseBytes :
    ofBytes looseBytes = .ok earliest ∧ ofBytes earliest.toBytes = .ok earliest ∧
      earliest.toBytes ≠ looseBytes := by
  have hloose : looseBytes = earliest.toPaddedBytes ⟨1, 0, 0⟩ := by
    simp [looseBytes, earliest, toPaddedBytes, header, paddedStaking, Base128.padded,
      Base128.encode, Base128.leading, Credential.hash, kind, Network.isMainnet]
  have hsized : earliest.Sized := ⟨rfl, by rintro _ ⟨⟩; trivial⟩
  refine ⟨ofBytes_eq_ok_iff.mpr ⟨hsized, _, hloose⟩, ofBytes_toBytes hsized, ?_⟩
  rw [hloose, ne_comm, ne_eq, toPaddedBytes_eq_iff, not_or]
  exact ⟨by decide, fun hnone => hnone 0 0 0 rfl⟩

end Example

end Address

end ScriptBundle

/-
# Structured addresses through the codec

An address that is handed over as such may hold hashes of any length, and encoding is where they
are looked at.  Encoding checks the network and the payment hash (`encode_address_iff`); the hash
of the staking part it takes as it comes.

Decoding checks every hash.  So an address that was encoded comes back unless its staking hash has
a wrong length, and then its data cannot be decoded at all (`address_exact`).
-/
import ScriptBundle.Codec.Encode
import ScriptBundle.Codec.Decode
import ScriptBundle.Proofs.Codec.Credential

namespace ScriptBundle

open Codec

variable {network : Network} {path : Path} {a : Address} {d : Data}

/-! ## 1. What encoding checks -/

namespace Address

theorem ofValue_of_network_ne (hnet : a.network ≠ network) :
    ofValue network path (.address a) = .error (.networkMismatch path network) := by
  rw [ofValue, given]
  exact if_pos hnet

theorem ofValue_of_payment (hnet : a.network = network)
    (hpay : a.payment.hash.length ≠ hashLength) :
    ofValue network path (.address a) =
      .error (.byteLength path .address hashLength a.payment.hash.length) := by
  rw [ofValue, given]
  exact (if_neg fun hne => hne hnet).trans (if_pos hpay)

theorem ofValue_address_iff {b : Address} :
    ofValue network path (.address a) = .ok b ↔
      a.network = network ∧ a.payment.hash.length = hashLength ∧ b = a := by
  constructor
  · intro h
    by_cases hnet : a.network = network
    · by_cases hpay : a.payment.hash.length = hashLength
      · subst hnet
        rw [ofValue_address hpay] at h
        exact ⟨rfl, hpay, (Except.ok.inj h).symm⟩
      · rw [ofValue_of_payment hnet hpay] at h
        cases h
    · rw [ofValue_of_network_ne hnet] at h
      cases h
  · rintro ⟨rfl, hpay, rfl⟩
    exact ofValue_address hpay

end Address

namespace Codec

/-- The staking part has no say in whether an address is encoded. -/
theorem encode_address_iff :
    encode network (.primitive .address) (.address a) = .ok d ↔
      a.network = network ∧ a.payment.hash.length = Address.hashLength ∧ d = a.toData := by
  refine bind_eq_ok_iff.trans ?_
  simp only [Address.ofValue_address_iff, pure_eq_ok_iff]
  constructor
  · rintro ⟨b, ⟨hnet, hpay, rfl⟩, rfl⟩
    exact ⟨hnet, hpay, rfl⟩
  · rintro ⟨hnet, hpay, rfl⟩
    exact ⟨a, ⟨hnet, hpay, rfl⟩, rfl⟩

theorem encode_address_error {e : Error}
    (h : Address.ofValue network .top (.address a) = .error e) :
    encode network (.primitive .address) (.address a) = .error e :=
  bind_eq_error_iff.mpr (.inl h)

theorem decode_address_iff :
    decode network (.primitive .address) d = .ok (.address a) ↔
      d = a.toData ∧ a.network = network ∧ a.Sized := by
  refine bind_eq_ok_iff.trans ?_
  simp only [Address.ofData_eq_ok_iff, pure_eq_ok_iff, Value.address.injEq]
  constructor
  · rintro ⟨b, h, rfl⟩
    exact h
  · exact fun h => ⟨a, h, rfl⟩

end Codec

/-! ## 2. Staking hashes of a wrong length -/

/-- The kind of hash that a staking hash has to be. -/
def StakingHash.primitive : StakingHash → Primitive
  | .stakeKey _ => .pubKeyHash
  | .validator _ => .stakingValidatorHash

theorem asSizedBytes_of_length_ne {p : Primitive} {size : Nat} {b : Bytes}
    (hlen : b.length ≠ size) :
    asSizedBytes path p size (.bytes b) = .error (.byteLength path p size b.length) :=
  if_pos hlen

theorem StakingHash.ofData_of_length_ne {h : StakingHash}
    (hlen : h.hash.length ≠ Address.hashLength) :
    ofData path h.toData =
      .error (.byteLength (.item path 0) h.primitive Address.hashLength h.hash.length) := by
  refine bind_eq_error_iff.mpr (.inl ?_)
  cases h with
  | stakeKey b =>
    refine bind_eq_error_iff.mpr (.inr ⟨(0, [.bytes b]), rfl, ?_⟩)
    exact bind_eq_error_iff.mpr (.inl (asSizedBytes_of_length_ne hlen))
  | validator b =>
    refine bind_eq_error_iff.mpr (.inr ⟨(1, [.bytes b]), rfl, ?_⟩)
    exact bind_eq_error_iff.mpr (.inl (asSizedBytes_of_length_ne hlen))

/-- The staking hash is the only hash in an address that can be to blame when the payment hash is
not, and it is blamed at its own place. -/
theorem Address.ofData_of_staking {h : StakingHash} (hpay : a.payment.hash.length = hashLength)
    (hstake : a.staking = some (.hash h)) (hlen : h.hash.length ≠ hashLength) :
    ofData network path a.toData =
      .error (.byteLength (.item (.item (.item path 1) 0) 0) h.primitive hashLength
        h.hash.length) := by
  have hpayment : Credential.ofData (.item path 0) a.payment.toData = .ok a.payment :=
    Credential.ofData_eq_ok_iff.mpr ⟨rfl, hpay⟩
  have hhash : StakingHash.ofData (.item (.item path 1) 0) h.toData =
      .error (.byteLength (.item (.item (.item path 1) 0) 0) h.primitive hashLength
        h.hash.length) := StakingHash.ofData_of_length_ne hlen
  have hstaking : StakingCredential.ofData (.item path 1) (StakingCredential.hash h).toData =
      .error (.byteLength (.item (.item (.item path 1) 0) 0) h.primitive hashLength
        h.hash.length) :=
    bind_eq_error_iff.mpr (.inr ⟨(0, [h.toData]), rfl, bind_eq_error_iff.mpr (.inl hhash)⟩)
  rw [toData, hstake]
  refine bind_eq_error_iff.mpr (.inr ⟨(0, _), rfl, ?_⟩)
  refine bind_eq_error_iff.mpr (.inr ⟨a.payment, hpayment, ?_⟩)
  refine bind_eq_error_iff.mpr (.inr ⟨some (StakingCredential.hash h).toData, rfl, ?_⟩)
  exact bind_eq_error_iff.mpr (.inl hstaking)

theorem Address.exists_of_not_sized (hpay : a.payment.hash.length = hashLength)
    (hnot : ¬ a.Sized) :
    ∃ h, a.staking = some (.hash h) ∧ h.hash.length ≠ hashLength := by
  have hstaking : ¬ ∀ s ∈ a.staking, s.Sized := fun hall => hnot ⟨hpay, hall⟩
  push Not at hstaking
  obtain ⟨s, hs, hsize⟩ := hstaking
  cases s with
  | hash h => exact ⟨h, hs, hsize⟩
  | pointer slot txIndex certIndex => exact absurd trivial hsize

/-! ## 3. There and back -/

namespace Codec

/-- **Structured addresses.**  An address is encoded exactly if it belongs to the network and its
payment hash has the right length, and refused otherwise, for the network first.  It comes back
exactly if its staking hash, where it has one, has the right length as well.  An address that is
encoded and does not come back has a staking hash of a wrong length, and decoding its data fails at
the place of that hash. -/
theorem address_exact (network : Network) (a : Address) :
    (∀ d, encode network (.primitive .address) (.address a) = .ok d ↔
      a.network = network ∧ a.payment.hash.length = Address.hashLength ∧ d = a.toData) ∧
    (a.network ≠ network → encode network (.primitive .address) (.address a) =
      .error (.networkMismatch .top network)) ∧
    (a.network = network → a.payment.hash.length ≠ Address.hashLength →
      encode network (.primitive .address) (.address a) =
        .error (.byteLength .top .address Address.hashLength a.payment.hash.length)) ∧
    ((∃ d, encode network (.primitive .address) (.address a) = .ok d ∧
      decode network (.primitive .address) d = .ok (.address a)) ↔
        a.network = network ∧ a.Sized) ∧
    (∀ d, encode network (.primitive .address) (.address a) = .ok d → ¬ a.Sized →
      ∃ h, a.staking = some (.hash h) ∧ h.hash.length ≠ Address.hashLength ∧
        decode network (.primitive .address) d =
          .error (.byteLength (.item (.item (.item .top 1) 0) 0) h.primitive
            Address.hashLength h.hash.length)) := by
  refine ⟨fun d => encode_address_iff,
    fun hnet => encode_address_error (Address.ofValue_of_network_ne hnet),
    fun hnet hpay => encode_address_error (Address.ofValue_of_payment hnet hpay), ?_, ?_⟩
  · constructor
    · rintro ⟨d, -, hdecode⟩
      exact (decode_address_iff.mp hdecode).2
    · rintro ⟨hnet, hsized⟩
      exact ⟨a.toData, encode_address_iff.mpr ⟨hnet, hsized.1, rfl⟩,
        decode_address_iff.mpr ⟨rfl, hnet, hsized⟩⟩
  · intro d hencode hnot
    obtain ⟨-, hpay, rfl⟩ := encode_address_iff.mp hencode
    obtain ⟨h, hstake, hlen⟩ := Address.exists_of_not_sized hpay hnot
    refine ⟨h, hstake, hlen, ?_⟩
    exact bind_eq_error_iff.mpr (.inl (Address.ofData_of_staking hpay hstake hlen))

/-- A stake key of no bytes is encoded. -/
example :
    let a : Address := ⟨.testnet, .pubKey (List.replicate 28 0), some (.hash (.stakeKey []))⟩
    encode .testnet (.primitive .address) (.address a) = .ok a.toData := rfl

end Codec

end ScriptBundle

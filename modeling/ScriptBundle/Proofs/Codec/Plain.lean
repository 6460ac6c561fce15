/-
# What primitives make of plain values

Two kinds of values are let through by the encoder as they are: data that is already encoded is not
looked at, and of a structured address only the network and the payment hash are.  `Value.Plain` is
a value without either, at any depth.  An address that is given by its bytes or by their text is
plain, and the size of all of its hashes follows from how its bytes are read
(`Address.sized_of_ofBytes`).

From a plain value the rule of every primitive makes data of the primitive's shape, whichever of its
forms the value comes in (`Primitive.conforms_of_encode`).
-/
import ScriptBundle.Proofs.Address
import ScriptBundle.Proofs.Codec.Conforms

namespace ScriptBundle

open Codec Data

/-! ## 1. Plain values -/

/-- Neither encoded data nor a structured address occurs in a value. -/
inductive Value.Plain : Value → Prop
  | bool (b : Bool) : Plain (.bool b)
  | int (n : Int128) : Plain (.int n)
  | real (r : Real) : Plain (.real r)
  | bytes (b : Bytes) : Plain (.bytes b)
  | text (s : String) : Plain (.text s)
  | list {items : List Value} (h : ∀ v ∈ items, Plain v) : Plain (.list items)
  | map {pairs : List (Value × Value)} (hkeys : ∀ p ∈ pairs, Plain p.1)
    (hvalues : ∀ p ∈ pairs, Plain p.2) : Plain (.map pairs)
  | absent : Plain .absent
  | present {v : Value} (h : Plain v) : Plain (.present v)
  | record {fields : List (String × Value)} (h : ∀ e ∈ fields, Plain e.2) : Plain (.record fields)
  | variant (name : String) {fields : List (String × Value)} (h : ∀ e ∈ fields, Plain e.2) :
    Plain (.variant name fields)

/-! ## 2. Hashes that are measured -/

variable {network : Network} {path : Path} {v : Value} {d : Data}

namespace Codec

theorem length_of_sizedBytesOf {p : Primitive} {size : Nat} {b : Bytes}
    (h : sizedBytesOf path p size v = .ok b) : b.length = size := by
  simp only [sizedBytesOf, bind_eq_ok_iff, sized_eq_ok_iff] at h
  obtain ⟨_, -, -, hlen⟩ := h
  exact hlen

theorem length_of_hashVariantOf {p : Primitive} {name : String} {hash : Bytes}
    (h : hashVariantOf path p v = .ok (name, hash)) : hash.length = Address.hashLength := by
  cases v with
  | variant n fields =>
    simp only [hashVariantOf, bind_eq_ok_iff, pure_eq_ok_iff, Prod.mk.injEq] at h
    obtain ⟨_, -, _, hsized, -, rfl⟩ := h
    exact length_of_sizedBytesOf hsized
  | _ => cases h

end Codec

theorem Credential.length_of_ofValue {c : Credential} (h : ofValue path v = .ok c) :
    c.hash.length = Address.hashLength := by
  simp only [ofValue, bind_eq_ok_iff, Prod.exists] at h
  obtain ⟨name, hash, hhash, h⟩ := h
  split at h
  · cases h; exact length_of_hashVariantOf hhash
  · cases h; exact length_of_hashVariantOf hhash
  · cases h

theorem StakingHash.length_of_ofValue {c : StakingHash} (h : ofValue path v = .ok c) :
    c.hash.length = Address.hashLength := by
  simp only [ofValue, bind_eq_ok_iff, Prod.exists] at h
  obtain ⟨name, hash, hhash, h⟩ := h
  split at h
  · cases h; exact length_of_hashVariantOf hhash
  · cases h; exact length_of_hashVariantOf hhash
  · cases h

theorem StakingCredential.sized_of_ofValue {c : StakingCredential} (h : ofValue path v = .ok c) :
    c.Sized := by
  cases v with
  | variant name fields =>
    simp only [ofValue] at h
    split at h
    · simp only [bind_eq_ok_iff, pure_eq_ok_iff] at h
      obtain ⟨_, -, hash, hhash, rfl⟩ := h
      exact StakingHash.length_of_ofValue hhash
    · simp only [bind_eq_ok_iff, pure_eq_ok_iff] at h
      obtain ⟨_, -, _, -, _, -, rfl⟩ := h
      trivial
    · cases h
  | _ => cases h

namespace Address

/-- Every form of an address but the structured one is read from its bytes. -/
theorem sized_of_given {a : Address} (hv : v.Plain) (h : given path v = .ok a) : a.Sized := by
  cases v with
  | address a => cases hv
  | bytes b => exact sized_of_ofBytes (mapError_eq_ok_iff.mp h)
  | text s =>
    simp only [given, bind_eq_ok_iff, mapError_eq_ok_iff] at h
    obtain ⟨b, -, h⟩ := h
    exact sized_of_ofBytes h
  | _ => cases h

theorem given_of_ofValue {a : Address} (h : ofValue network path v = .ok a) :
    given path v = .ok a ∧ a.network = network := by
  simp only [ofValue, bind_eq_ok_iff] at h
  obtain ⟨a', hgiven, h⟩ := h
  split at h
  · cases h
  split at h
  · cases h
  rename_i hnetwork _
  cases h
  exact ⟨hgiven, Decidable.not_not.mp hnetwork⟩

end Address

/-! ## 3. Primitives -/

namespace Codec

theorem isTxId_of_encodeTxId (h : encodeTxId path v = .ok d) : d.IsTxId := by
  simp only [encodeTxId, bind_eq_ok_iff, pure_eq_ok_iff] at h
  obtain ⟨b, hb, rfl⟩ := h
  exact ⟨.bytes b, ⟨b, rfl, length_of_sizedBytesOf hb⟩, rfl⟩

theorem conforms_of_encodeTxOutputId (h : encodeTxOutputId path v = .ok d) :
    Primitive.txOutputId.Conforms d := by
  cases v with
  | record fields =>
    simp only [encodeTxOutputId, bind_eq_ok_iff, pure_eq_ok_iff] at h
    obtain ⟨_, -, id, hid, _, -, index, -, rfl⟩ := h
    exact ⟨id, index, isTxId_of_encodeTxId hid, rfl⟩
  | text s =>
    simp only [encodeTxOutputId] at h
    split at h
    · cases h
    · simp only [bind_eq_ok_iff, pure_eq_ok_iff] at h
      obtain ⟨id, hid, index, -, rfl⟩ := h
      exact ⟨id, index, isTxId_of_encodeTxId hid, rfl⟩
  | _ => cases h

theorem conforms_of_encodeAssetClass (h : encodeAssetClass path v = .ok d) :
    Primitive.assetClass.Conforms d := by
  cases v with
  | record fields =>
    simp only [encodeAssetClass, bind_eq_ok_iff, pure_eq_ok_iff] at h
    obtain ⟨_, -, policy, -, _, -, token, -, rfl⟩ := h
    exact ⟨policy, token, rfl⟩
  | text s =>
    simp only [encodeAssetClass] at h
    split at h
    · cases h
    · simp only [bind_eq_ok_iff, pure_eq_ok_iff] at h
      obtain ⟨policy, -, token, -, rfl⟩ := h
      exact ⟨policy, token, rfl⟩
  | _ => cases h

theorem isToken_of_encodeToken {t : Value × Value} {e : Data × Data}
    (h : encodeToken path t = .ok e) : IsToken e := by
  simp only [encodeToken, bind_eq_ok_iff, pure_eq_ok_iff] at h
  obtain ⟨name, -, amount, -, rfl⟩ := h
  exact ⟨name, amount, rfl⟩

theorem isPolicy_of_encodePolicy {p : Value × Value} {e : Data × Data}
    (h : encodePolicy path p = .ok e) : IsPolicy e := by
  simp only [encodePolicy, bind_eq_ok_iff] at h
  obtain ⟨hash, -, h⟩ := h
  split at h
  · simp only [bind_eq_ok_iff, pure_eq_ok_iff] at h
    obtain ⟨tokens, htokens, rfl⟩ := h
    exact ⟨hash, tokens, rfl, forall_of_each (fun _ _ _ _ => isToken_of_encodeToken) htokens⟩
  · cases h

theorem conforms_of_encodeAssets (h : encodeAssets path v = .ok d) :
    Primitive.value.Conforms d := by
  cases v with
  | int n =>
    cases h
    refine ⟨_, rfl, List.forall_mem_singleton.mpr ⟨[], _, rfl, ?_⟩⟩
    exact List.forall_mem_singleton.mpr ⟨[], n, rfl⟩
  | map policies =>
    simp only [encodeAssets, bind_eq_ok_iff, pure_eq_ok_iff] at h
    obtain ⟨es, hes, rfl⟩ := h
    exact ⟨es, rfl, forall_of_each (fun _ _ _ _ => isPolicy_of_encodePolicy) hes⟩
  | _ => cases h

theorem conforms_of_encodeParts {top bottom : Int128} (h : encodeParts path top bottom = .ok d) :
    Primitive.ratio.Conforms d := by
  unfold encodeParts at h
  split at h
  · cases h
  · rename_i hzero
    cases h
    exact ⟨top, bottom, hzero, rfl⟩

theorem conforms_of_encodeRatio (h : encodeRatio path v = .ok d) : Primitive.ratio.Conforms d := by
  unfold encodeRatio at h
  split at h
  · simp only [bind_eq_ok_iff] at h
    obtain ⟨_, -, _, -, _, -, _, -, h⟩ := h
    exact conforms_of_encodeParts h
  · simp only [bind_eq_ok_iff] at h
    obtain ⟨_, -, _, -, h⟩ := h
    exact conforms_of_encodeParts h
  · cases h

end Codec

/-- **Primitives.**  What the rule of a primitive makes of a plain value has the primitive's
shape. -/
theorem Primitive.conforms_of_encode {p : Primitive} (hv : v.Plain)
    (h : p.encode network path v = .ok d) : p.Conforms d := by
  have hhash {q : Primitive} {size : Nat}
      (h : (sizedBytesOf path q size v >>= fun b => pure (Data.bytes b)) = .ok d) :
      d.IsHash size := by
    simp only [bind_eq_ok_iff, pure_eq_ok_iff] at h
    obtain ⟨b, hb, rfl⟩ := h
    exact ⟨b, rfl, length_of_sizedBytesOf hb⟩
  have hint {q : Primitive}
      (h : (intOf path (.primitive q) v >>= fun n => pure (Data.int n)) = .ok d) :
      ∃ n, d = .int n := by
    simp only [bind_eq_ok_iff, pure_eq_ok_iff] at h
    obtain ⟨n, -, rfl⟩ := h
    exact ⟨n, rfl⟩
  cases p with
  | bool =>
    simp only [encode] at h
    split at h
    · rename_i b
      cases h
      cases b
      · exact .inl rfl
      · exact .inr rfl
    · cases h
  | int | time | duration => exact hint h
  | real =>
    simp only [encode, bind_eq_ok_iff, pure_eq_ok_iff] at h
    obtain ⟨r, -, rfl⟩ := h
    exact ⟨r.scaled, rfl⟩
  | byteArray =>
    simp only [encode, bind_eq_ok_iff, pure_eq_ok_iff] at h
    obtain ⟨b, -, rfl⟩ := h
    exact ⟨b, rfl⟩
  | string =>
    simp only [encode] at h
    split at h
    · rename_i s
      cases h
      exact ⟨s, rfl⟩
    · cases h
  | data => trivial
  | pubKeyHash | validatorHash | mintingPolicyHash | stakingValidatorHash | scriptHash
  | datumHash => exact hhash h
  | txId => exact isTxId_of_encodeTxId h
  | txOutputId => exact conforms_of_encodeTxOutputId h
  | credential =>
    simp only [encode, bind_eq_ok_iff, pure_eq_ok_iff] at h
    obtain ⟨c, hc, rfl⟩ := h
    exact (succeedsIff_credential _ path).mp
      ⟨c, Credential.ofData_eq_ok_iff.mpr ⟨rfl, Credential.length_of_ofValue hc⟩⟩
  | stakingHash =>
    simp only [encode, bind_eq_ok_iff, pure_eq_ok_iff] at h
    obtain ⟨c, hc, rfl⟩ := h
    exact (succeedsIff_stakingHash _ path).mp
      ⟨c, StakingHash.ofData_eq_ok_iff.mpr ⟨rfl, StakingHash.length_of_ofValue hc⟩⟩
  | stakingCredential =>
    simp only [encode, bind_eq_ok_iff, pure_eq_ok_iff] at h
    obtain ⟨c, hc, rfl⟩ := h
    exact (succeedsIff_stakingCredential _ path).mp
      ⟨c, StakingCredential.ofData_eq_ok_iff.mpr ⟨rfl, StakingCredential.sized_of_ofValue hc⟩⟩
  | address =>
    simp only [encode, bind_eq_ok_iff, pure_eq_ok_iff] at h
    obtain ⟨a, ha, rfl⟩ := h
    obtain ⟨hgiven, hnetwork⟩ := Address.given_of_ofValue ha
    exact (succeedsIff_address _ path).mp
      ⟨a, Address.ofData_eq_ok_iff.mpr ⟨rfl, hnetwork, Address.sized_of_given hv hgiven⟩⟩
  | assetClass => exact conforms_of_encodeAssetClass h
  | value => exact conforms_of_encodeAssets h
  | ratio => exact conforms_of_encodeRatio h

end ScriptBundle

/-
# Primitives, back from their data

What a primitive's decoder returns is one of the forms that its encoder takes, and the encoder
turns it into the data that was decoded (`Primitive.encode_of_decode`).  The one exception is the
primitive that stands for any data: its value is the data itself, which never reaches the rule of a
primitive when it is encoded.

The rules that are more than one node deep come first, each with the data that its decoder accepts.
-/
import ScriptBundle.Codec.Primitive
import ScriptBundle.Proofs.Codec.Credential

namespace ScriptBundle

namespace Codec

variable {path path' : Path} {d : Data} {v : Value}

/-! ## 1. Bytes and transactions -/

theorem sizedBytesOf_bytes {p : Primitive} {size : Nat} {b : Bytes} (hlen : b.length = size) :
    sizedBytesOf path p size (.bytes b) = .ok b :=
  bind_eq_ok_iff.mpr ⟨b, rfl, sized_eq_ok_iff.mpr ⟨rfl, hlen⟩⟩

theorem decodeTxId_eq_ok_iff {id : Bytes} :
    decodeTxId path d = .ok id ↔ d = .constr 0 [.bytes id] ∧ id.length = txIdLength := by
  simp only [decodeTxId, bind_eq_ok_iff, Prod.exists, asConstr_one_eq_ok_iff,
    asSizedBytes_eq_ok_iff]
  constructor
  · rintro ⟨-, fields, ⟨-, rfl, hone⟩, hhead, hlen⟩
    obtain ⟨x, rfl⟩ := List.length_eq_one_iff.mp hone
    obtain rfl : x = .bytes id := hhead
    exact ⟨rfl, hlen⟩
  · rintro ⟨rfl, hlen⟩
    exact ⟨0, _, ⟨rfl, rfl, rfl⟩, rfl, hlen⟩

theorem encodeTxId_bytes {id : Bytes} (hlen : id.length = txIdLength) :
    encodeTxId path (.bytes id) = .ok (.constr 0 [.bytes id]) :=
  bind_eq_ok_iff.mpr ⟨id, sizedBytesOf_bytes hlen, rfl⟩

theorem decodeTxOutputId_eq_ok_iff :
    decodeTxOutputId path d = .ok v ↔
      ∃ id index, id.length = txIdLength ∧ d = .constr 0 [.constr 0 [.bytes id], .int index] ∧
        v = .record [("tx_id", .bytes id), ("index", .int index)] := by
  simp only [decodeTxOutputId, bind_eq_ok_iff, Prod.exists, asConstr_one_eq_ok_iff,
    decodeTxId_eq_ok_iff, asInt_eq_ok_iff, pure_eq_ok_iff]
  constructor
  · rintro ⟨-, fields, ⟨-, rfl, htwo⟩, id, ⟨hid, hlen⟩, index, hindex, rfl⟩
    obtain ⟨x, y, rfl⟩ := List.length_eq_two.mp htwo
    obtain rfl : x = .constr 0 [.bytes id] := hid
    obtain rfl : y = .int index := hindex
    exact ⟨id, index, hlen, rfl, rfl⟩
  · rintro ⟨id, index, hlen, rfl, rfl⟩
    exact ⟨0, _, ⟨rfl, rfl, rfl⟩, id, ⟨rfl, hlen⟩, index, rfl, rfl⟩

theorem encodeTxOutputId_of_decode (h : decodeTxOutputId path d = .ok v) :
    encodeTxOutputId path' v = .ok d := by
  obtain ⟨id, index, hlen, rfl, rfl⟩ := decodeTxOutputId_eq_ok_iff.mp h
  refine bind_eq_ok_iff.mpr ⟨.bytes id, rfl, ?_⟩
  refine bind_eq_ok_iff.mpr ⟨_, encodeTxId_bytes hlen, ?_⟩
  refine bind_eq_ok_iff.mpr ⟨.int index, rfl, ?_⟩
  exact bind_eq_ok_iff.mpr ⟨index, rfl, rfl⟩

/-! ## 2. Assets -/

theorem decodeAssetClass_eq_ok_iff :
    decodeAssetClass path d = .ok v ↔
      ∃ policy token, d = .constr 0 [.bytes policy, .bytes token] ∧
        v = .record [("mph", .bytes policy), ("token_name", .bytes token)] := by
  simp only [decodeAssetClass, bind_eq_ok_iff, Prod.exists, asConstr_one_eq_ok_iff,
    asBytes_eq_ok_iff, pure_eq_ok_iff]
  constructor
  · rintro ⟨-, fields, ⟨-, rfl, htwo⟩, policy, hpolicy, token, htoken, rfl⟩
    obtain ⟨x, y, rfl⟩ := List.length_eq_two.mp htwo
    obtain rfl : x = .bytes policy := hpolicy
    obtain rfl : y = .bytes token := htoken
    exact ⟨policy, token, rfl, rfl⟩
  · rintro ⟨policy, token, rfl, rfl⟩
    exact ⟨0, _, ⟨rfl, rfl, rfl⟩, policy, rfl, token, rfl, rfl⟩

theorem encodeAssetClass_of_decode (h : decodeAssetClass path d = .ok v) :
    encodeAssetClass path' v = .ok d := by
  obtain ⟨policy, token, rfl, rfl⟩ := decodeAssetClass_eq_ok_iff.mp h
  refine bind_eq_ok_iff.mpr ⟨.bytes policy, rfl, ?_⟩
  refine bind_eq_ok_iff.mpr ⟨policy, rfl, ?_⟩
  refine bind_eq_ok_iff.mpr ⟨.bytes token, rfl, ?_⟩
  exact bind_eq_ok_iff.mpr ⟨token, rfl, rfl⟩

theorem encodeToken_of_decode {t : Data × Data} {w : Value × Value}
    (h : decodeToken path t = .ok w) : encodeToken path' w = .ok t := by
  obtain ⟨k, a⟩ := t
  simp only [decodeToken, bind_eq_ok_iff, asBytes_eq_ok_iff, asInt_eq_ok_iff,
    pure_eq_ok_iff] at h
  obtain ⟨name, rfl, amount, rfl, rfl⟩ := h
  exact bind_eq_ok_iff.mpr ⟨name, rfl, bind_eq_ok_iff.mpr ⟨amount, rfl, rfl⟩⟩

theorem encodePolicy_of_decode {p : Data × Data} {w : Value × Value}
    (h : decodePolicy path p = .ok w) : encodePolicy path' w = .ok p := by
  obtain ⟨k, a⟩ := p
  simp only [decodePolicy, bind_eq_ok_iff, asBytes_eq_ok_iff, asMap_eq_ok_iff,
    pure_eq_ok_iff] at h
  obtain ⟨hash, rfl, tokens, rfl, ws, hws, rfl⟩ := h
  have htokens : each encodeToken path' ws = .ok tokens :=
    each_of_each (fun t _ _ _ w => encodeToken_of_decode) hws
  refine bind_eq_ok_iff.mpr ⟨hash, rfl, ?_⟩
  exact bind_eq_ok_iff.mpr ⟨tokens, htokens, rfl⟩

theorem encodeAssets_of_decode (h : decodeAssets path d = .ok v) :
    encodeAssets path' v = .ok d := by
  simp only [decodeAssets, bind_eq_ok_iff, asMap_eq_ok_iff, pure_eq_ok_iff] at h
  obtain ⟨policies, rfl, ws, hws, rfl⟩ := h
  have hpolicies : each encodePolicy path' ws = .ok policies :=
    each_of_each (fun p _ _ _ w => encodePolicy_of_decode) hws
  exact bind_eq_ok_iff.mpr ⟨policies, hpolicies, rfl⟩

/-! ## 3. Ratios -/

theorem decodeRatio_eq_ok_iff :
    decodeRatio path d = .ok v ↔
      ∃ top bottom : Int128, bottom.val ≠ 0 ∧ d = .list [.int top, .int bottom] ∧
        v = .record [("top", .int top), ("bottom", .int bottom)] := by
  simp only [decodeRatio, bind_eq_ok_iff, asListOf_eq_ok_iff, asInt_eq_ok_iff]
  constructor
  · rintro ⟨items, ⟨rfl, htwo⟩, top, htop, bottom, hbottom, h⟩
    obtain ⟨x, y, rfl⟩ := List.length_eq_two.mp htwo
    obtain rfl : x = .int top := htop
    obtain rfl : y = .int bottom := hbottom
    by_cases hzero : bottom.val = 0
    · rw [if_pos hzero] at h
      cases h
    · rw [if_neg hzero] at h
      exact ⟨top, bottom, hzero, rfl, (pure_eq_ok_iff.mp h).symm⟩
  · rintro ⟨top, bottom, hzero, rfl, rfl⟩
    refine ⟨_, ⟨rfl, rfl⟩, top, rfl, bottom, rfl, ?_⟩
    exact if_neg hzero

theorem encodeRatio_of_decode (h : decodeRatio path d = .ok v) : encodeRatio path' v = .ok d := by
  obtain ⟨top, bottom, hzero, rfl, rfl⟩ := decodeRatio_eq_ok_iff.mp h
  refine bind_eq_ok_iff.mpr ⟨.int top, rfl, ?_⟩
  refine bind_eq_ok_iff.mpr ⟨top, rfl, ?_⟩
  refine bind_eq_ok_iff.mpr ⟨.int bottom, rfl, ?_⟩
  exact bind_eq_ok_iff.mpr ⟨bottom, rfl, if_neg hzero⟩

end Codec

/-! ## 4. All of them -/

open Codec

/-- **The rule of every primitive undoes its own decoding**, at any place and on the network that
the data was decoded for. -/
theorem Primitive.encode_of_decode {network : Network} {path path' : Path} {p : Primitive}
    {d : Data} {v : Value} (hp : p ≠ .data) (h : p.decode network path d = .ok v) :
    p.encode network path' v = .ok d := by
  have hbytes {q : Primitive} {size : Nat}
      (h : (asSizedBytes path q size d >>= fun b => pure (Value.bytes b)) = .ok v) :
      (sizedBytesOf path' q size v >>= fun b => pure (Data.bytes b)) = .ok d := by
    simp only [bind_eq_ok_iff, asSizedBytes_eq_ok_iff, pure_eq_ok_iff] at h
    obtain ⟨b, ⟨rfl, hlen⟩, rfl⟩ := h
    exact bind_eq_ok_iff.mpr ⟨b, sizedBytesOf_bytes hlen, rfl⟩
  have hint {q : Primitive}
      (h : (asInt path d >>= fun n => pure (Value.int n)) = .ok v) :
      (intOf path' (.primitive q) v >>= fun n => pure (Data.int n)) = .ok d := by
    simp only [bind_eq_ok_iff, asInt_eq_ok_iff, pure_eq_ok_iff] at h
    obtain ⟨n, rfl, rfl⟩ := h
    exact bind_eq_ok_iff.mpr ⟨n, rfl, rfl⟩
  cases p with
  | data => exact absurd rfl hp
  | bool =>
    simp only [decode, bind_eq_ok_iff, Prod.exists, asConstr_two_eq_ok_iff, pure_eq_ok_iff] at h
    obtain ⟨tag, fields, ⟨rfl, rfl, hlen⟩ | ⟨rfl, rfl, hlen⟩, rfl⟩ := h
    · obtain rfl := List.eq_nil_of_length_eq_zero hlen
      rfl
    · obtain rfl := List.eq_nil_of_length_eq_zero hlen
      rfl
  | int => exact hint h
  | time => exact hint h
  | duration => exact hint h
  | real =>
    simp only [decode, bind_eq_ok_iff, asInt_eq_ok_iff, pure_eq_ok_iff] at h
    obtain ⟨n, rfl, rfl⟩ := h
    rfl
  | byteArray =>
    simp only [decode, bind_eq_ok_iff, asBytes_eq_ok_iff, pure_eq_ok_iff] at h
    obtain ⟨b, rfl, rfl⟩ := h
    rfl
  | string =>
    simp only [decode, bind_eq_ok_iff, asBytes_eq_ok_iff] at h
    obtain ⟨b, rfl, h⟩ := h
    cases hs : Bytes.toText? b with
    | none => rw [hs] at h; cases h
    | some s =>
      rw [hs] at h
      obtain rfl := pure_eq_ok_iff.mp h
      have hb : Bytes.ofText s = b := Bytes.ofText_of_toText? hs
      simp only [encode, hb]
  | pubKeyHash => exact hbytes h
  | validatorHash => exact hbytes h
  | mintingPolicyHash => exact hbytes h
  | stakingValidatorHash => exact hbytes h
  | scriptHash => exact hbytes h
  | datumHash => exact hbytes h
  | txId =>
    simp only [decode, bind_eq_ok_iff, decodeTxId_eq_ok_iff, pure_eq_ok_iff] at h
    obtain ⟨id, ⟨rfl, hlen⟩, rfl⟩ := h
    exact encodeTxId_bytes hlen
  | txOutputId => exact encodeTxOutputId_of_decode h
  | credential =>
    simp only [decode, bind_eq_ok_iff, Credential.ofData_eq_ok_iff, pure_eq_ok_iff] at h
    obtain ⟨c, ⟨rfl, hlen⟩, rfl⟩ := h
    exact bind_eq_ok_iff.mpr ⟨c, Credential.ofValue_toValue hlen, rfl⟩
  | stakingHash =>
    simp only [decode, bind_eq_ok_iff, StakingHash.ofData_eq_ok_iff, pure_eq_ok_iff] at h
    obtain ⟨c, ⟨rfl, hlen⟩, rfl⟩ := h
    exact bind_eq_ok_iff.mpr ⟨c, StakingHash.ofValue_toValue hlen, rfl⟩
  | stakingCredential =>
    simp only [decode, bind_eq_ok_iff, StakingCredential.ofData_eq_ok_iff, pure_eq_ok_iff] at h
    obtain ⟨c, ⟨rfl, hsize⟩, rfl⟩ := h
    exact bind_eq_ok_iff.mpr ⟨c, StakingCredential.ofValue_toValue hsize, rfl⟩
  | address =>
    simp only [decode, bind_eq_ok_iff, Address.ofData_eq_ok_iff, pure_eq_ok_iff] at h
    obtain ⟨a, ⟨rfl, rfl, hpay, -⟩, rfl⟩ := h
    exact bind_eq_ok_iff.mpr ⟨a, Address.ofValue_address hpay, rfl⟩
  | assetClass => exact encodeAssetClass_of_decode h
  | value => exact encodeAssets_of_decode h
  | ratio => exact encodeRatio_of_decode h

end ScriptBundle

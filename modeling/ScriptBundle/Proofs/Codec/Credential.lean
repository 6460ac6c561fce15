/-
# Credentials and addresses, back from their data and their values

A credential has one form as data and one as a value.  Reading the data succeeds on exactly that
form with hashes of the right size (`Credential.ofData_eq_ok_iff` and its siblings), and reading
the value gives the credential back (`Credential.ofValue_toValue`).  Together they carry the round
trip of the five primitives that hold credentials.

The hashes of a staking credential that was read are of the right size too, so what is read is
`Sized`: a pointer holds no hash and always is.
-/
import Mathlib.Data.List.Basic
import ScriptBundle.Codec.Credential
import ScriptBundle.Proofs.Codec.Node

namespace ScriptBundle

open Codec

variable {path : Path} {d : Data}

/-! ## 1. Choices between two hashes -/

theorem asHashChoice_eq_ok_iff {first second : Primitive} {tag : UInt64} {hash : Bytes} :
    asHashChoice path first second d = .ok (tag, hash) ↔
      (tag = 0 ∨ tag = 1) ∧ d = .constr tag [.bytes hash] ∧ hash.length = Address.hashLength := by
  simp only [asHashChoice, bind_eq_ok_iff, Prod.exists, asConstr_two_eq_ok_iff,
    asSizedBytes_eq_ok_iff, pure_eq_ok_iff, Prod.mk.injEq]
  constructor
  · rintro ⟨tag', fields, hshape, hash', ⟨hhead, hlen⟩, rfl, rfl⟩
    have hone : fields.length = 1 ∧ d = .constr tag' fields ∧ (tag' = 0 ∨ tag' = 1) := by
      rcases hshape with ⟨rfl, rfl, h⟩ | ⟨rfl, rfl, h⟩
      · exact ⟨h, rfl, Or.inl rfl⟩
      · exact ⟨h, rfl, Or.inr rfl⟩
    obtain ⟨hone, rfl, htag⟩ := hone
    obtain ⟨x, rfl⟩ := List.length_eq_one_iff.mp hone
    obtain rfl : x = .bytes hash' := hhead
    exact ⟨htag, rfl, hlen⟩
  · rintro ⟨htag, rfl, hlen⟩
    refine ⟨tag, [.bytes hash], ?_, hash, ⟨rfl, hlen⟩, rfl, rfl⟩
    rcases htag with rfl | rfl
    · exact Or.inl ⟨rfl, rfl, rfl⟩
    · exact Or.inr ⟨rfl, rfl, rfl⟩

/-- A variant whose first field `hash` holds bytes of the right size. -/
theorem hashVariantOf_hash {p : Primitive} {name : String} {hash : Bytes}
    (hlen : hash.length = Address.hashLength) :
    hashVariantOf path p (.variant name [("hash", .bytes hash)]) = .ok (name, hash) := by
  have hsized : sizedBytesOf (.field path "hash") p Address.hashLength (.bytes hash) = .ok hash :=
    bind_eq_ok_iff.mpr ⟨hash, rfl, sized_eq_ok_iff.mpr ⟨rfl, hlen⟩⟩
  refine bind_eq_ok_iff.mpr ⟨.bytes hash, rfl, ?_⟩
  exact bind_eq_ok_iff.mpr ⟨hash, hsized, rfl⟩

/-! ## 2. Payment -/

namespace Credential

theorem ofData_eq_ok_iff {c : Credential} :
    ofData path d = .ok c ↔ d = c.toData ∧ c.hash.length = Address.hashLength := by
  simp only [ofData, bind_eq_ok_iff, Prod.exists, asHashChoice_eq_ok_iff, pure_eq_ok_iff]
  constructor
  · rintro ⟨tag, hash, ⟨rfl | rfl, rfl, hlen⟩, rfl⟩ <;> exact ⟨rfl, hlen⟩
  · rintro ⟨rfl, hlen⟩
    cases c with
    | pubKey h => exact ⟨0, h, ⟨Or.inl rfl, rfl, hlen⟩, rfl⟩
    | validator h => exact ⟨1, h, ⟨Or.inr rfl, rfl, hlen⟩, rfl⟩

theorem ofValue_toValue {c : Credential} (hlen : c.hash.length = Address.hashLength) :
    ofValue path c.toValue = .ok c := by
  cases c <;> exact bind_eq_ok_iff.mpr ⟨_, hashVariantOf_hash hlen, rfl⟩

end Credential

/-! ## 3. Staking -/

namespace StakingHash

theorem ofData_eq_ok_iff {h : StakingHash} :
    ofData path d = .ok h ↔ d = h.toData ∧ h.hash.length = Address.hashLength := by
  simp only [ofData, bind_eq_ok_iff, Prod.exists, asHashChoice_eq_ok_iff, pure_eq_ok_iff]
  constructor
  · rintro ⟨tag, hash, ⟨rfl | rfl, rfl, hlen⟩, rfl⟩ <;> exact ⟨rfl, hlen⟩
  · rintro ⟨rfl, hlen⟩
    cases h with
    | stakeKey h => exact ⟨0, h, ⟨Or.inl rfl, rfl, hlen⟩, rfl⟩
    | validator h => exact ⟨1, h, ⟨Or.inr rfl, rfl, hlen⟩, rfl⟩

theorem ofValue_toValue {h : StakingHash} (hlen : h.hash.length = Address.hashLength) :
    ofValue path h.toValue = .ok h := by
  cases h <;> exact bind_eq_ok_iff.mpr ⟨_, hashVariantOf_hash hlen, rfl⟩

end StakingHash

namespace StakingCredential

/-- The hash, if there is one, has the right size. -/
def Sized : StakingCredential → Prop
  | .hash h => h.hash.length = Address.hashLength
  | .pointer _ _ _ => True

/-- **Two tags, two shapes.**  The three fields of a pointer are what tells the branches of the
reader apart, and the arities leave them to tag 1. -/
theorem ofData_eq_ok_iff {c : StakingCredential} :
    ofData path d = .ok c ↔ d = c.toData ∧ c.Sized := by
  simp only [ofData, bind_eq_ok_iff, Prod.exists, asConstr_two_eq_ok_iff]
  constructor
  · rintro ⟨tag, fields, ⟨rfl, rfl, hlen⟩ | ⟨rfl, rfl, hlen⟩, h⟩
    · obtain ⟨x, rfl⟩ := List.length_eq_one_iff.mp hlen
      simp only [bind_eq_ok_iff, pure_eq_ok_iff, StakingHash.ofData_eq_ok_iff] at h
      obtain ⟨hash, ⟨hx, hsize⟩, rfl⟩ := h
      obtain rfl : x = hash.toData := hx
      exact ⟨rfl, hsize⟩
    · obtain ⟨x, y, z, rfl⟩ := List.length_eq_three.mp hlen
      simp only [bind_eq_ok_iff, pure_eq_ok_iff, asWord_eq_ok_iff] at h
      obtain ⟨slot, rfl, txIndex, rfl, certIndex, rfl, rfl⟩ := h
      exact ⟨rfl, trivial⟩
  · rintro ⟨rfl, hsize⟩
    cases c with
    | hash h =>
      refine ⟨0, [h.toData], Or.inl ⟨rfl, rfl, rfl⟩, ?_⟩
      exact bind_eq_ok_iff.mpr ⟨h, StakingHash.ofData_eq_ok_iff.mpr ⟨rfl, hsize⟩, rfl⟩
    | pointer slot txIndex certIndex =>
      refine ⟨1, _, Or.inr ⟨rfl, rfl, rfl⟩, ?_⟩
      refine bind_eq_ok_iff.mpr ⟨slot, asWord_eq_ok_iff.mpr rfl, ?_⟩
      refine bind_eq_ok_iff.mpr ⟨txIndex, asWord_eq_ok_iff.mpr rfl, ?_⟩
      exact bind_eq_ok_iff.mpr ⟨certIndex, asWord_eq_ok_iff.mpr rfl, rfl⟩

theorem wordOf_ofUInt64 (w : UInt64) : wordOf path (.int (.ofUInt64 w)) = .ok w := by
  simp only [wordOf, bind_eq_ok_iff]
  exact ⟨.ofUInt64 w, rfl, by rw [Int128.toUInt64?_ofUInt64]⟩

theorem pointerField_of_field {v : Value} {name : String} {w : UInt64}
    (hv : v.field? name = some (.int (.ofUInt64 w))) : pointerField path v name = .ok w := by
  have hfield : fieldOf path name v = .ok (.int (.ofUInt64 w)) := by rw [fieldOf, hv]
  exact bind_eq_ok_iff.mpr ⟨_, hfield, wordOf_ofUInt64 w⟩

theorem ofValue_toValue {c : StakingCredential} (hsize : c.Sized) :
    ofValue path c.toValue = .ok c := by
  cases c with
  | hash h =>
    refine bind_eq_ok_iff.mpr ⟨h.toValue, rfl, ?_⟩
    exact bind_eq_ok_iff.mpr ⟨h, StakingHash.ofValue_toValue hsize, rfl⟩
  | pointer slot txIndex certIndex =>
    refine bind_eq_ok_iff.mpr ⟨slot, pointerField_of_field rfl, ?_⟩
    refine bind_eq_ok_iff.mpr ⟨txIndex, pointerField_of_field rfl, ?_⟩
    exact bind_eq_ok_iff.mpr ⟨certIndex, pointerField_of_field rfl, rfl⟩

end StakingCredential

/-! ## 4. Addresses -/

namespace Address

/-- Every hash, of payment and of staking, has the right size. -/
def Sized (a : Address) : Prop :=
  a.payment.hash.length = hashLength ∧ ∀ s ∈ a.staking, s.Sized

/-- An address that is read is one of the network that it is read for. -/
theorem ofData_eq_ok_iff {network : Network} {a : Address} :
    ofData network path d = .ok a ↔ d = a.toData ∧ a.network = network ∧ a.Sized := by
  simp only [ofData, bind_eq_ok_iff, Prod.exists, asConstr_one_eq_ok_iff,
    Credential.ofData_eq_ok_iff, asOptional_eq_ok_iff]
  constructor
  · rintro ⟨-, fields, ⟨-, rfl, hlen⟩, payment, ⟨hp, hpsize⟩, staking, hs, h⟩
    obtain ⟨x, y, rfl⟩ := List.length_eq_two.mp hlen
    obtain rfl : x = payment.toData := hp
    obtain rfl : y = Codec.optional staking := hs
    cases staking with
    | none =>
      obtain rfl := pure_eq_ok_iff.mp h
      exact ⟨rfl, rfl, hpsize, fun s hs => (by cases hs)⟩
    | some sd =>
      simp only [bind_eq_ok_iff, pure_eq_ok_iff, StakingCredential.ofData_eq_ok_iff] at h
      obtain ⟨s, ⟨rfl, hssize⟩, rfl⟩ := h
      refine ⟨rfl, rfl, hpsize, ?_⟩
      rintro s' hs'
      cases hs'
      exact hssize
  · rintro ⟨rfl, rfl, hpsize, hssize⟩
    obtain ⟨network, payment, staking⟩ := a
    refine ⟨0, _, ⟨rfl, rfl, rfl⟩, payment, ⟨rfl, hpsize⟩, _, rfl, ?_⟩
    cases staking with
    | none => rfl
    | some s =>
      have hread : StakingCredential.ofData (.item path 1) s.toData = .ok s :=
        StakingCredential.ofData_eq_ok_iff.mpr ⟨rfl, hssize s rfl⟩
      exact bind_eq_ok_iff.mpr ⟨s, hread, rfl⟩

/-- A structured address of the right network is taken as it is. -/
theorem ofValue_address {a : Address} (hpay : a.payment.hash.length = hashLength) :
    ofValue a.network path (.address a) = .ok a := by
  refine bind_eq_ok_iff.mpr ⟨a, rfl, ?_⟩
  simp [hpay, pure_eq_ok_iff]

end Address

end ScriptBundle

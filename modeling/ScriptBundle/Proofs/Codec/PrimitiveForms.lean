/-
# The forms of primitive values

Encoding takes a value in more forms than the one that decoding gives.  Bytes come raw or as
hexadecimal text, an integer or a decimal as a number or as its text, an address by its bytes, and a
record or a variant with its entries in any order.  `Primitive.HasForm` lists, primitive by
primitive, the forms of a value.  It says how they are written and mentions no reader: a text is a
form of bytes because in lower case it is their hexadecimal text, whatever is made of it afterwards.

Whichever form a value comes in, it is encoded as the same data (`Primitive.encode_of_hasForm`).

A record that belongs to a primitive may not be given by position, a ratio apart, and none of its
entries may be left out; both are possible for records of a schema, so entries in some order are
described once (`Value.Reordering`, `Value.RecordForm`) and serve both.
-/
import ScriptBundle.Proofs.Address
import ScriptBundle.Proofs.Codec.RoundTrip
import ScriptBundle.Proofs.Decimal

namespace ScriptBundle

open Codec

/-! ## 1. Bytes, numbers and addresses -/

/-- Bytes, raw or as hexadecimal text in either case. -/
inductive Bytes.HasForm (b : Bytes) : Value → Prop
  | raw : HasForm b (.bytes b)
  | text {s : String} (h : s.toLower = Hex.encode b) : HasForm b (.text s)

/-- An integer or its decimal text, with white space around it or not. -/
inductive Int128.HasForm (n : Int128) : Value → Prop
  | int : HasForm n (.int n)
  | text {core : List Char} {s : String} (hcore : Numeral.Denotes core n.val)
    (h : Text.Padded core s.toList) : HasForm n (.text s)

/-- A decimal, its exact text, or the integer that it is. -/
inductive Real.HasForm (r : Real) : Value → Prop
  | real : HasForm r (.real r)
  | whole {n : Int128} (h : n.val * Real.scale = r.scaled.val) : HasForm r (.int n)
  | text {core : List Char} {s : String} (hcore : Real.Denotes core r)
    (h : Text.Padded core s.toList) : HasForm r (.text s)

/-- A structured address, or its bytes in either form. -/
inductive Address.HasForm (a : Address) : Value → Prop
  | structured : HasForm a (.address a)
  | bytes {w : Value} (ha : a.Sized) (h : Bytes.HasForm a.toBytes w) : HasForm a w

variable {network : Network} {path path' : Path} {v w : Value} {d : Data}

namespace Codec

theorem bytesOf_of_hasForm {p : Primitive} {b : Bytes} (h : Bytes.HasForm b w) :
    bytesOf path p w = .ok b := by
  cases h with
  | raw => rfl
  | text h => rw [bytesOf, hexBytes, Hex.decode_of_toLower h]

theorem sizedBytesOf_of_hasForm {p q : Primitive} {size : Nat} {b c : Bytes}
    (hw : Bytes.HasForm b w) (h : sizedBytesOf path p size (.bytes b) = .ok c) :
    sizedBytesOf path' q size w = .ok c := by
  simp only [sizedBytesOf, bytesOf, bind_eq_ok_iff, sized_eq_ok_iff] at h
  obtain ⟨_, ⟨⟩, rfl, hlen⟩ := h
  exact bind_eq_ok_iff.mpr ⟨_, bytesOf_of_hasForm hw, sized_eq_ok_iff.mpr ⟨rfl, hlen⟩⟩

theorem intOf_of_hasForm {expected : Expected} {n : Int128} (h : n.HasForm w) :
    intOf path expected w = .ok n := by
  cases h with
  | int => rfl
  | text hcore h => rw [intOf, decimalInt, Int128.ofChars?_of_denotes hcore h]

theorem wordOf_of_hasForm {n : Int128} {i : UInt64} (hw : n.HasForm w)
    (h : wordOf path (.int n) = .ok i) : wordOf path' w = .ok i := by
  simp only [wordOf, bind_eq_ok_iff] at h ⊢
  obtain ⟨_, ⟨⟩, h⟩ := h
  refine ⟨n, intOf_of_hasForm hw, ?_⟩
  cases hn : n.toUInt64? with
  | none =>
    rw [hn] at h
    cases h
  | some j =>
    rw [hn] at h
    exact h

theorem realOf_of_hasForm {r : Real} (h : r.HasForm w) : realOf path w = .ok r := by
  cases h with
  | real => rfl
  | @whole n h =>
    have hfit : Real.ofInt? n = some r := by
      rw [Real.ofInt?, h, Int128.ofInt?_val]
      rfl
    rw [realOf, hfit]
  | text hcore h =>
    rw [realOf, Real.parse, Real.ofChars?_eq_some_iff.mpr ⟨_, h, hcore⟩]
    rfl

end Codec

theorem Address.given_of_hasForm {a : Address} (h : a.HasForm w) : given path w = .ok a := by
  cases h with
  | structured => rfl
  | bytes ha h =>
    cases h with
    | raw => rw [given, ofBytes_toBytes ha]; rfl
    | text h =>
      rw [given, hexBytes, Hex.decode_of_toLower h]
      exact mapError_eq_ok_iff.mpr (ofBytes_toBytes ha)

/-! ## 2. Entries in any order -/

namespace Value

/-- The entries in any order, where absent options may be left out. -/
def Reordering (entries given : List (String × Value)) : Prop :=
  ∃ kept, kept.Sublist entries ∧ (∀ e ∈ entries, e ∈ kept ∨ e.2 = .absent) ∧ given.Perm kept

/-- Parts by name, or all of them by position. -/
inductive RecordForm (parts : List (String × Value)) : Value → Prop
  | named {given : List (String × Value)} (h : Reordering parts given) :
    RecordForm parts (.record given)
  | positional : RecordForm parts (.list (parts.map (·.2)))

theorem reordering_self (entries : List (String × Value)) : Reordering entries entries :=
  ⟨entries, List.Sublist.refl _, fun _ he => .inl he, List.Perm.refl _⟩

namespace Reordering

variable {entries given : List (String × Value)}

theorem subset (h : Reordering entries given) : given ⊆ entries := by
  obtain ⟨kept, hsub, -, hperm⟩ := h
  exact fun _ he => hsub.subset (hperm.subset he)

theorem nodup (h : Reordering entries given) (hnd : (entries.map (·.1)).Nodup) :
    (given.map (·.1)).Nodup := by
  obtain ⟨kept, hsub, -, hperm⟩ := h
  exact (hperm.map _).nodup_iff.mpr (hnd.sublist (hsub.map _))

/-- An entry is found under its name, unless it is an absent option that is left out. -/
theorem entry?_eq (h : Reordering entries given) (hnd : (entries.map (·.1)).Nodup)
    {e : String × Value} (he : e ∈ entries) :
    entry? e.1 given = some e.2 ∨ entry? e.1 given = none ∧ e.2 = .absent := by
  obtain ⟨kept, hsub, hcover, hperm⟩ := id h
  rcases hcover e he with hkept | habsent
  · exact .inl (entry?_of_mem (h.nodup hnd) (hperm.symm.subset hkept))
  cases hfound : entry? e.1 given with
  | none => exact .inr ⟨rfl, habsent⟩
  | some w =>
    obtain ⟨e', hfind, rfl⟩ := Option.map_eq_some_iff.mp hfound
    have hname : e'.1 = e.1 := by simpa using List.find?_some hfind
    have hmem : e' ∈ entries := h.subset (List.mem_of_find?_eq_some hfind)
    rw [List.inj_on_of_nodup_map hnd hmem he hname]
    exact .inl rfl

/-- What is not absent is not left out. -/
theorem fieldOf_eq (h : Reordering entries given) (hnd : (entries.map (·.1)).Nodup)
    {name : String} (hmem : (name, w) ∈ entries) (hw : w ≠ .absent)
    (hv : v.field? name = entry? name given) : fieldOf path name v = .ok w := by
  rcases h.entry?_eq hnd hmem with hfound | ⟨-, habsent⟩
  · rw [fieldOf, hv, hfound]
  · exact absurd habsent hw

end Reordering

end Value

open Value

theorem Bytes.HasForm.ne_absent {b : Bytes} (h : Bytes.HasForm b w) : w ≠ .absent := by
  rintro rfl
  cases h

theorem Int128.HasForm.ne_absent {n : Int128} (h : n.HasForm w) : w ≠ .absent := by
  rintro rfl
  cases h

/-! ## 3. Primitives with parts -/

namespace Value

/-- A variant whose single field is a hash. -/
def HashVariantForm (v w : Value) : Prop :=
  ∃ name hash x, v = .variant name [("hash", .bytes hash)] ∧ Bytes.HasForm hash x ∧
    w = .variant name [("hash", x)]

/-- A hash that stakes, or the three numbers of a pointer. -/
inductive StakingForm : Value → Value → Prop
  | hash {v w : Value} (h : HashVariantForm v w) :
    StakingForm (.variant "Hash" [("hash", v)]) (.variant "Hash" [("hash", w)])
  | pointer {slot txIndex certIndex : Int128} {x y z : Value} {given : List (String × Value)}
    (hslot : slot.HasForm x) (htx : txIndex.HasForm y) (hcert : certIndex.HasForm z)
    (h : Reordering [("slot", x), ("tx_index", y), ("cert_index", z)] given) :
    StakingForm
      (.variant "Pointer" [("slot", .int slot), ("tx_index", .int txIndex),
        ("cert_index", .int certIndex)])
      (.variant "Pointer" given)

/-- A transaction and the position of one of its outputs; as text, with a `#` between. -/
inductive OutputForm (id : Bytes) (index : Int128) : Value → Prop
  | record {x y : Value} {given : List (String × Value)} (hid : Bytes.HasForm id x)
    (hindex : index.HasForm y) (h : Reordering [("tx_id", x), ("index", y)] given) :
    OutputForm id index (.record given)
  | text {s t : String} (hid : Bytes.HasForm id (.text s)) (hindex : index.HasForm (.text t)) :
    OutputForm id index (.text (s ++ "#" ++ t))

/-- A policy and a token name; as text, with a point between. -/
inductive AssetForm (policy token : Bytes) : Value → Prop
  | record {x y : Value} {given : List (String × Value)} (hpolicy : Bytes.HasForm policy x)
    (htoken : Bytes.HasForm token y) (h : Reordering [("mph", x), ("token_name", y)] given) :
    AssetForm policy token (.record given)
  | text {s t : String} (hpolicy : Bytes.HasForm policy (.text s))
    (htoken : Bytes.HasForm token (.text t)) : AssetForm policy token (.text (s ++ "." ++ t))

/-- The name of a token and an amount. -/
def TokenForm (t u : Value × Value) : Prop :=
  ∃ name amount, t = (.bytes name, .int amount) ∧ Bytes.HasForm name u.1 ∧ amount.HasForm u.2

/-- A policy and the amounts of its tokens. -/
def PolicyForm (p q : Value × Value) : Prop :=
  ∃ hash tokens given, p = (.bytes hash, .map tokens) ∧ Bytes.HasForm hash q.1 ∧
    q.2 = .map given ∧ List.Forall₂ TokenForm tokens given

/-- Amounts by policy and token name; an amount of the token that has neither, alone. -/
inductive AssetsForm : Value → Value → Prop
  | map {policies given : List (Value × Value)} (h : List.Forall₂ PolicyForm policies given) :
    AssetsForm (.map policies) (.map given)
  | amount (n : Int128) : AssetsForm (.map [(.bytes [], .map [(.bytes [], .int n)])]) (.int n)

end Value

/-- The forms of a value of a primitive. -/
def Primitive.HasForm (p : Primitive) (v w : Value) : Prop :=
  match p with
  | .bool | .string | .data => w = v
  | .int | .time | .duration => ∃ n : Int128, v = .int n ∧ n.HasForm w
  | .real => ∃ r : Real, v = .real r ∧ r.HasForm w
  | .byteArray | .pubKeyHash | .validatorHash | .mintingPolicyHash | .stakingValidatorHash
  | .scriptHash | .datumHash | .txId => ∃ b, v = .bytes b ∧ Bytes.HasForm b w
  | .txOutputId => ∃ id index, v = .record [("tx_id", .bytes id), ("index", .int index)] ∧
    OutputForm id index w
  | .credential | .stakingHash => HashVariantForm v w
  | .stakingCredential => StakingForm v w
  | .address => ∃ a : Address, v = .address a ∧ a.HasForm w
  | .assetClass => ∃ policy token,
    v = .record [("mph", .bytes policy), ("token_name", .bytes token)] ∧ AssetForm policy token w
  | .value => AssetsForm v w
  | .ratio => ∃ (top bottom : Int128) (x y : Value),
    v = .record [("top", .int top), ("bottom", .int bottom)] ∧ top.HasForm x ∧ bottom.HasForm y ∧
    RecordForm [("top", x), ("bottom", y)] w

namespace Codec

theorem hashVariantOf_of_hasForm {p q : Primitive} {r : String × Bytes} (hw : HashVariantForm v w)
    (h : hashVariantOf path p v = .ok r) : hashVariantOf path' q w = .ok r := by
  obtain ⟨name, hash, x, rfl, hx, rfl⟩ := hw
  simp only [hashVariantOf, bind_eq_ok_iff, pure_eq_ok_iff] at h
  obtain ⟨_, ⟨⟩, b, hb, rfl⟩ := h
  refine bind_eq_ok_iff.mpr ⟨x, rfl, ?_⟩
  exact bind_eq_ok_iff.mpr ⟨b, sizedBytesOf_of_hasForm hx hb, rfl⟩

end Codec

theorem Credential.ofValue_of_hasForm {c : Credential} (hw : HashVariantForm v w)
    (h : ofValue path v = .ok c) : ofValue path' w = .ok c := by
  simp only [ofValue, bind_eq_ok_iff] at h ⊢
  obtain ⟨r, hr, h⟩ := h
  refine ⟨r, hashVariantOf_of_hasForm hw hr, ?_⟩
  split at h
  · exact h
  · exact h
  · cases h

theorem StakingHash.ofValue_of_hasForm {c : StakingHash} (hw : HashVariantForm v w)
    (h : ofValue path v = .ok c) : ofValue path' w = .ok c := by
  simp only [ofValue, bind_eq_ok_iff] at h ⊢
  obtain ⟨r, hr, h⟩ := h
  refine ⟨r, hashVariantOf_of_hasForm hw hr, ?_⟩
  split at h
  · exact h
  · exact h
  · cases h

namespace StakingCredential

/-- A number of a pointer is found in every order of its entries. -/
theorem pointerField_of_hasForm {entries given : List (String × Value)} {name : String}
    {n : Int128} {i : UInt64} (hgiven : Reordering entries given)
    (hnd : (entries.map (·.1)).Nodup) (hmem : (name, w) ∈ entries) (hw : n.HasForm w)
    (hv : v.field? name = some (.int n)) (h : pointerField path v name = .ok i) :
    pointerField path' (.variant "Pointer" given) name = .ok i := by
  simp only [pointerField, fieldOf, hv, bind_eq_ok_iff] at h
  obtain ⟨_, ⟨⟩, hi⟩ := h
  exact bind_eq_ok_iff.mpr
    ⟨w, hgiven.fieldOf_eq hnd hmem hw.ne_absent rfl, wordOf_of_hasForm hw hi⟩

theorem ofValue_of_hasForm {c : StakingCredential} (hw : StakingForm v w)
    (h : ofValue path v = .ok c) : ofValue path' w = .ok c := by
  cases hw with
  | hash hw =>
    simp only [ofValue, bind_eq_ok_iff, pure_eq_ok_iff] at h
    obtain ⟨_, ⟨⟩, hash, hhash, rfl⟩ := h
    refine bind_eq_ok_iff.mpr ⟨_, rfl, ?_⟩
    exact bind_eq_ok_iff.mpr ⟨hash, StakingHash.ofValue_of_hasForm hw hhash, rfl⟩
  | pointer hslot htx hcert hgiven =>
    have hnd : (["slot", "tx_index", "cert_index"] : List String).Nodup := by decide
    simp only [ofValue, bind_eq_ok_iff, pure_eq_ok_iff] at h
    obtain ⟨slot, hslot', txIndex, htx', certIndex, hcert', rfl⟩ := h
    refine bind_eq_ok_iff.mpr
      ⟨slot, pointerField_of_hasForm hgiven hnd (by simp) hslot rfl hslot', ?_⟩
    refine bind_eq_ok_iff.mpr
      ⟨txIndex, pointerField_of_hasForm hgiven hnd (by simp) htx rfl htx', ?_⟩
    exact bind_eq_ok_iff.mpr
      ⟨certIndex, pointerField_of_hasForm hgiven hnd (by simp) hcert rfl hcert', rfl⟩

end StakingCredential

theorem Address.ofValue_of_hasForm {a b : Address} (hw : a.HasForm w)
    (h : ofValue network path (.address a) = .ok b) : ofValue network path' w = .ok b := by
  simp only [ofValue, bind_eq_ok_iff] at h ⊢
  obtain ⟨_, ⟨⟩, h⟩ := h
  refine ⟨a, given_of_hasForm hw, ?_⟩
  split at h
  · cases h
  split at h
  · cases h
  rename_i hnetwork hlen
  rw [if_neg hnetwork, if_neg hlen]
  exact h

namespace Codec

theorem encodeTxId_of_hasForm {b : Bytes} (hw : Bytes.HasForm b w)
    (h : encodeTxId path (.bytes b) = .ok d) : encodeTxId path' w = .ok d := by
  simp only [encodeTxId, bind_eq_ok_iff, pure_eq_ok_iff] at h
  obtain ⟨c, hc, rfl⟩ := h
  exact bind_eq_ok_iff.mpr ⟨c, sizedBytesOf_of_hasForm hw hc, rfl⟩

/-- Two texts around a mark that the first of them, being hexadecimal, does not have. -/
theorem splitAtFirst_of_hasForm (mark : Char) {s : String} {b : Bytes}
    (hmark : ∀ n < 16, Char.ofNat (Hex.digit n).toNat ≠ mark.toLower)
    (hs : Bytes.HasForm b (.text s)) (t : String) :
    Text.splitAtFirst mark (s ++ String.singleton mark ++ t).toList
      = some (s.toList, t.toList) := by
  cases hs with
  | text h =>
    rw [String.toList_append, String.toList_append, String.toList_singleton, List.append_assoc,
      List.singleton_append, Text.splitAtFirst_append (Hex.not_mem_of_toLower h hmark)]

theorem encodeTxOutputId_of_hasForm {id : Bytes} {index : Int128} (hw : OutputForm id index w)
    (h : encodeTxOutputId path (.record [("tx_id", .bytes id), ("index", .int index)]) = .ok d) :
    encodeTxOutputId path' w = .ok d := by
  simp only [encodeTxOutputId, bind_eq_ok_iff, pure_eq_ok_iff] at h
  obtain ⟨_, ⟨⟩, i, hi, _, ⟨⟩, _, ⟨⟩, rfl⟩ := h
  cases hw with
  | record hid hindex hgiven =>
    have hnd : (["tx_id", "index"] : List String).Nodup := by decide
    refine bind_eq_ok_iff.mpr ⟨_, hgiven.fieldOf_eq hnd (by simp) hid.ne_absent rfl, ?_⟩
    refine bind_eq_ok_iff.mpr ⟨i, encodeTxId_of_hasForm hid hi, ?_⟩
    refine bind_eq_ok_iff.mpr ⟨_, hgiven.fieldOf_eq hnd (by simp) hindex.ne_absent rfl, ?_⟩
    exact bind_eq_ok_iff.mpr ⟨index, intOf_of_hasForm hindex, rfl⟩
  | @text s t hid hindex =>
    have hsplit : Text.splitAtFirst '#' (s ++ "#" ++ t).toList = some (s.toList, t.toList) :=
      splitAtFirst_of_hasForm '#' (by decide) hid t
    rw [encodeTxOutputId, hsplit]
    dsimp only
    rw [String.ofList_toList, String.ofList_toList]
    refine bind_eq_ok_iff.mpr ⟨i, encodeTxId_of_hasForm hid hi, ?_⟩
    exact bind_eq_ok_iff.mpr ⟨index, intOf_of_hasForm hindex, rfl⟩

theorem encodeAssetClass_of_hasForm {policy token : Bytes} (hw : AssetForm policy token w) :
    encodeAssetClass path w = .ok (.constr 0 [.bytes policy, .bytes token]) := by
  cases hw with
  | record hpolicy htoken hgiven =>
    have hnd : (["mph", "token_name"] : List String).Nodup := by decide
    refine bind_eq_ok_iff.mpr ⟨_, hgiven.fieldOf_eq hnd (by simp) hpolicy.ne_absent rfl, ?_⟩
    refine bind_eq_ok_iff.mpr ⟨policy, bytesOf_of_hasForm hpolicy, ?_⟩
    refine bind_eq_ok_iff.mpr ⟨_, hgiven.fieldOf_eq hnd (by simp) htoken.ne_absent rfl, ?_⟩
    exact bind_eq_ok_iff.mpr ⟨token, bytesOf_of_hasForm htoken, rfl⟩
  | @text s t hpolicy htoken =>
    have hsplit : Text.splitAtFirst '.' (s ++ "." ++ t).toList = some (s.toList, t.toList) :=
      splitAtFirst_of_hasForm '.' (by decide) hpolicy t
    rw [encodeAssetClass, hsplit]
    dsimp only
    rw [String.ofList_toList, String.ofList_toList]
    refine bind_eq_ok_iff.mpr ⟨policy, bytesOf_of_hasForm hpolicy, ?_⟩
    exact bind_eq_ok_iff.mpr ⟨token, bytesOf_of_hasForm htoken, rfl⟩

theorem encodeToken_of_hasForm {t u : Value × Value} {e : Data × Data} (hu : TokenForm t u)
    (h : encodeToken path t = .ok e) : encodeToken path' u = .ok e := by
  obtain ⟨name, amount, rfl, hname, hamount⟩ := hu
  simp only [encodeToken, bind_eq_ok_iff, pure_eq_ok_iff] at h
  obtain ⟨_, ⟨⟩, _, ⟨⟩, rfl⟩ := h
  refine bind_eq_ok_iff.mpr ⟨name, bytesOf_of_hasForm hname, ?_⟩
  exact bind_eq_ok_iff.mpr ⟨amount, intOf_of_hasForm hamount, rfl⟩

theorem encodePolicy_of_hasForm {p q : Value × Value} {e : Data × Data} (hq : PolicyForm p q)
    (h : encodePolicy path p = .ok e) : encodePolicy path' q = .ok e := by
  obtain ⟨hash, tokens, given, rfl, hhash, hgiven, htokens⟩ := hq
  simp only [encodePolicy, bind_eq_ok_iff, pure_eq_ok_iff] at h ⊢
  obtain ⟨_, ⟨⟩, es, hes, rfl⟩ := h
  refine ⟨hash, bytesOf_of_hasForm hhash, ?_⟩
  rw [hgiven]
  refine bind_eq_ok_iff.mpr ⟨es, each_of_forall₂ (htokens.imp ?_) hes, rfl⟩
  exact fun _ _ hu _ _ _ => encodeToken_of_hasForm hu

theorem encodeAssets_of_hasForm (hw : AssetsForm v w) (h : encodeAssets path v = .ok d) :
    encodeAssets path' w = .ok d := by
  cases hw with
  | map hgiven =>
    simp only [encodeAssets, bind_eq_ok_iff, pure_eq_ok_iff] at h
    obtain ⟨es, hes, rfl⟩ := h
    refine bind_eq_ok_iff.mpr ⟨es, each_of_forall₂ (hgiven.imp ?_) hes, rfl⟩
    exact fun _ _ hq _ _ _ => encodePolicy_of_hasForm hq
  | amount n =>
    cases h
    rfl

theorem encodeParts_eq_ok_iff {top bottom : Int128} :
    encodeParts path top bottom = .ok d ↔
      bottom.val ≠ 0 ∧ d = .list [.int top, .int bottom] := by
  unfold encodeParts
  split
  · rename_i hzero
    exact ⟨fun h => (by cases h), fun h => absurd hzero h.1⟩
  · rename_i hne
    exact ⟨fun h => ⟨hne, (Except.ok.inj h).symm⟩, fun h => h.2 ▸ rfl⟩

theorem encodeRatio_of_hasForm {top bottom : Int128} {x y : Value} (htop : top.HasForm x)
    (hbottom : bottom.HasForm y) (hw : RecordForm [("top", x), ("bottom", y)] w)
    (h : encodeRatio path (.record [("top", .int top), ("bottom", .int bottom)]) = .ok d) :
    encodeRatio path' w = .ok d := by
  have hparts : encodeParts path' top bottom = .ok d :=
    encodeParts_eq_ok_iff.mpr (encodeParts_eq_ok_iff.mp h)
  cases hw with
  | named hgiven =>
    have hnd : (["top", "bottom"] : List String).Nodup := by decide
    refine bind_eq_ok_iff.mpr ⟨x, hgiven.fieldOf_eq hnd (by simp) htop.ne_absent rfl, ?_⟩
    refine bind_eq_ok_iff.mpr ⟨top, intOf_of_hasForm htop, ?_⟩
    refine bind_eq_ok_iff.mpr ⟨y, hgiven.fieldOf_eq hnd (by simp) hbottom.ne_absent rfl, ?_⟩
    exact bind_eq_ok_iff.mpr ⟨bottom, intOf_of_hasForm hbottom, hparts⟩
  | positional =>
    refine bind_eq_ok_iff.mpr ⟨top, intOf_of_hasForm htop, ?_⟩
    exact bind_eq_ok_iff.mpr ⟨bottom, intOf_of_hasForm hbottom, hparts⟩

end Codec

/-! ## 4. All of them -/

/-- **Every form of a primitive value is encoded alike**, wherever that is. -/
theorem Primitive.encode_of_hasForm {p : Primitive} (hw : p.HasForm v w)
    (h : p.encode network path v = .ok d) : p.encode network path' w = .ok d := by
  have hhash {q : Primitive} {size : Nat} (hb : ∃ b, v = .bytes b ∧ Bytes.HasForm b w)
      (h : (sizedBytesOf path q size v >>= fun b => pure (Data.bytes b)) = .ok d) :
      (sizedBytesOf path' q size w >>= fun b => pure (Data.bytes b)) = .ok d := by
    obtain ⟨b, rfl, hb⟩ := hb
    simp only [bind_eq_ok_iff, pure_eq_ok_iff] at h
    obtain ⟨c, hc, rfl⟩ := h
    exact bind_eq_ok_iff.mpr ⟨c, sizedBytesOf_of_hasForm hb hc, rfl⟩
  have hint {q : Primitive} (hn : ∃ n : Int128, v = .int n ∧ n.HasForm w)
      (h : (intOf path (.primitive q) v >>= fun n => pure (Data.int n)) = .ok d) :
      (intOf path' (.primitive q) w >>= fun n => pure (Data.int n)) = .ok d := by
    obtain ⟨n, rfl, hn⟩ := hn
    cases h
    exact bind_eq_ok_iff.mpr ⟨n, intOf_of_hasForm hn, rfl⟩
  cases p with
  | bool =>
    obtain rfl := hw
    cases w with
    | bool b => exact h
    | _ => cases h
  | string =>
    obtain rfl := hw
    cases w with
    | text s => exact h
    | _ => cases h
  | data => cases h
  | int => exact hint hw h
  | time => exact hint hw h
  | duration => exact hint hw h
  | real =>
    obtain ⟨r, rfl, hw⟩ := hw
    cases h
    exact bind_eq_ok_iff.mpr ⟨r, realOf_of_hasForm hw, rfl⟩
  | byteArray =>
    obtain ⟨b, rfl, hw⟩ := hw
    cases h
    exact bind_eq_ok_iff.mpr ⟨b, bytesOf_of_hasForm hw, rfl⟩
  | pubKeyHash => exact hhash hw h
  | validatorHash => exact hhash hw h
  | mintingPolicyHash => exact hhash hw h
  | stakingValidatorHash => exact hhash hw h
  | scriptHash => exact hhash hw h
  | datumHash => exact hhash hw h
  | txId =>
    obtain ⟨b, rfl, hw⟩ := hw
    exact encodeTxId_of_hasForm hw h
  | txOutputId =>
    obtain ⟨id, index, rfl, hw⟩ := hw
    exact encodeTxOutputId_of_hasForm hw h
  | credential =>
    simp only [encode, bind_eq_ok_iff, pure_eq_ok_iff] at h ⊢
    obtain ⟨c, hc, rfl⟩ := h
    exact ⟨c, Credential.ofValue_of_hasForm hw hc, rfl⟩
  | stakingHash =>
    simp only [encode, bind_eq_ok_iff, pure_eq_ok_iff] at h ⊢
    obtain ⟨c, hc, rfl⟩ := h
    exact ⟨c, StakingHash.ofValue_of_hasForm hw hc, rfl⟩
  | stakingCredential =>
    simp only [encode, bind_eq_ok_iff, pure_eq_ok_iff] at h ⊢
    obtain ⟨c, hc, rfl⟩ := h
    exact ⟨c, StakingCredential.ofValue_of_hasForm hw hc, rfl⟩
  | address =>
    obtain ⟨a, rfl, hw⟩ := hw
    simp only [encode, bind_eq_ok_iff, pure_eq_ok_iff] at h ⊢
    obtain ⟨b, hb, rfl⟩ := h
    exact ⟨b, Address.ofValue_of_hasForm hw hb, rfl⟩
  | assetClass =>
    obtain ⟨policy, token, rfl, hw⟩ := hw
    cases h
    exact encodeAssetClass_of_hasForm hw
  | value => exact encodeAssets_of_hasForm hw h
  | ratio =>
    obtain ⟨top, bottom, x, y, rfl, htop, hbottom, hw⟩ := hw
    exact encodeRatio_of_hasForm htop hbottom hw h

end ScriptBundle

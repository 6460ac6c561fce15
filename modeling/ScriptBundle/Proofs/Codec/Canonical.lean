/-
# The values that are decoded

Of all values that encode alike one is what the data is decoded to.  `Schema.Canonical` says which,
one rule for each kind of schema, and `Primitive.Canonical` is the table of the primitives: records
and variants have the declared fields in the declared order, options say whether they are there,
bytes are bytes, and an address is one of the network.  Neither mentions data, a place or an error.

A value is decoded from some data exactly if it is canonical (`reachedIff_decodeAt`), so canonical
values are those that survive: such a value is encoded, and decoding gives back the very same one
(`canonical_exact`).

The proof is the mirror image of the one for data: a conversion is asked not what it takes but what
it gives.  What it gives as a whole is again said part by part, over the items of a list, over items
of a fixed number and over fields.  Well-formedness is needed for a variant to have a tag.
-/
import ScriptBundle.Proofs.Codec.RoundTrip

namespace ScriptBundle

/-! ## 1. Forms of primitives -/

namespace Value

/-- Bytes of a fixed size. -/
def IsHash (size : Nat) (v : Value) : Prop := ∃ b, v = .bytes b ∧ b.length = size

/-- One of two variants whose single field is a hash of 28 bytes. -/
def IsHashChoice (first second : String) (v : Value) : Prop :=
  ∃ h : Value, h.IsHash 28 ∧
    (v = .variant first [("hash", h)] ∨ v = .variant second [("hash", h)])

/-- An integer from 0 below `2 ^ 64`. -/
def IsWord (v : Value) : Prop :=
  ∃ n : Int128, v = .int n ∧ 0 ≤ n.val ∧ n.val < 0x10000000000000000

/-- A hash that stakes, or the three numbers of a pointer. -/
def IsStaking (v : Value) : Prop :=
  (∃ h : Value, h.IsHashChoice "StakeKey" "Validator" ∧ v = .variant "Hash" [("hash", h)]) ∨
    ∃ slot txIndex certIndex : Value, slot.IsWord ∧ txIndex.IsWord ∧ certIndex.IsWord ∧
      v = .variant "Pointer" [("slot", slot), ("tx_index", txIndex), ("cert_index", certIndex)]

/-- The name of a token and an amount. -/
def IsToken (t : Value × Value) : Prop := ∃ name amount, t = (.bytes name, .int amount)

/-- A policy and the amounts of its tokens. -/
def IsPolicy (p : Value × Value) : Prop :=
  ∃ hash tokens, p = (.bytes hash, .map tokens) ∧ ∀ t ∈ tokens, IsToken t

end Value

open Value

/-- The one form of the values of a primitive on a network. -/
def Primitive.Canonical (network : Network) (p : Primitive) (v : Value) : Prop :=
  match p with
  | .bool => ∃ b, v = .bool b
  | .int | .time | .duration => ∃ n, v = .int n
  | .real => ∃ r, v = .real r
  | .byteArray => ∃ b, v = .bytes b
  | .string => ∃ s, v = .text s
  | .data => ∃ d, v = .data d
  | .pubKeyHash | .validatorHash | .mintingPolicyHash | .stakingValidatorHash | .scriptHash =>
    v.IsHash 28
  | .datumHash | .txId => v.IsHash 32
  | .txOutputId => ∃ (id : Value) (index : Int128), id.IsHash 32 ∧
    v = .record [("tx_id", id), ("index", .int index)]
  | .credential => v.IsHashChoice "PubKey" "Validator"
  | .stakingHash => v.IsHashChoice "StakeKey" "Validator"
  | .stakingCredential => v.IsStaking
  | .address => ∃ a : Address, v = .address a ∧ a.network = network ∧ a.Sized
  | .assetClass => ∃ policy token,
    v = .record [("mph", .bytes policy), ("token_name", .bytes token)]
  | .value => ∃ policies, v = .map policies ∧ ∀ p ∈ policies, IsPolicy p
  | .ratio => ∃ top bottom : Int128, bottom.val ≠ 0 ∧
    v = .record [("top", .int top), ("bottom", .int bottom)]

/-- The one form of the values of a schema on a network. -/
inductive Schema.Canonical (network : Network) : Schema → Value → Prop
  | primitive {p : Primitive} {v : Value} (h : p.Canonical network v) :
    Canonical network (.primitive p) v
  | list {item : Schema} {vs : List Value} (h : ∀ v ∈ vs, Canonical network item v) :
    Canonical network (.list item) (.list vs)
  | map {key value : Schema} {pairs : List (Value × Value)}
    (hkeys : ∀ p ∈ pairs, Canonical network key p.1)
    (hvalues : ∀ p ∈ pairs, Canonical network value p.2) :
    Canonical network (.map key value) (.map pairs)
  | present {inner : Schema} {v : Value} (h : Canonical network inner v) :
    Canonical network (.option inner) (.present v)
  | absent {inner : Schema} : Canonical network (.option inner) .absent
  | tuple {items : List Schema} {vs : List Value} (hlen : vs.length = items.length)
    (h : ∀ p ∈ items.zip vs, Canonical network p.1 p.2) :
    Canonical network (.tuple items) (.list vs)
  /-- The fields that are declared, in that order. -/
  | record {fields : List (Field Schema)} {entries : List (String × Value)}
    (hnames : entries.map (·.1) = fields.map (·.name))
    (h : ∀ p ∈ fields.zip entries, Canonical network p.1.type p.2.2) :
    Canonical network (.record fields) (.record entries)
  | enum {variants : List (Variant Schema)} {variant : Variant Schema}
    {entries : List (String × Value)} (hmem : variant ∈ variants)
    (hnames : entries.map (·.1) = variant.fields.map (·.name))
    (h : ∀ p ∈ variant.fields.zip entries, Canonical network p.1.type p.2.2) :
    Canonical network (.enum variants) (.variant variant.name entries)

namespace Codec

variable {network : Network} {path : Path} {v : Value}

/-! ## 2. Walks -/

/-- A conversion gives something exactly if it has a property, whatever the place. -/
def ReachedIff {α β : Type} (convert : Path → α → Result β) (C : β → Prop) (b : β) : Prop :=
  ∀ path, (∃ a, convert path a = .ok b) ↔ C b

/-- Where only one shape is taken apart first, something is given iff it is given for the parts. -/
theorem exists_shape_iff {α β : Type} {shape : α → Data} {read : Data → Result α}
    (hread : ∀ d a, read d = .ok a ↔ d = shape a) {f : α → Result β} {b : β} :
    (∃ d, (read d >>= f) = .ok b) ↔ ∃ a, f a = .ok b := by
  simp only [bind_eq_ok_iff, hread]
  exact ⟨fun ⟨_, a, _, h⟩ => ⟨a, h⟩, fun ⟨a, h⟩ => ⟨shape a, a, rfl, h⟩⟩

/-- What is only put into another form is given iff it is that form of something given. -/
theorem exists_form_iff {α β γ : Type} {convert : α → Result β} {form : β → γ} {c : γ} :
    (∃ a, (convert a >>= fun b => pure (form b)) = .ok c) ↔
      ∃ b, c = form b ∧ ∃ a, convert a = .ok b := by
  simp only [bind_eq_ok_iff, pure_eq_ok_iff]
  exact ⟨fun ⟨a, b, h, hc⟩ => ⟨b, hc.symm, a, h⟩, fun ⟨b, hc, a, h⟩ => ⟨a, b, h, hc.symm⟩⟩

theorem exists_each_eq_iff {α β : Type} {convert : Path → α → Result β} {C : β → Prop}
    {bs : List β} (h : ∀ b, ReachedIff convert C b) :
    (∃ as, each convert path as = .ok bs) ↔ ∀ b ∈ bs, C b := by
  unfold each
  generalize 0 = index
  induction bs generalizing index with
  | nil => exact ⟨fun _ => List.forall_mem_nil _, fun _ => ⟨[], rfl⟩⟩
  | cons b rest ih =>
    rw [List.forall_mem_cons, ← h b (.item path index), ← ih (index + 1)]
    constructor
    · rintro ⟨as, has⟩
      cases as with
      | nil => cases has
      | cons a as =>
        simp only [eachFrom, bind_eq_ok_iff, pure_eq_ok_iff, List.cons.injEq] at has
        obtain ⟨_, ha, _, hrest, rfl, rfl⟩ := has
        exact ⟨⟨a, ha⟩, as, hrest⟩
    · rintro ⟨⟨a, ha⟩, as, has⟩
      exact ⟨a :: as, bind_eq_ok_iff.mpr ⟨b, ha, bind_eq_ok_iff.mpr ⟨rest, has, rfl⟩⟩⟩

/-! ## 3. Primitives -/

/-- The canonical words are the integers in their range. -/
theorem value_isWord_iff : v.IsWord ↔ ∃ w, v = .int (.ofUInt64 w) := by
  constructor
  · rintro ⟨n, rfl, hrange⟩
    exact ⟨UInt64.ofNat n.val.toNat, congrArg Value.int (Int128.eq_of_toUInt64? (if_pos hrange))⟩
  · rintro ⟨w, rfl⟩
    have hw := w.toNat_lt
    refine ⟨_, rfl, ?_⟩
    simp only [Int128.ofUInt64]
    omega

theorem exists_credential_iff :
    (∃ c : Credential, v = c.toValue ∧ c.hash.length = Address.hashLength) ↔
      v.IsHashChoice "PubKey" "Validator" := by
  constructor
  · rintro ⟨h | h, rfl, hlen⟩
    · exact ⟨.bytes h, ⟨h, rfl, hlen⟩, .inl rfl⟩
    · exact ⟨.bytes h, ⟨h, rfl, hlen⟩, .inr rfl⟩
  · rintro ⟨_, ⟨h, rfl, hlen⟩, rfl | rfl⟩
    · exact ⟨.pubKey h, rfl, hlen⟩
    · exact ⟨.validator h, rfl, hlen⟩

theorem exists_stakingHash_iff :
    (∃ h : StakingHash, v = h.toValue ∧ h.hash.length = Address.hashLength) ↔
      v.IsHashChoice "StakeKey" "Validator" := by
  constructor
  · rintro ⟨h | h, rfl, hlen⟩
    · exact ⟨.bytes h, ⟨h, rfl, hlen⟩, .inl rfl⟩
    · exact ⟨.bytes h, ⟨h, rfl, hlen⟩, .inr rfl⟩
  · rintro ⟨_, ⟨h, rfl, hlen⟩, rfl | rfl⟩
    · exact ⟨.stakeKey h, rfl, hlen⟩
    · exact ⟨.validator h, rfl, hlen⟩

theorem exists_stakingCredential_iff :
    (∃ c : StakingCredential, v = c.toValue ∧ c.Sized) ↔ v.IsStaking := by
  constructor
  · rintro ⟨h | ⟨slot, txIndex, certIndex⟩, rfl, hsize⟩
    · exact .inl ⟨h.toValue, exists_stakingHash_iff.mp ⟨h, rfl, hsize⟩, rfl⟩
    · exact .inr ⟨_, _, _, value_isWord_iff.mpr ⟨slot, rfl⟩, value_isWord_iff.mpr ⟨txIndex, rfl⟩,
        value_isWord_iff.mpr ⟨certIndex, rfl⟩, rfl⟩
  · rintro (⟨_, hx, rfl⟩ | ⟨_, _, _, hslot, htx, hcert, rfl⟩)
    · obtain ⟨h, rfl, hsize⟩ := exists_stakingHash_iff.mpr hx
      exact ⟨.hash h, rfl, hsize⟩
    · obtain ⟨slot, rfl⟩ := value_isWord_iff.mp hslot
      obtain ⟨txIndex, rfl⟩ := value_isWord_iff.mp htx
      obtain ⟨certIndex, rfl⟩ := value_isWord_iff.mp hcert
      exact ⟨.pointer slot txIndex certIndex, rfl, trivial⟩

theorem reachedIff_decodeToken (t : Value × Value) : ReachedIff decodeToken IsToken t := by
  intro path
  constructor
  · rintro ⟨⟨k, a⟩, h⟩
    simp only [decodeToken, bind_eq_ok_iff, asBytes_eq_ok_iff, asInt_eq_ok_iff,
      pure_eq_ok_iff] at h
    obtain ⟨name, -, amount, -, rfl⟩ := h
    exact ⟨name, amount, rfl⟩
  · rintro ⟨name, amount, rfl⟩
    exact ⟨(.bytes name, .int amount), rfl⟩

theorem reachedIff_decodePolicy (p : Value × Value) : ReachedIff decodePolicy IsPolicy p := by
  intro path
  have htokens : ∀ tokens, (∃ ts, each decodeToken path ts = .ok tokens) ↔
      ∀ t ∈ tokens, IsToken t := fun tokens => exists_each_eq_iff reachedIff_decodeToken
  constructor
  · rintro ⟨⟨k, a⟩, h⟩
    simp only [decodePolicy, bind_eq_ok_iff, asBytes_eq_ok_iff, asMap_eq_ok_iff,
      pure_eq_ok_iff] at h
    obtain ⟨hash, -, ts, -, tokens, hts, rfl⟩ := h
    exact ⟨hash, tokens, rfl, (htokens tokens).mp ⟨ts, hts⟩⟩
  · rintro ⟨hash, tokens, rfl, h⟩
    obtain ⟨ts, hts⟩ := (htokens tokens).mpr h
    refine ⟨(.bytes hash, .map ts), ?_⟩
    exact bind_eq_ok_iff.mpr ⟨hash, rfl, bind_eq_ok_iff.mpr ⟨ts, rfl,
      bind_eq_ok_iff.mpr ⟨tokens, hts, rfl⟩⟩⟩

end Codec

open Codec

/-- **Primitives.**  The rule of a primitive gives exactly the values of its one form. -/
theorem Primitive.exists_decode_eq_iff {network : Network} {path : Path} {p : Primitive}
    {v : Value} : (∃ d, p.decode network path d = .ok v) ↔ p.Canonical network v := by
  have hsized {q : Primitive} {size : Nat} :
      (∃ d, (asSizedBytes path q size d >>= fun b => pure (Value.bytes b)) = .ok v) ↔
        v.IsHash size := by
    simp only [exists_form_iff, asSizedBytes_eq_ok_iff, exists_eq_left, IsHash]
  cases p with
  | bool =>
    simp only [decode, bind_eq_ok_iff, Prod.exists, asConstr_two_eq_ok_iff, pure_eq_ok_iff,
      Canonical]
    constructor
    · rintro ⟨_, tag, _, -, rfl⟩
      exact ⟨_, rfl⟩
    · rintro ⟨b, rfl⟩
      cases b with
      | false => exact ⟨.constr 0 [], 0, [], .inl ⟨rfl, rfl, rfl⟩, rfl⟩
      | true => exact ⟨.constr 1 [], 1, [], .inr ⟨rfl, rfl, rfl⟩, rfl⟩
  | int | time | duration =>
    simp only [decode, exists_form_iff, asInt_eq_ok_iff, exists_eq, and_true, Canonical]
  | real =>
    simp only [decode, exists_form_iff, asInt_eq_ok_iff, exists_eq, and_true, Canonical]
    constructor
    · rintro ⟨n, rfl⟩
      exact ⟨⟨n⟩, rfl⟩
    · rintro ⟨r, rfl⟩
      exact ⟨r.scaled, rfl⟩
  | byteArray =>
    simp only [decode, exists_form_iff, asBytes_eq_ok_iff, exists_eq, and_true, Canonical]
  | string =>
    simp only [decode, bind_eq_ok_iff, asBytes_eq_ok_iff, Canonical]
    constructor
    · rintro ⟨_, b, rfl, h⟩
      cases hs : Bytes.toText? b with
      | none =>
        rw [hs] at h
        cases h
      | some s =>
        rw [hs] at h
        exact ⟨s, (pure_eq_ok_iff.mp h).symm⟩
    · rintro ⟨s, rfl⟩
      exact ⟨_, Bytes.ofText s, rfl, by rw [Bytes.toText?_ofText]; rfl⟩
  | data =>
    constructor
    · rintro ⟨d, h⟩
      exact ⟨d, (Except.ok.inj h).symm⟩
    · rintro ⟨d, rfl⟩
      exact ⟨d, rfl⟩
  | pubKeyHash | validatorHash | mintingPolicyHash | stakingValidatorHash | scriptHash
  | datumHash => exact hsized
  | txId =>
    simp only [decode, exists_form_iff, decodeTxId_eq_ok_iff, exists_eq_left]
    rfl
  | txOutputId =>
    simp only [decode, decodeTxOutputId_eq_ok_iff, Canonical]
    constructor
    · rintro ⟨_, id, index, hlen, -, rfl⟩
      exact ⟨.bytes id, index, ⟨id, rfl, hlen⟩, rfl⟩
    · rintro ⟨_, index, ⟨id, rfl, hlen⟩, rfl⟩
      exact ⟨_, id, index, hlen, rfl, rfl⟩
  | credential =>
    simp only [decode, exists_form_iff, Credential.ofData_eq_ok_iff, exists_eq_left]
    exact exists_credential_iff
  | stakingHash =>
    simp only [decode, exists_form_iff, StakingHash.ofData_eq_ok_iff, exists_eq_left]
    exact exists_stakingHash_iff
  | stakingCredential =>
    simp only [decode, exists_form_iff, StakingCredential.ofData_eq_ok_iff, exists_eq_left]
    exact exists_stakingCredential_iff
  | address =>
    simp only [decode, exists_form_iff, Address.ofData_eq_ok_iff, exists_eq_left, Canonical]
  | assetClass =>
    simp only [decode, decodeAssetClass_eq_ok_iff, Canonical]
    constructor
    · rintro ⟨_, policy, token, -, hv⟩
      exact ⟨policy, token, hv⟩
    · rintro ⟨policy, token, hv⟩
      exact ⟨_, policy, token, rfl, hv⟩
  | value =>
    simp only [decode, decodeAssets, exists_shape_iff fun _ _ => asMap_eq_ok_iff, exists_form_iff,
      exists_each_eq_iff reachedIff_decodePolicy, Canonical]
  | ratio =>
    simp only [decode, decodeRatio_eq_ok_iff, Canonical]
    constructor
    · rintro ⟨_, top, bottom, hzero, -, hv⟩
      exact ⟨top, bottom, hzero, hv⟩
    · rintro ⟨top, bottom, hzero, hv⟩
      exact ⟨_, top, bottom, hzero, rfl, hv⟩

namespace Codec

variable {network : Network} {path : Path} {v : Value}

/-! ## 4. Items and fields -/

/-- Items of a fixed number are given iff each of them is. -/
theorem exists_decodeItems_eq_iff {items : List Schema} {vs : List Value}
    (h : ∀ s ∈ items, ∀ v, ReachedIff (decodeAt network s) (s.Canonical network) v) (index : Nat) :
    (∃ ds, ds.length = items.length ∧ decodeItems network items path index ds = .ok vs) ↔
      vs.length = items.length ∧ ∀ p ∈ items.zip vs, p.1.Canonical network p.2 := by
  induction items generalizing vs index with
  | nil =>
    constructor
    · rintro ⟨ds, -, hds⟩
      cases hds
      exact ⟨rfl, List.forall_mem_nil _⟩
    · rintro ⟨hlen, -⟩
      obtain rfl := List.eq_nil_of_length_eq_zero hlen
      exact ⟨[], rfl, rfl⟩
  | cons s items ih =>
    obtain ⟨hs, hitems⟩ := List.forall_mem_cons.mp h
    constructor
    · rintro ⟨_ | ⟨d, ds⟩, hlen, hds⟩
      · cases hlen
      · simp only [decodeItems, bind_eq_ok_iff, pure_eq_ok_iff] at hds
        obtain ⟨w, hw, ws, hws, rfl⟩ := hds
        obtain ⟨hcount, hrest⟩ := (ih hitems (index + 1)).mp ⟨ds, Nat.succ.inj hlen, hws⟩
        exact ⟨congrArg (· + 1) hcount, List.forall_mem_cons.mpr ⟨(hs w _).mp ⟨d, hw⟩, hrest⟩⟩
    · rintro ⟨hlen, hvs⟩
      cases vs with
      | nil => cases hlen
      | cons w ws =>
        obtain ⟨hw, hws⟩ := List.forall_mem_cons.mp hvs
        obtain ⟨d, hd⟩ := (hs w (.item path index)).mpr hw
        obtain ⟨ds, hcount, hds⟩ := (ih hitems (index + 1)).mpr ⟨Nat.succ.inj hlen, hws⟩
        refine ⟨d :: ds, congrArg (· + 1) hcount, ?_⟩
        exact bind_eq_ok_iff.mpr ⟨w, hd, bind_eq_ok_iff.mpr ⟨ws, hds, rfl⟩⟩

/-- The entries of fields are given iff they have the fields' names, in order, and each value is. -/
theorem exists_decodeFields_eq_iff {fields : List (Field Schema)}
    {entries : List (String × Value)}
    (h : ∀ f ∈ fields, ∀ v, ReachedIff (decodeAt network f.type) (f.type.Canonical network) v) :
    (∃ ds, ds.length = fields.length ∧ decodeFields network fields path ds = .ok entries) ↔
      entries.map (·.1) = fields.map (·.name) ∧
        ∀ p ∈ fields.zip entries, p.1.type.Canonical network p.2.2 := by
  induction fields generalizing entries with
  | nil =>
    constructor
    · rintro ⟨ds, -, hds⟩
      cases hds
      exact ⟨rfl, List.forall_mem_nil _⟩
    · rintro ⟨hnames, -⟩
      obtain rfl := List.map_eq_nil_iff.mp hnames
      exact ⟨[], rfl, rfl⟩
  | cons f fields ih =>
    obtain ⟨hf, hfields⟩ := List.forall_mem_cons.mp h
    constructor
    · rintro ⟨_ | ⟨d, ds⟩, hlen, hds⟩
      · cases hlen
      · simp only [decodeFields, bind_eq_ok_iff, pure_eq_ok_iff] at hds
        obtain ⟨w, hw, rest, hrest, rfl⟩ := hds
        obtain ⟨hnames, hvalues⟩ := (ih hfields).mp ⟨ds, Nat.succ.inj hlen, hrest⟩
        exact ⟨congrArg (f.name :: ·) hnames,
          List.forall_mem_cons.mpr ⟨(hf w _).mp ⟨d, hw⟩, hvalues⟩⟩
    · rintro ⟨hnames, hvalues⟩
      cases entries with
      | nil => cases hnames
      | cons e rest =>
        obtain ⟨name, w⟩ := e
        obtain ⟨hname, htail⟩ := List.cons.inj hnames
        obtain rfl : name = f.name := hname
        obtain ⟨hw, hrest⟩ := List.forall_mem_cons.mp hvalues
        obtain ⟨d, hd⟩ := (hf w (.field path f.name)).mpr hw
        obtain ⟨ds, hcount, hds⟩ := (ih hfields).mpr ⟨htail, hrest⟩
        refine ⟨d :: ds, congrArg (· + 1) hcount, ?_⟩
        exact bind_eq_ok_iff.mpr ⟨w, hd, bind_eq_ok_iff.mpr ⟨rest, hds, rfl⟩⟩

/-! ## 5. Schemas -/

/-- A record of one field is read like one of several, only without a list around it. -/
theorem reachedIff_record {fields : List (Field Schema)}
    (h : ∀ f ∈ fields, ∀ v, ReachedIff (decodeAt network f.type) (f.type.Canonical network) v)
    (v : Value) : ReachedIff (decodeAt network (.record fields))
      ((Schema.record fields).Canonical network) v := by
  intro path
  have hcanonical : (Schema.record fields).Canonical network v ↔ ∃ entries, v = .record entries ∧
      ∃ ds, ds.length = fields.length ∧ decodeFields network fields path ds = .ok entries := by
    simp only [exists_decodeFields_eq_iff h]
    constructor
    · intro hv
      cases hv with
      | record hnames hvalues => exact ⟨_, rfl, hnames, hvalues⟩
    · rintro ⟨entries, rfl, hnames, hvalues⟩
      exact .record hnames hvalues
  have hlist : (∃ d, (asListOf path fields.length d >>= fun ds =>
      decodeFields network fields path ds >>= fun vs => pure (Value.record vs)) = .ok v) ↔
        (Schema.record fields).Canonical network v := by
    rw [hcanonical]
    simp only [bind_eq_ok_iff, asListOf_eq_ok_iff, pure_eq_ok_iff]
    constructor
    · rintro ⟨_, ds, ⟨-, hlen⟩, entries, hds, rfl⟩
      exact ⟨entries, rfl, ds, hlen, hds⟩
    · rintro ⟨entries, rfl, ds, hlen, hds⟩
      exact ⟨_, ds, ⟨rfl, hlen⟩, entries, hds, rfl⟩
  match fields, hcanonical, hlist with
  | [⟨name, s⟩], hcanonical, _ =>
    rw [hcanonical]
    simp only [decodeAt, bind_eq_ok_iff, pure_eq_ok_iff]
    constructor
    · rintro ⟨d, w, hw, rfl⟩
      exact ⟨_, rfl, [d], rfl, bind_eq_ok_iff.mpr ⟨w, hw, rfl⟩⟩
    · rintro ⟨_, rfl, ds, hlen, hds⟩
      obtain ⟨d, rfl⟩ := List.length_eq_one_iff.mp hlen
      simp only [decodeFields, bind_eq_ok_iff, pure_eq_ok_iff] at hds
      obtain ⟨w, hw, _, hnil, rfl⟩ := hds
      cases hnil
      exact ⟨d, w, hw, rfl⟩
  | [], _, hlist => exact hlist
  | _ :: _ :: _, _, hlist => exact hlist

/-- A variant is read from the tag that it carries, which is its position. -/
theorem reachedIff_enum {variants : List (Variant Schema)}
    (hcheck : Schema.checkVariants [] 0 variants = .ok ())
    (h : ∀ v ∈ variants, ∀ f ∈ v.fields, ∀ w,
      ReachedIff (decodeAt network f.type) (f.type.Canonical network) w) (v : Value) :
    ReachedIff (decodeAt network (.enum variants))
      ((Schema.enum variants).Canonical network) v := by
  intro path
  obtain ⟨-, -, htags, -⟩ := Schema.checkVariants_eq_ok_iff.mp hcheck
  simp only [decodeAt, bind_eq_ok_iff, Prod.exists, asConstr_eq_ok_iff, decodeVariant_eq_ok_iff,
    List.getElem?_map, Option.map_eq_some_iff]
  constructor
  · rintro ⟨_, tag, ds, ⟨rfl, variant, hat, hlen⟩, variant', entries, hat', hentries, rfl⟩
    obtain rfl : variant = variant' := Option.some.inj (hat.symm.trans hat')
    have hmem := List.mem_of_getElem? hat
    obtain ⟨hnames, hvalues⟩ := (exists_decodeFields_eq_iff (h variant hmem)).mp
      ⟨ds, hlen.symm, hentries⟩
    exact .enum hmem hnames hvalues
  · intro hv
    cases hv with
    | @enum _ variant entries hmem hnames hvalues =>
      have hfields : ∃ ds, ds.length = variant.fields.length ∧
          decodeFields network variant.fields (.field path variant.name) ds = .ok entries :=
        (exists_decodeFields_eq_iff (h variant hmem)).mpr ⟨hnames, hvalues⟩
      obtain ⟨ds, hlen, hds⟩ := hfields
      obtain ⟨position, hat⟩ := List.mem_iff_getElem?.mp hmem
      have htag : variant.tag.toNat = position := (htags position variant hat).trans (by simp)
      rw [← htag] at hat
      exact ⟨_, variant.tag, ds, ⟨rfl, variant, hat, hlen.symm⟩, variant, entries, hat, hds, rfl⟩

/-- What a well-formed schema gives are its canonical values, at every place. -/
theorem reachedIff_decodeAt (network : Network) (s : Schema) (hs : s.check = .ok ()) :
    ∀ v, ReachedIff (decodeAt network s) (s.Canonical network) v := by
  refine Schema.induct_check ?primitive ?list ?map ?option ?tuple (fun _ _ => reachedIff_record)
    (fun _ => reachedIff_enum) s hs
  case primitive =>
    intro p v path
    exact Primitive.exists_decode_eq_iff.trans ⟨.primitive, fun h => by cases h; assumption⟩
  case list =>
    intro item ih v path
    simp only [decodeAt, exists_shape_iff fun _ _ => asList_eq_ok_iff, exists_form_iff,
      exists_each_eq_iff ih]
    constructor
    · rintro ⟨vs, rfl, h⟩
      exact .list h
    · intro h
      cases h with
      | list h => exact ⟨_, rfl, h⟩
  case map =>
    intro key value ihkey ihvalue v path
    have hpair : ∀ p, ReachedIff (decodePair (decodeAt network key) (decodeAt network value))
        (fun p => key.Canonical network p.1 ∧ value.Canonical network p.2) p := by
      rintro ⟨k, w⟩ path
      dsimp only
      rw [← ihkey k path, ← ihvalue w path]
      simp only [decodePair, bind_eq_ok_iff, pure_eq_ok_iff, Prod.mk.injEq]
      constructor
      · rintro ⟨⟨dk, dv⟩, _, hk, _, hw, rfl, rfl⟩
        exact ⟨⟨dk, hk⟩, dv, hw⟩
      · rintro ⟨⟨dk, hk⟩, dv, hw⟩
        exact ⟨(dk, dv), k, hk, w, hw, rfl, rfl⟩
    simp only [decodeAt, exists_shape_iff fun _ _ => asMap_eq_ok_iff, exists_form_iff,
      exists_each_eq_iff hpair]
    constructor
    · rintro ⟨pairs, rfl, h⟩
      exact .map (fun p hp => (h p hp).1) fun p hp => (h p hp).2
    · intro h
      cases h with
      | map hkeys hvalues => exact ⟨_, rfl, fun p hp => ⟨hkeys p hp, hvalues p hp⟩⟩
  case option =>
    intro inner ih v path
    simp only [decodeAt, exists_shape_iff fun _ _ => asOptional_eq_ok_iff]
    constructor
    · rintro ⟨_ | d, h⟩
      · obtain rfl := pure_eq_ok_iff.mp h
        exact .absent
      · simp only [bind_eq_ok_iff, pure_eq_ok_iff] at h
        obtain ⟨w, hw, rfl⟩ := h
        exact .present ((ih w path).mp ⟨d, hw⟩)
    · intro h
      cases h with
      | absent => exact ⟨none, rfl⟩
      | @present _ w h =>
        obtain ⟨d, hd⟩ := (ih w path).mpr h
        exact ⟨some d, bind_eq_ok_iff.mpr ⟨w, hd, rfl⟩⟩
  case tuple =>
    intro items hitems v path
    simp only [decodeAt, bind_eq_ok_iff, asListOf_eq_ok_iff, pure_eq_ok_iff]
    constructor
    · rintro ⟨_, ds, ⟨-, hlen⟩, vs, hds, rfl⟩
      obtain ⟨hcount, hvs⟩ := (exists_decodeItems_eq_iff hitems 0).mp ⟨ds, hlen, hds⟩
      exact .tuple hcount hvs
    · intro h
      cases h with
      | tuple hcount hvs =>
        obtain ⟨ds, hlen, hds⟩ := (exists_decodeItems_eq_iff hitems 0).mpr ⟨hcount, hvs⟩
        exact ⟨_, ds, ⟨rfl, hlen⟩, _, hds, rfl⟩

/-- **Canonical values survive encoding.**  Under a well-formed schema every canonical value is
encoded, and decoding the data gives back this very value; and whatever is decoded is canonical. -/
theorem canonical_exact {network : Network} {s : Schema} (hs : s.check = .ok ()) :
    (∀ v, s.Canonical network v →
      ∃ d, encode network s v = .ok d ∧ decode network s d = .ok v) ∧
    ∀ d v, decode network s d = .ok v → s.Canonical network v := by
  refine ⟨fun v hv => ?_, fun d v hd => ?_⟩
  · obtain ⟨d, hd⟩ := (reachedIff_decodeAt network s hs v .top).mpr hv
    exact ⟨d, reversible_of_check s hs .top .top d v hd, hd⟩
  · exact (reachedIff_decodeAt network s hs v .top).mp ⟨d, hd⟩

namespace Example

/-- What can be done to an offer; one that is made may end, and says who sells at which price. -/
def offerSchema : Schema :=
  .enum [⟨"Close", 0, []⟩,
    ⟨"Make", 1, [⟨"seller", .primitive .address⟩, ⟨"price", .primitive .ratio⟩,
      ⟨"until", .option (.primitive .time)⟩]⟩]

/-- An offer whose seller stakes through a pointer. -/
def offer : Value :=
  .variant "Make"
    [("seller", .address ⟨.testnet, .pubKey (List.replicate 28 7), some (.pointer 1 2 3)⟩),
      ("price", .record [("top", .int .zero), ("bottom", .int (.ofUInt64 5))]), ("until", .absent)]

theorem canonical_exact_offer : offerSchema.check = .ok () ∧ offerSchema.Canonical .testnet offer ∧
    ∃ d, encode .testnet offerSchema offer = .ok d ∧ decode .testnet offerSchema d = .ok offer := by
  obtain ⟨hsurvives, hcanonical⟩ := @canonical_exact .testnet offerSchema rfl
  have hoffer : offerSchema.Canonical .testnet offer :=
    hcanonical (.constr 1
      [.constr 0 [.constr 0 [.bytes (List.replicate 28 7)],
          .constr 0 [.constr 1 [.int (.ofUInt64 1), .int (.ofUInt64 2), .int (.ofUInt64 3)]]],
        .list [.int .zero, .int (.ofUInt64 5)], .constr 1 []]) offer rfl
  exact ⟨rfl, hoffer, hsurvives offer hoffer⟩

end Example

end Codec

end ScriptBundle

/-
# The data that is decoded

Decoding is strict, and what it is strict about can be said without it.  `Schema.Conforms` is the
shape of data that a schema describes, one rule for each kind of schema, and `Primitive.Conforms` is
the table of the fixed shapes of the primitives.  Neither mentions a value, a place or an error.

Data is decoded exactly if it has that shape (`exists_decode_iff_conforms`): nothing of another
shape is let through, and nothing of the right shape is refused.  The network plays no part in it.
No schema needs to be well formed either, since names do not occur in data and a variant is found by
its position.

The induction is on the schema.  Three kinds of walk occur on the way, over the items of a list,
over items of a fixed number and over fields, and each succeeds exactly if all its steps do.
-/
import ScriptBundle.Codec
import ScriptBundle.Proofs.Codec.Primitive
import ScriptBundle.Proofs.Codec.RoundTrip
import ScriptBundle.Proofs.Schema.WellFormed

namespace ScriptBundle

/-! ## 1. Shapes of primitives -/

namespace Data

/-- Bytes of a fixed size. -/
def IsHash (size : Nat) (d : Data) : Prop := ∃ b, d = .bytes b ∧ b.length = size

/-- One of two constructors with a hash of 28 bytes inside. -/
def IsHashChoice (d : Data) : Prop :=
  ∃ h : Data, h.IsHash 28 ∧ (d = .constr 0 [h] ∨ d = .constr 1 [h])

/-- An integer from 0 below `2 ^ 64`. -/
def IsWord (d : Data) : Prop :=
  ∃ n : Int128, d = .int n ∧ 0 ≤ n.val ∧ n.val < 0x10000000000000000

/-- A transaction: its 32 bytes in a constructor. -/
def IsTxId (d : Data) : Prop := ∃ id : Data, id.IsHash 32 ∧ d = .constr 0 [id]

/-- A hash that stakes, or the three numbers of a pointer. -/
def IsStaking (d : Data) : Prop :=
  (∃ h : Data, h.IsHashChoice ∧ d = .constr 0 [h]) ∨
    ∃ slot txIndex certIndex : Data, slot.IsWord ∧ txIndex.IsWord ∧ certIndex.IsWord ∧
      d = .constr 1 [slot, txIndex, certIndex]

/-- Who may spend, and perhaps who stakes. -/
def IsAddress (d : Data) : Prop :=
  ∃ payment staking : Data, payment.IsHashChoice ∧ d = .constr 0 [payment, staking] ∧
    (staking = .constr 1 [] ∨ ∃ s : Data, s.IsStaking ∧ staking = .constr 0 [s])

/-- The name of a token and an amount. -/
def IsToken (t : Data × Data) : Prop := ∃ name amount, t = (.bytes name, .int amount)

/-- A policy and the amounts of its tokens. -/
def IsPolicy (p : Data × Data) : Prop :=
  ∃ hash tokens, p = (.bytes hash, .map tokens) ∧ ∀ t ∈ tokens, IsToken t

end Data

open Data

/-- The shape of data that a primitive describes. -/
def Primitive.Conforms (p : Primitive) (d : Data) : Prop :=
  match p with
  | .bool => d = .constr 0 [] ∨ d = .constr 1 []
  | .int | .real | .time | .duration => ∃ n, d = .int n
  | .byteArray => ∃ b, d = .bytes b
  | .string => ∃ s, d = .bytes (Bytes.ofText s)
  | .data => True
  | .pubKeyHash | .validatorHash | .mintingPolicyHash | .stakingValidatorHash | .scriptHash =>
    d.IsHash 28
  | .datumHash => d.IsHash 32
  | .txId => d.IsTxId
  | .txOutputId => ∃ id index, id.IsTxId ∧ d = .constr 0 [id, .int index]
  | .credential | .stakingHash => d.IsHashChoice
  | .stakingCredential => d.IsStaking
  | .address => d.IsAddress
  | .assetClass => ∃ policy token, d = .constr 0 [.bytes policy, .bytes token]
  | .value => ∃ policies, d = .map policies ∧ ∀ p ∈ policies, IsPolicy p
  | .ratio => ∃ top bottom : Int128, bottom.val ≠ 0 ∧ d = .list [.int top, .int bottom]

/-- The shape of data that a schema describes. -/
inductive Schema.Conforms : Schema → Data → Prop
  | primitive {p : Primitive} {d : Data} (h : p.Conforms d) : Conforms (.primitive p) d
  | list {item : Schema} {ds : List Data} (h : ∀ d ∈ ds, Conforms item d) :
    Conforms (.list item) (.list ds)
  | map {key value : Schema} {pairs : List (Data × Data)} (hkeys : ∀ p ∈ pairs, Conforms key p.1)
    (hvalues : ∀ p ∈ pairs, Conforms value p.2) : Conforms (.map key value) (.map pairs)
  | present {inner : Schema} {d : Data} (h : Conforms inner d) :
    Conforms (.option inner) (.constr 0 [d])
  | absent {inner : Schema} : Conforms (.option inner) (.constr 1 [])
  | tuple {items : List Schema} {ds : List Data} (hlen : ds.length = items.length)
    (h : ∀ p ∈ items.zip ds, Conforms p.1 p.2) : Conforms (.tuple items) (.list ds)
  /-- A record of one field is that field. -/
  | bare {f : Field Schema} {d : Data} (h : Conforms f.type d) : Conforms (.record [f]) d
  | record {fields : List (Field Schema)} {ds : List Data} (hmany : fields.length ≠ 1)
    (hlen : ds.length = fields.length) (h : ∀ p ∈ fields.zip ds, Conforms p.1.type p.2) :
    Conforms (.record fields) (.list ds)
  | enum {variants : List (Variant Schema)} {tag : UInt64} {v : Variant Schema} {ds : List Data}
    (hv : variants[tag.toNat]? = some v) (hlen : ds.length = v.fields.length)
    (h : ∀ p ∈ v.fields.zip ds, Conforms p.1.type p.2) : Conforms (.enum variants) (.constr tag ds)

namespace Codec

variable {network : Network} {path : Path} {d : Data}

/-! ## 2. Walks -/

/-- A conversion succeeds on something exactly if it has a property, whatever the place. -/
def SucceedsIff {α β : Type} (convert : Path → α → Result β) (C : α → Prop) (a : α) : Prop :=
  ∀ path, (∃ b, convert path a = .ok b) ↔ C a

/-- A step whose result is only put into another form succeeds iff it does. -/
theorem exists_bind_pure_iff {α β : Type} {x : Result α} {f : α → β} :
    (∃ b, (x >>= fun a => pure (f a)) = .ok b) ↔ ∃ a, x = .ok a := by
  rw [exists_bind_eq_ok_iff]
  exact ⟨fun ⟨a, ha, _⟩ => ⟨a, ha⟩, fun ⟨a, ha⟩ => ⟨a, ha, _, rfl⟩⟩

/-- Two steps that do not depend on each other succeed iff both do. -/
theorem exists_bind_bind_pure_iff {α β γ : Type} {x : Result α} {y : Result β} {f : α → β → γ} :
    (∃ c, (x >>= fun a => y >>= fun b => pure (f a b)) = .ok c) ↔
      (∃ a, x = .ok a) ∧ ∃ b, y = .ok b := by
  simp only [exists_bind_eq_ok_iff (x := x), exists_bind_pure_iff]
  exact ⟨fun ⟨a, ha, hy⟩ => ⟨⟨a, ha⟩, hy⟩, fun ⟨⟨a, ha⟩, hy⟩ => ⟨a, ha, hy⟩⟩

theorem exists_each_iff {α β : Type} {convert : Path → α → Result β} {C : α → Prop}
    {items : List α} (h : ∀ a ∈ items, SucceedsIff convert C a) :
    (∃ bs, each convert path items = .ok bs) ↔ ∀ a ∈ items, C a := by
  unfold each
  generalize 0 = index
  induction items generalizing index with
  | nil => exact ⟨fun _ => List.forall_mem_nil _, fun _ => ⟨[], rfl⟩⟩
  | cons a rest ih =>
    obtain ⟨ha, hrest⟩ := List.forall_mem_cons.mp h
    rw [eachFrom, exists_bind_bind_pure_iff, ha (.item path index), ih hrest (index + 1),
      List.forall_mem_cons]

/-! ## 3. Primitives -/

theorem exists_asSizedBytes_iff {p : Primitive} {size : Nat} :
    (∃ b, asSizedBytes path p size d = .ok b) ↔ d.IsHash size := by
  simp only [asSizedBytes_eq_ok_iff, IsHash]

theorem succeedsIff_credential (d : Data) : SucceedsIff Credential.ofData IsHashChoice d := by
  intro path
  simp only [Credential.ofData_eq_ok_iff]
  constructor
  · rintro ⟨c | c, rfl, hlen⟩
    · exact ⟨.bytes c, ⟨c, rfl, hlen⟩, .inl rfl⟩
    · exact ⟨.bytes c, ⟨c, rfl, hlen⟩, .inr rfl⟩
  · rintro ⟨_, ⟨b, rfl, hlen⟩, rfl | rfl⟩
    · exact ⟨.pubKey b, rfl, hlen⟩
    · exact ⟨.validator b, rfl, hlen⟩

theorem succeedsIff_stakingHash (d : Data) : SucceedsIff StakingHash.ofData IsHashChoice d := by
  intro path
  simp only [StakingHash.ofData_eq_ok_iff]
  constructor
  · rintro ⟨h | h, rfl, hlen⟩
    · exact ⟨.bytes h, ⟨h, rfl, hlen⟩, .inl rfl⟩
    · exact ⟨.bytes h, ⟨h, rfl, hlen⟩, .inr rfl⟩
  · rintro ⟨_, ⟨b, rfl, hlen⟩, rfl | rfl⟩
    · exact ⟨.stakeKey b, rfl, hlen⟩
    · exact ⟨.validator b, rfl, hlen⟩

/-- The words are the integers in their range. -/
theorem isWord_iff : d.IsWord ↔ ∃ w, d = .int (.ofUInt64 w) := by
  constructor
  · rintro ⟨n, rfl, hrange⟩
    exact ⟨UInt64.ofNat n.val.toNat, congrArg Data.int (Int128.eq_of_toUInt64? (if_pos hrange))⟩
  · rintro ⟨w, rfl⟩
    have hw := w.toNat_lt
    refine ⟨_, rfl, ?_⟩
    simp only [Int128.ofUInt64]
    omega

theorem succeedsIff_stakingCredential (d : Data) :
    SucceedsIff StakingCredential.ofData IsStaking d := by
  intro path
  simp only [StakingCredential.ofData_eq_ok_iff]
  constructor
  · rintro ⟨h | ⟨slot, txIndex, certIndex⟩, rfl, hsize⟩
    · exact .inl ⟨h.toData, (succeedsIff_stakingHash _ path).mp
        ⟨h, StakingHash.ofData_eq_ok_iff.mpr ⟨rfl, hsize⟩⟩, rfl⟩
    · exact .inr ⟨_, _, _, isWord_iff.mpr ⟨slot, rfl⟩, isWord_iff.mpr ⟨txIndex, rfl⟩,
        isWord_iff.mpr ⟨certIndex, rfl⟩, rfl⟩
  · rintro (⟨x, hx, rfl⟩ | ⟨_, _, _, hslot, htx, hcert, rfl⟩)
    · obtain ⟨h, hh⟩ := (succeedsIff_stakingHash _ path).mpr hx
      obtain ⟨rfl, hsize⟩ := StakingHash.ofData_eq_ok_iff.mp hh
      exact ⟨.hash h, rfl, hsize⟩
    · obtain ⟨slot, rfl⟩ := isWord_iff.mp hslot
      obtain ⟨txIndex, rfl⟩ := isWord_iff.mp htx
      obtain ⟨certIndex, rfl⟩ := isWord_iff.mp hcert
      exact ⟨.pointer slot txIndex certIndex, rfl, trivial⟩

theorem succeedsIff_address (d : Data) : SucceedsIff (Address.ofData network) IsAddress d := by
  intro path
  simp only [Address.ofData_eq_ok_iff]
  constructor
  · rintro ⟨⟨_, payment, staking⟩, rfl, -, hpay, hstake⟩
    have hpayment : payment.toData.IsHashChoice := (succeedsIff_credential _ path).mp
      ⟨payment, Credential.ofData_eq_ok_iff.mpr ⟨rfl, hpay⟩⟩
    refine ⟨payment.toData, _, hpayment, rfl, ?_⟩
    cases staking with
    | none => exact .inl rfl
    | some s =>
      exact .inr ⟨s.toData, (succeedsIff_stakingCredential _ path).mp
        ⟨s, StakingCredential.ofData_eq_ok_iff.mpr ⟨rfl, hstake s rfl⟩⟩, rfl⟩
  · rintro ⟨x, _, hx, rfl, hstaking⟩
    obtain ⟨payment, hpayment⟩ := (succeedsIff_credential _ path).mpr hx
    obtain ⟨rfl, hpay⟩ := Credential.ofData_eq_ok_iff.mp hpayment
    rcases hstaking with rfl | ⟨y, hy, rfl⟩
    · exact ⟨⟨network, payment, none⟩, rfl, rfl, hpay, fun _ hs => (by cases hs)⟩
    · obtain ⟨s, hs⟩ := (succeedsIff_stakingCredential _ path).mpr hy
      obtain ⟨rfl, hsize⟩ := StakingCredential.ofData_eq_ok_iff.mp hs
      refine ⟨⟨network, payment, some s⟩, rfl, rfl, hpay, ?_⟩
      rintro _ ⟨⟩
      exact hsize

theorem succeedsIff_txId (d : Data) : SucceedsIff decodeTxId IsTxId d := by
  intro path
  simp only [decodeTxId_eq_ok_iff]
  constructor
  · rintro ⟨id, rfl, hlen⟩
    exact ⟨.bytes id, ⟨id, rfl, hlen⟩, rfl⟩
  · rintro ⟨_, ⟨id, rfl, hlen⟩, rfl⟩
    exact ⟨id, rfl, hlen⟩

theorem succeedsIff_decodeToken (t : Data × Data) : SucceedsIff decodeToken IsToken t := by
  intro path
  obtain ⟨name, amount⟩ := t
  simp only [decodeToken, exists_bind_bind_pure_iff, asBytes_eq_ok_iff, asInt_eq_ok_iff]
  constructor
  · rintro ⟨⟨b, rfl⟩, n, rfl⟩
    exact ⟨b, n, rfl⟩
  · rintro ⟨b, n, h⟩
    cases h
    exact ⟨⟨b, rfl⟩, n, rfl⟩

theorem succeedsIff_decodePolicy (p : Data × Data) : SucceedsIff decodePolicy IsPolicy p := by
  intro path
  obtain ⟨hash, tokens⟩ := p
  simp only [decodePolicy, exists_bind_eq_ok_iff (x := asBytes _ _),
    exists_bind_eq_ok_iff (x := asMap _ _), exists_bind_pure_iff, asBytes_eq_ok_iff,
    asMap_eq_ok_iff, exists_each_iff fun t _ => succeedsIff_decodeToken t]
  constructor
  · rintro ⟨b, rfl, ts, rfl, hts⟩
    exact ⟨b, ts, rfl, hts⟩
  · rintro ⟨b, ts, h, hts⟩
    cases h
    exact ⟨b, rfl, ts, rfl, hts⟩

end Codec

open Codec

/-- **Primitives.**  The rule of a primitive decodes exactly the data of its shape. -/
theorem Primitive.exists_decode_iff {network : Network} {path : Path} {p : Primitive} {d : Data} :
    (∃ v, p.decode network path d = .ok v) ↔ p.Conforms d := by
  cases p with
  | bool =>
    simp only [decode, exists_bind_pure_iff, Prod.exists, asConstr_two_eq_ok_iff, Conforms]
    constructor
    · rintro ⟨_, _, ⟨-, rfl, hlen⟩ | ⟨-, rfl, hlen⟩⟩
      · exact .inl (congrArg _ (List.eq_nil_of_length_eq_zero hlen))
      · exact .inr (congrArg _ (List.eq_nil_of_length_eq_zero hlen))
    · rintro (rfl | rfl)
      · exact ⟨0, [], .inl ⟨rfl, rfl, rfl⟩⟩
      · exact ⟨1, [], .inr ⟨rfl, rfl, rfl⟩⟩
  | int | time | duration | real =>
    simp only [decode, exists_bind_pure_iff, asInt_eq_ok_iff, Conforms]
  | byteArray => simp only [decode, exists_bind_pure_iff, asBytes_eq_ok_iff, Conforms]
  | string =>
    simp only [decode, exists_bind_eq_ok_iff, asBytes_eq_ok_iff, Conforms]
    constructor
    · rintro ⟨b, rfl, v, hv⟩
      cases hs : Bytes.toText? b with
      | none =>
        rw [hs] at hv
        cases hv
      | some s => exact ⟨s, congrArg _ (Bytes.toText?_eq_some_iff.mp hs)⟩
    · rintro ⟨s, rfl⟩
      exact ⟨_, rfl, .text s, by rw [Bytes.toText?_ofText]; rfl⟩
  | data => exact ⟨fun _ => trivial, fun _ => ⟨_, rfl⟩⟩
  | pubKeyHash | validatorHash | mintingPolicyHash | stakingValidatorHash | scriptHash
  | datumHash =>
    exact exists_bind_pure_iff.trans exists_asSizedBytes_iff
  | txId => exact exists_bind_pure_iff.trans (succeedsIff_txId d path)
  | txOutputId =>
    simp only [decode, decodeTxOutputId_eq_ok_iff, Conforms]
    constructor
    · rintro ⟨_, id, index, hlen, rfl, -⟩
      exact ⟨_, index, ⟨.bytes id, ⟨id, rfl, hlen⟩, rfl⟩, rfl⟩
    · rintro ⟨_, index, ⟨_, ⟨id, rfl, hlen⟩, rfl⟩, rfl⟩
      exact ⟨_, id, index, hlen, rfl, rfl⟩
  | credential => exact exists_bind_pure_iff.trans (succeedsIff_credential d path)
  | stakingHash => exact exists_bind_pure_iff.trans (succeedsIff_stakingHash d path)
  | stakingCredential => exact exists_bind_pure_iff.trans (succeedsIff_stakingCredential d path)
  | address => exact exists_bind_pure_iff.trans (succeedsIff_address d path)
  | assetClass =>
    simp only [decode, decodeAssetClass_eq_ok_iff, Conforms]
    constructor
    · rintro ⟨_, policy, token, hd, -⟩
      exact ⟨policy, token, hd⟩
    · rintro ⟨policy, token, hd⟩
      exact ⟨_, policy, token, hd, rfl⟩
  | value =>
    simp only [decode, decodeAssets, exists_bind_eq_ok_iff (x := asMap _ _), exists_bind_pure_iff,
      asMap_eq_ok_iff, exists_each_iff fun p _ => succeedsIff_decodePolicy p, Conforms]
  | ratio =>
    simp only [decode, decodeRatio_eq_ok_iff, Conforms]
    constructor
    · rintro ⟨_, top, bottom, hzero, hd, -⟩
      exact ⟨top, bottom, hzero, hd⟩
    · rintro ⟨top, bottom, hzero, hd⟩
      exact ⟨_, top, bottom, hzero, hd, rfl⟩

namespace Codec

variable {network : Network} {path : Path} {d : Data}

/-! ## 4. Items and fields -/

/-- Items of a fixed number; those that have no partner are left alone. -/
theorem exists_decodeItems_iff {items : List Schema} {ds : List Data}
    (h : ∀ s ∈ items, ∀ d, SucceedsIff (decodeAt network s) s.Conforms d) (index : Nat) :
    (∃ vs, decodeItems network items path index ds = .ok vs) ↔
      ∀ p ∈ items.zip ds, p.1.Conforms p.2 := by
  induction items generalizing ds index with
  | nil => exact ⟨fun _ => List.forall_mem_nil _, fun _ => ⟨[], rfl⟩⟩
  | cons s items ih =>
    cases ds with
    | nil => exact ⟨fun _ => List.forall_mem_nil _, fun _ => ⟨[], rfl⟩⟩
    | cons d ds =>
      obtain ⟨hs, hitems⟩ := List.forall_mem_cons.mp h
      rw [decodeItems, exists_bind_bind_pure_iff, hs d (.item path index), ih hitems (index + 1),
        List.zip_cons_cons, List.forall_mem_cons]

theorem exists_decodeFields_iff {fields : List (Field Schema)} {ds : List Data}
    (h : ∀ f ∈ fields, ∀ d, SucceedsIff (decodeAt network f.type) f.type.Conforms d) :
    (∃ vs, decodeFields network fields path ds = .ok vs) ↔
      ∀ p ∈ fields.zip ds, p.1.type.Conforms p.2 := by
  induction fields generalizing ds with
  | nil => exact ⟨fun _ => List.forall_mem_nil _, fun _ => ⟨[], rfl⟩⟩
  | cons f fields ih =>
    cases ds with
    | nil => exact ⟨fun _ => List.forall_mem_nil _, fun _ => ⟨[], rfl⟩⟩
    | cons d ds =>
      obtain ⟨hf, hfields⟩ := List.forall_mem_cons.mp h
      rw [decodeFields, exists_bind_bind_pure_iff, hf d (.field path f.name), ih hfields,
        List.zip_cons_cons, List.forall_mem_cons]

/-! ## 5. Schemas -/

/-- Without a list around it if there is one field, and with one otherwise. -/
theorem succeedsIff_record {fields : List (Field Schema)}
    (h : ∀ f ∈ fields, ∀ d, SucceedsIff (decodeAt network f.type) f.type.Conforms d) (d : Data) :
    SucceedsIff (decodeAt network (.record fields)) (Schema.record fields).Conforms d := by
  intro path
  -- The decoder tells the two apart by the fields, and so do the rules.
  have hlist : fields.length ≠ 1 →
      ((∃ ds, asListOf path fields.length d = .ok ds ∧
          ∃ vs, decodeFields network fields path ds = .ok vs) ↔
        (Schema.record fields).Conforms d) := by
    intro hmany
    simp only [asListOf_eq_ok_iff, exists_decodeFields_iff h]
    constructor
    · rintro ⟨ds, ⟨rfl, hlen⟩, hds⟩
      exact .record hmany hlen hds
    · intro hd
      cases hd with
      | bare => exact absurd rfl hmany
      | record _ hlen hds => exact ⟨_, ⟨rfl, hlen⟩, hds⟩
  match fields, h, hlist with
  | [f], h, _ =>
    rw [decodeAt, exists_bind_pure_iff, h f (List.mem_singleton_self f) d]
    refine ⟨.bare, fun hd => ?_⟩
    cases hd with
    | bare hd => exact hd
    | record hmany => exact absurd rfl hmany
  | [], _, hlist =>
    simpa only [decodeAt, exists_bind_eq_ok_iff (x := asListOf _ _ _), exists_bind_pure_iff]
      using hlist (by simp)
  | _ :: _ :: _, _, hlist =>
    simpa only [decodeAt, exists_bind_eq_ok_iff (x := asListOf _ _ _), exists_bind_pure_iff]
      using hlist (by simp)

/-- The variant whose position the data names, with that variant's fields. -/
theorem succeedsIff_enum {variants : List (Variant Schema)}
    (h : ∀ v ∈ variants, ∀ f ∈ v.fields, ∀ d,
      SucceedsIff (decodeAt network f.type) f.type.Conforms d) (d : Data) :
    SucceedsIff (decodeAt network (.enum variants)) (Schema.enum variants).Conforms d := by
  intro path
  simp only [decodeAt, exists_bind_eq_ok_iff (x := asConstr _ _ _), Prod.exists,
    asConstr_eq_ok_iff, decodeVariant_eq_ok_iff, List.getElem?_map, Option.map_eq_some_iff]
  constructor
  · rintro ⟨tag, ds, ⟨rfl, v, hv, hlen⟩, _, v', entries, hv', hentries, rfl⟩
    obtain rfl : v = v' := Option.some.inj (hv.symm.trans hv')
    exact .enum hv hlen.symm
      ((exists_decodeFields_iff (h v (List.mem_of_getElem? hv))).mp ⟨entries, hentries⟩)
  · intro hd
    cases hd with
    | @enum _ tag v ds hv hlen hds =>
      have hfields :
          ∃ entries, decodeFields network v.fields (.field path v.name) ds = .ok entries :=
        (exists_decodeFields_iff (h v (List.mem_of_getElem? hv))).mpr hds
      obtain ⟨entries, hentries⟩ := hfields
      exact ⟨tag, ds, ⟨rfl, v, hv, hlen.symm⟩, _, v, entries, hv, hentries, rfl⟩

/-- A schema decodes exactly the data of its shape, at every place. -/
theorem succeedsIff_decodeAt (network : Network) (s : Schema) (d : Data) :
    SucceedsIff (decodeAt network s) s.Conforms d := by
  induction s using Schema.induct generalizing d with
  | primitive p =>
    intro path
    exact Primitive.exists_decode_iff.trans ⟨.primitive, fun h => by cases h; assumption⟩
  | list item ih =>
    intro path
    simp only [decodeAt, exists_bind_eq_ok_iff (x := asList _ _), exists_bind_pure_iff,
      asList_eq_ok_iff, exists_each_iff fun d _ => ih d]
    constructor
    · rintro ⟨ds, rfl, h⟩
      exact .list h
    · intro h
      cases h with
      | list h => exact ⟨_, rfl, h⟩
  | map key value ihkey ihvalue =>
    intro path
    have hpair : ∀ p : Data × Data, SucceedsIff
        (decodePair (decodeAt network key) (decodeAt network value))
        (fun p => key.Conforms p.1 ∧ value.Conforms p.2) p := by
      intro p path
      rw [decodePair, exists_bind_bind_pure_iff, ihkey p.1 path, ihvalue p.2 path]
    simp only [decodeAt, exists_bind_eq_ok_iff (x := asMap _ _), exists_bind_pure_iff,
      asMap_eq_ok_iff, exists_each_iff fun p _ => hpair p]
    constructor
    · rintro ⟨pairs, rfl, h⟩
      exact .map (fun p hp => (h p hp).1) fun p hp => (h p hp).2
    · intro h
      cases h with
      | map hkeys hvalues => exact ⟨_, rfl, fun p hp => ⟨hkeys p hp, hvalues p hp⟩⟩
  | option inner ih =>
    intro path
    simp only [decodeAt, exists_bind_eq_ok_iff (x := asOptional _ _), asOptional_eq_ok_iff]
    constructor
    · rintro ⟨o, rfl, h⟩
      cases o with
      | none => exact .absent
      | some d => exact .present ((ih d path).mp (exists_bind_pure_iff.mp h))
    · intro h
      cases h with
      | absent => exact ⟨none, rfl, _, rfl⟩
      | present h => exact ⟨some _, rfl, exists_bind_pure_iff.mpr ((ih _ path).mpr h)⟩
  | tuple items ih =>
    intro path
    simp only [decodeAt, exists_bind_eq_ok_iff (x := asListOf _ _ _), exists_bind_pure_iff,
      asListOf_eq_ok_iff, exists_decodeItems_iff ih]
    constructor
    · rintro ⟨ds, ⟨rfl, hlen⟩, h⟩
      exact .tuple hlen h
    · intro h
      cases h with
      | tuple hlen h => exact ⟨_, ⟨rfl, hlen⟩, h⟩
  | record fields ih => exact succeedsIff_record ih d
  | enum variants ih => exact succeedsIff_enum ih d

/-- **Decoding is exactly as strict as the schema.**  Data is decoded on a network if and only if it
has the shape that the schema describes. -/
theorem exists_decode_iff_conforms {network : Network} {s : Schema} {d : Data} :
    (∃ v, decode network s d = .ok v) ↔ s.Conforms d :=
  succeedsIff_decodeAt network s d .top

end Codec

end ScriptBundle

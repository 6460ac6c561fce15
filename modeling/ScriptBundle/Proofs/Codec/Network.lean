/-
# Addresses stay on their network

Data does not say which network it is for: a decoder stamps its own network on every address that
it reads.  `Value.onNetwork` does the same to a value that is there already, and what is decoded for
one network is, stamped anew, what is decoded for the other (`decodeAt_network`); complaints do not
depend on the network at all.

The encoder, on the other hand, takes no address of another network.  So a value that was decoded
for one network and is encoded on another gives back its data if there is no address in it, and is
refused for its network otherwise, never for anything else (`networks_exact`).

The first half compares two runs of the decoder step by step.  The second follows the decoder with
the encoder, as for one network, but with two ends for every part: `Gated` says which of them is
reached, and that the first part with an address decides for the whole.
-/
import ScriptBundle.Proofs.Codec.Canonical

namespace ScriptBundle

/-! ## 1. Addresses in values -/

namespace Value

mutual
/-- The value with every address in it put on a network. -/
def onNetwork (network : Network) : Value → Value
  | .list items => .list (itemsOnNetwork network items)
  | .map pairs => .map (pairsOnNetwork network pairs)
  | .present v => .present (onNetwork network v)
  | .record fields => .record (fieldsOnNetwork network fields)
  | .variant name fields => .variant name (fieldsOnNetwork network fields)
  | .address a => .address { a with network }
  | v => v

def itemsOnNetwork (network : Network) : List Value → List Value
  | [] => []
  | v :: rest => onNetwork network v :: itemsOnNetwork network rest

def pairsOnNetwork (network : Network) : List (Value × Value) → List (Value × Value)
  | [] => []
  | (k, v) :: rest => (onNetwork network k, onNetwork network v) :: pairsOnNetwork network rest

def fieldsOnNetwork (network : Network) : List (String × Value) → List (String × Value)
  | [] => []
  | (name, v) :: rest => (name, onNetwork network v) :: fieldsOnNetwork network rest
end

/-- An address stands somewhere in a value. -/
inductive HoldsAddress : Value → Prop
  | address (a : Address) : HoldsAddress (.address a)
  | item {items : List Value} {v : Value} (hmem : v ∈ items) (h : HoldsAddress v) :
    HoldsAddress (.list items)
  | key {pairs : List (Value × Value)} {p : Value × Value} (hmem : p ∈ pairs)
    (h : HoldsAddress p.1) : HoldsAddress (.map pairs)
  | mapped {pairs : List (Value × Value)} {p : Value × Value} (hmem : p ∈ pairs)
    (h : HoldsAddress p.2) : HoldsAddress (.map pairs)
  | present {v : Value} (h : HoldsAddress v) : HoldsAddress (.present v)
  | field {fields : List (String × Value)} {e : String × Value} (hmem : e ∈ fields)
    (h : HoldsAddress e.2) : HoldsAddress (.record fields)
  | part {name : String} {fields : List (String × Value)} {e : String × Value}
    (hmem : e ∈ fields) (h : HoldsAddress e.2) : HoldsAddress (.variant name fields)

variable {network : Network}

@[simp] theorem itemsOnNetwork_eq (items : List Value) :
    itemsOnNetwork network items = items.map (onNetwork network) := by
  induction items with
  | nil => rfl
  | cons v rest ih => rw [itemsOnNetwork, ih, List.map_cons]

@[simp] theorem pairsOnNetwork_eq (pairs : List (Value × Value)) :
    pairsOnNetwork network pairs =
      pairs.map (Prod.map (onNetwork network) (onNetwork network)) := by
  induction pairs with
  | nil => rfl
  | cons p rest ih => rw [pairsOnNetwork, ih, List.map_cons, Prod.map]

@[simp] theorem fieldsOnNetwork_eq (fields : List (String × Value)) :
    fieldsOnNetwork network fields = fields.map (Prod.map id (onNetwork network)) := by
  induction fields with
  | nil => rfl
  | cons e rest ih => rw [fieldsOnNetwork, ih, List.map_cons, Prod.map, id]

@[simp] theorem holdsAddress_list_iff {items : List Value} :
    (Value.list items).HoldsAddress ↔ ∃ v ∈ items, v.HoldsAddress :=
  ⟨fun h => by cases h with | item hmem h => exact ⟨_, hmem, h⟩, fun ⟨_, hmem, h⟩ => .item hmem h⟩

@[simp] theorem holdsAddress_map_iff {pairs : List (Value × Value)} :
    (Value.map pairs).HoldsAddress ↔ ∃ p ∈ pairs, p.1.HoldsAddress ∨ p.2.HoldsAddress := by
  constructor
  · intro h
    cases h with
    | key hmem h => exact ⟨_, hmem, .inl h⟩
    | mapped hmem h => exact ⟨_, hmem, .inr h⟩
  · rintro ⟨p, hmem, h | h⟩
    · exact .key hmem h
    · exact .mapped hmem h

@[simp] theorem holdsAddress_present_iff {v : Value} :
    (Value.present v).HoldsAddress ↔ v.HoldsAddress :=
  ⟨fun h => by cases h with | present h => exact h, .present⟩

@[simp] theorem holdsAddress_record_iff {fields : List (String × Value)} :
    (Value.record fields).HoldsAddress ↔ ∃ e ∈ fields, e.2.HoldsAddress :=
  ⟨fun h => by cases h with | field hmem h => exact ⟨_, hmem, h⟩, fun ⟨_, hmem, h⟩ => .field hmem h⟩

@[simp] theorem holdsAddress_variant_iff {name : String} {fields : List (String × Value)} :
    (Value.variant name fields).HoldsAddress ↔ ∃ e ∈ fields, e.2.HoldsAddress :=
  ⟨fun h => by cases h with | part hmem h => exact ⟨_, hmem, h⟩, fun ⟨_, hmem, h⟩ => .part hmem h⟩

mutual
/-- Without addresses there is nothing to put on a network. -/
theorem onNetwork_eq_self : (v : Value) → ¬ v.HoldsAddress → v.onNetwork network = v
  | .list items, h => congrArg Value.list
    (itemsOnNetwork_eq_self items fun _ hmem hw => h (.item hmem hw))
  | .map pairs, h => congrArg Value.map
    (pairsOnNetwork_eq_self pairs fun _ hmem =>
      ⟨fun hw => h (.key hmem hw), fun hw => h (.mapped hmem hw)⟩)
  | .present v, h => congrArg Value.present (onNetwork_eq_self v fun hw => h (.present hw))
  | .record fields, h => congrArg Value.record
    (fieldsOnNetwork_eq_self fields fun _ hmem hw => h (.field hmem hw))
  | .variant name fields, h => congrArg (Value.variant name)
    (fieldsOnNetwork_eq_self fields fun _ hmem hw => h (.part hmem hw))
  | .address a, h => absurd (.address a) h
  | .bool _, _ | .int _, _ | .real _, _ | .bytes _, _ | .text _, _ | .absent, _ | .data _, _ => rfl

theorem itemsOnNetwork_eq_self : (items : List Value) → (∀ v ∈ items, ¬ v.HoldsAddress) →
    itemsOnNetwork network items = items
  | [], _ => rfl
  | v :: rest, h => congrArg₂ List.cons (onNetwork_eq_self v (h v List.mem_cons_self))
    (itemsOnNetwork_eq_self rest fun w hw => h w (List.mem_cons_of_mem _ hw))

theorem pairsOnNetwork_eq_self : (pairs : List (Value × Value)) →
    (∀ p ∈ pairs, ¬ p.1.HoldsAddress ∧ ¬ p.2.HoldsAddress) →
    pairsOnNetwork network pairs = pairs
  | [], _ => rfl
  | (k, v) :: rest, h => congrArg₂ List.cons
    (Prod.ext (onNetwork_eq_self k (h (k, v) List.mem_cons_self).1)
      (onNetwork_eq_self v (h (k, v) List.mem_cons_self).2))
    (pairsOnNetwork_eq_self rest fun p hp => h p (List.mem_cons_of_mem _ hp))

theorem fieldsOnNetwork_eq_self : (fields : List (String × Value)) →
    (∀ e ∈ fields, ¬ e.2.HoldsAddress) → fieldsOnNetwork network fields = fields
  | [], _ => rfl
  | (name, v) :: rest, h => congrArg₂ List.cons
    (congrArg (Prod.mk name) (onNetwork_eq_self v (h (name, v) List.mem_cons_self)))
    (fieldsOnNetwork_eq_self rest fun e he => h e (List.mem_cons_of_mem _ he))
end

end Value

/-! ## 2. Primitives -/

open Codec

namespace Primitive

variable {p : Primitive} {path : Path} {d : Data} {v : Value}

/-- Only addresses are decoded with an eye to the network. -/
theorem decode_network (hp : p ≠ .address) (n m : Network) :
    p.decode m path d = p.decode n path d := by
  cases p with
  | address => exact absurd rfl hp
  | _ => rfl

/-- Only addresses are decoded to something with an address in it. -/
theorem not_holdsAddress_of_canonical {n : Network} (hp : p ≠ .address)
    (hv : p.Canonical n v) : ¬ v.HoldsAddress := by
  have hhash : ∀ {size : Nat} {w : Value}, w.IsHash size → ¬ w.HoldsAddress := by
    rintro _ _ ⟨b, rfl, -⟩ ⟨⟩
  have hchoice : ∀ {first second : String} {w : Value}, w.IsHashChoice first second →
      ¬ w.HoldsAddress := by
    rintro _ _ _ ⟨x, hx, rfl | rfl⟩ <;> simpa using hhash hx
  have hword : ∀ {w : Value}, w.IsWord → ¬ w.HoldsAddress := by
    rintro _ ⟨i, rfl, -⟩ ⟨⟩
  have hbytes : ∀ b : Bytes, ¬ (Value.bytes b).HoldsAddress := by rintro _ ⟨⟩
  have hint : ∀ i : Int128, ¬ (Value.int i).HoldsAddress := by rintro _ ⟨⟩
  cases p with
  | address => exact absurd rfl hp
  | bool | int | time | duration | real | byteArray | string | data =>
    obtain ⟨_, rfl⟩ := hv
    rintro ⟨⟩
  | pubKeyHash | validatorHash | mintingPolicyHash | stakingValidatorHash | scriptHash
  | datumHash | txId => exact hhash hv
  | txOutputId =>
    obtain ⟨id, index, hid, rfl⟩ := hv
    simpa [hint] using hhash hid
  | credential | stakingHash => exact hchoice hv
  | stakingCredential =>
    obtain ⟨x, hx, rfl⟩ | ⟨slot, txIndex, certIndex, hslot, htx, hcert, rfl⟩ := hv
    · simpa using hchoice hx
    · simp [hword hslot, hword htx, hword hcert]
  | assetClass =>
    obtain ⟨policy, token, rfl⟩ := hv
    simp [hbytes]
  | value =>
    obtain ⟨policies, rfl, hpolicies⟩ := hv
    simp only [Value.holdsAddress_map_iff, not_exists, not_and, not_or]
    intro q hq
    obtain ⟨hash, tokens, rfl, htokens⟩ := hpolicies q hq
    refine ⟨hbytes hash, ?_⟩
    simp only [Value.holdsAddress_map_iff, not_exists, not_and, not_or]
    intro t ht
    obtain ⟨name, amount, rfl⟩ := htokens t ht
    exact ⟨hbytes name, hint amount⟩
  | ratio =>
    obtain ⟨top, bottom, -, rfl⟩ := hv
    simp [hint]

end Primitive

namespace Codec

variable {n m : Network} {path path' : Path}

/-! ## 3. The same decoded for two networks -/

section Walking

variable {α β γ : Type}

/-- Two chains of corresponding steps. -/
theorem bind_map {ε α' β' : Type} {x : Except ε α} {g : α → α'} {f : α → Except ε β}
    {f' : α' → Except ε β'} {h : β → β'} (hf : ∀ a, f' (g a) = (f a).map h) :
    (x.map g >>= f') = (x >>= f).map h := by
  cases x with
  | ok a => exact hf a
  | error e => rfl

/-- Two chains of the same first step. -/
theorem bind_alike {ε β' : Type} {x : Except ε α} {f : α → Except ε β} {f' : α → Except ε β'}
    {h : β → β'} (hf : ∀ a, f' a = (f a).map h) : (x >>= f') = (x >>= f).map h := by
  cases x with
  | ok a => exact hf a
  | error e => rfl

/-- Two chains that put what corresponds into corresponding forms. -/
theorem form_map {ε α' β' : Type} {x : Except ε α} {g : α → α'} {form : α → β} {form' : α' → β'}
    {h : β → β'} (hform : ∀ a, form' (g a) = h (form a)) :
    (x.map g >>= fun a => pure (form' a)) = (x >>= fun a => pure (form a)).map h :=
  bind_map fun a => congrArg Except.ok (hform a)

theorem each_map {f f' : Path → α → Result β} {h : β → β} (hf : ∀ p a, f' p a = (f p a).map h)
    (items : List α) : each f' path items = (each f path items).map (List.map h) := by
  unfold each
  generalize 0 = index
  induction items generalizing index with
  | nil => rfl
  | cons a rest ih =>
    rw [eachFrom, eachFrom, hf, ih]
    refine bind_map fun b => ?_
    exact form_map fun bs => rfl

end Walking

/-- What is decoded for a network is what is decoded for another, with the addresses put on it. -/
def Stamped (n m : Network) (s : Schema) : Prop :=
  ∀ path d, decodeAt m s path d = (decodeAt n s path d).map (Value.onNetwork m)

theorem decodeItems_stamped {items : List Schema} (h : ∀ s ∈ items, Stamped n m s) (index : Nat)
    (ds : List Data) : decodeItems m items path index ds =
      (decodeItems n items path index ds).map (List.map (Value.onNetwork m)) := by
  induction items generalizing index ds with
  | nil => rfl
  | cons s items ih =>
    cases ds with
    | nil => rfl
    | cons d ds =>
      rw [decodeItems, decodeItems, h s List.mem_cons_self,
        ih (fun t ht => h t (List.mem_cons_of_mem _ ht))]
      refine bind_map fun v => ?_
      exact form_map fun vs => rfl

theorem decodeFields_stamped {fields : List (Field Schema)} (h : ∀ f ∈ fields, Stamped n m f.type)
    (ds : List Data) : decodeFields m fields path ds =
      (decodeFields n fields path ds).map (List.map (Prod.map id (Value.onNetwork m))) := by
  induction fields generalizing ds with
  | nil => rfl
  | cons f fields ih =>
    cases ds with
    | nil => rfl
    | cons d ds =>
      rw [decodeFields, decodeFields, h f List.mem_cons_self,
        ih (fun g hg => h g (List.mem_cons_of_mem _ hg))]
      refine bind_map fun v => ?_
      exact form_map fun vs => rfl

theorem decodeVariant_stamped {variants : List (Variant Schema)}
    (h : ∀ v ∈ variants, ∀ f ∈ v.fields, Stamped n m f.type) (position : Nat) (ds : List Data) :
    decodeVariant m variants path position ds =
      (decodeVariant n variants path position ds).map (Value.onNetwork m) := by
  induction variants generalizing position with
  | nil => rfl
  | cons variant rest ih =>
    cases position with
    | zero =>
      rw [decodeVariant, decodeVariant, decodeFields_stamped (h variant List.mem_cons_self)]
      exact form_map fun entries => by simp [Value.onNetwork]
    | succ position =>
      exact ih (fun v hv => h v (List.mem_cons_of_mem _ hv)) position

theorem ofData_network (n m : Network) (path : Path) (d : Data) :
    Address.ofData m path d = (Address.ofData n path d).map fun a => { a with network := m } := by
  refine bind_alike fun r => bind_alike fun payment => bind_alike fun o => ?_
  cases o with
  | none => rfl
  | some d => exact bind_alike fun staking => rfl

theorem stamped_primitive (p : Primitive) : Stamped n m (.primitive p) := by
  intro path d
  by_cases hp : p = .address
  · subst hp
    rw [decodeAt, decodeAt, Primitive.decode, Primitive.decode, ofData_network n m]
    exact form_map fun a => rfl
  · simp only [decodeAt, Primitive.decode_network hp n m]
    cases h : p.decode n path d with
    | error e => rfl
    | ok v =>
      have hfree : ¬ v.HoldsAddress :=
        Primitive.not_holdsAddress_of_canonical hp (Primitive.exists_decode_eq_iff.mp ⟨d, h⟩)
      exact congrArg Except.ok (Value.onNetwork_eq_self v hfree).symm

theorem stamped_record {fields : List (Field Schema)} (h : ∀ f ∈ fields, Stamped n m f.type) :
    Stamped n m (.record fields) := by
  intro path d
  match fields, h with
  | [⟨name, s⟩], h =>
    simp only [decodeAt, h _ List.mem_cons_self _ d]
    exact form_map fun v => rfl
  | [], h | _ :: _ :: _, h =>
    simp only [decodeAt, decodeFields_stamped h]
    exact bind_alike fun ds => form_map fun entries => by simp [Value.onNetwork]

/-- **Only addresses tell the networks apart.**  What a schema decodes data to for one network is
what it decodes it to for the other, with the addresses put on that network. -/
theorem decodeAt_network (n m : Network) (s : Schema) : Stamped n m s := by
  induction s using Schema.induct with
  | primitive p => exact stamped_primitive p
  | list item ih =>
    intro path d
    simp only [decodeAt, each_map ih]
    exact bind_alike fun ds => form_map fun vs => by simp [Value.onNetwork]
  | map key value ihkey ihvalue =>
    intro path d
    have hpair : ∀ p pair, decodePair (decodeAt m key) (decodeAt m value) p pair =
        (decodePair (decodeAt n key) (decodeAt n value) p pair).map
          (Prod.map (Value.onNetwork m) (Value.onNetwork m)) := by
      intro p pair
      simp only [decodePair, ihkey p, ihvalue p]
      refine bind_map fun k => ?_
      exact form_map fun v => rfl
    simp only [decodeAt, each_map hpair]
    exact bind_alike fun ds => form_map fun vs => by simp [Value.onNetwork]
  | option inner ih =>
    intro path d
    simp only [decodeAt, ih path]
    refine bind_alike fun o => ?_
    cases o with
    | none => rfl
    | some d => exact form_map fun v => rfl
  | tuple items hitems =>
    intro path d
    simp only [decodeAt, decodeItems_stamped hitems]
    exact bind_alike fun ds => form_map fun vs => by simp [Value.onNetwork]
  | record fields hfields => exact stamped_record hfields
  | enum variants h =>
    intro path d
    simp only [decodeAt, decodeVariant_stamped h]
    exact bind_alike fun r => rfl

/-! ## 4. Encoded on the other network -/

section Gates

variable {α β : Type} {foreign foreign' : Prop} {a : α} {b : β} {x : Result α}

/-- A part is encoded as it should be if there is nothing foreign in it, and refused for its network
otherwise. -/
structure Gated (m : Network) (foreign : Prop) (a : α) (x : Result α) : Prop where
  passed : ¬ foreign → x = .ok a
  refused : foreign → ∃ place, x = .error (.networkMismatch place m)

namespace Gated

theorem ok (h : ¬ foreign) : Gated m foreign a (.ok a) := ⟨fun _ => rfl, fun hf => absurd hf h⟩

theorem congr (hiff : foreign ↔ foreign') (h : Gated m foreign a x) : Gated m foreign' a x :=
  ⟨fun hf => h.passed (mt hiff.mp hf), fun hf => h.refused (hiff.mpr hf)⟩

/-- The first foreign part decides: no step after it is taken, and every one before it is passed. -/
theorem bind {f : α → Result β} (hx : Gated m foreign a x) (hf : Gated m foreign' b (f a)) :
    Gated m (foreign ∨ foreign') b (x >>= f) := by
  refine ⟨fun h => ?_, fun h => ?_⟩
  · rw [hx.passed fun h' => h (.inl h')]
    exact hf.passed fun h' => h (.inr h')
  · by_cases hfirst : foreign
    · obtain ⟨place, hplace⟩ := hx.refused hfirst
      exact ⟨place, by rw [hplace]; rfl⟩
    · rw [hx.passed hfirst]
      exact hf.refused (h.resolve_left hfirst)

theorem form (form : α → β) (hx : Gated m foreign a x) :
    Gated m foreign (form a) (x >>= fun a => pure (form a)) :=
  (hx.bind (f := fun a => pure (form a)) (.ok not_false)).congr (or_iff_left not_false)

theorem eachFrom {f : Path → α → Result β} {g : Path → β → Result α} {foreign : β → Prop} :
    ∀ {items : List α} {bs : List β} (index index' : Nat),
      (∀ a ∈ items, ∀ p p' b, f p a = .ok b → Gated m (foreign b) a (g p' b)) →
      eachFrom f path index items = .ok bs →
      Gated m (∃ b ∈ bs, foreign b) items (eachFrom g path' index' bs)
  | [], _, _, _, _, h => by
    cases h
    exact .ok (by simp)
  | a :: rest, _, index, index', hg, h => by
    simp only [Codec.eachFrom, bind_eq_ok_iff, pure_eq_ok_iff] at h
    obtain ⟨b, hb, bs, hbs, rfl⟩ := h
    have hhead := hg a List.mem_cons_self _ (.item path' index') b hb
    have htail := Gated.eachFrom (index + 1) (index' + 1)
      (fun c hc => hg c (List.mem_cons_of_mem _ hc)) hbs
    exact (hhead.bind (htail.form (a :: ·))).congr (List.exists_mem_cons_iff _ _ _).symm

/-- Lists are passed item by item. -/
theorem each {f : Path → α → Result β} {g : Path → β → Result α} {foreign : β → Prop}
    {items : List α} {bs : List β}
    (hg : ∀ a ∈ items, ∀ p p' b, f p a = .ok b → Gated m (foreign b) a (g p' b))
    (h : each f path items = .ok bs) : Gated m (∃ b ∈ bs, foreign b) items (each g path' bs) :=
  .eachFrom 0 0 hg h

end Gated

end Gates

/-- What is decoded for one network is encoded on another if there is no address in it. -/
def Crosses (n m : Network) (s : Schema) : Prop :=
  ∀ path path' d v, decodeAt n s path d = .ok v → Gated m v.HoldsAddress d (encodeAt m s path' v)

theorem crosses_primitive (hne : m ≠ n) (p : Primitive) : Crosses n m (.primitive p) := by
  intro path path' d v h
  by_cases hp : p = .address
  · subst hp
    simp only [decodeAt, Primitive.decode, bind_eq_ok_iff, Address.ofData_eq_ok_iff,
      pure_eq_ok_iff] at h
    obtain ⟨a, ⟨-, rfl, -⟩, rfl⟩ := h
    have hforeign : Address.ofValue m path' (.address a) = .error (.networkMismatch path' m) := by
      simp only [Address.ofValue, Address.given]
      exact if_pos hne.symm
    refine ⟨fun hfree => absurd (.address a) hfree, fun _ => ⟨path', ?_⟩⟩
    simp only [encodeAt, Primitive.encode, hforeign]
    rfl
  · have hfree : ¬ v.HoldsAddress :=
      Primitive.not_holdsAddress_of_canonical hp (Primitive.exists_decode_eq_iff.mp ⟨d, h⟩)
    have hback : encodeAt m (.primitive p) path' v = .ok d :=
      reversible_primitive p path path' d v ((Primitive.decode_network hp n m).trans h)
    rw [hback]
    exact .ok hfree

theorem encodeItems_gated (path' : Path) :
    ∀ {items : List Schema} {ds : List Data} {vs : List Value} (index index' : Nat),
      (∀ s ∈ items, Crosses n m s) → ds.length = items.length →
      decodeItems n items path index ds = .ok vs →
      vs.length = items.length ∧
        Gated m (∃ v ∈ vs, v.HoldsAddress) ds (encodeItems m items path' index' vs)
  | [], [], _, _, _, _, _, h => by
    cases h
    exact ⟨rfl, .ok (by simp)⟩
  | [], _ :: _, _, _, _, _, hlen, _ => by cases hlen
  | _ :: _, [], _, _, _, _, hlen, _ => by cases hlen
  | s :: items, d :: ds, vs, index, index', hcross, hlen, h => by
    simp only [decodeItems, bind_eq_ok_iff, pure_eq_ok_iff] at h
    obtain ⟨v, hv, ws, hws, rfl⟩ := h
    have hhead := hcross s List.mem_cons_self _ (.item path' index') d v hv
    obtain ⟨hcount, htail⟩ := encodeItems_gated path' (index + 1) (index' + 1)
      (fun t ht => hcross t (List.mem_cons_of_mem _ ht)) (Nat.succ.inj hlen) hws
    refine ⟨by rw [List.length_cons, List.length_cons, hcount], ?_⟩
    exact (hhead.bind (htail.form (d :: ·))).congr (List.exists_mem_cons_iff _ _ _).symm

/-- Fields are passed in the order in which they are declared.  `all` is the whole list of entries,
of which `entries` belong to the fields that are left. -/
theorem encodeNamed_gated (path' : Path) {all : List (String × Value)}
    (hnd : (all.map (·.1)).Nodup) :
    ∀ {fields : List (Field Schema)} {ds : List Data} {entries : List (String × Value)},
      (∀ f ∈ fields, Crosses n m f.type) → ds.length = fields.length →
      (∀ e ∈ entries, e ∈ all) → decodeFields n fields path ds = .ok entries →
      Gated m (∃ e ∈ entries, e.2.HoldsAddress) ds (encodeNamed m fields path' all)
  | [], [], _, _, _, _, h => by
    cases h
    exact .ok (by simp)
  | [], _ :: _, _, _, hlen, _, _ => by cases hlen
  | _ :: _, [], _, _, hlen, _, _ => by cases hlen
  | ⟨name, s⟩ :: fields, d :: ds, entries, hcross, hlen, hsub, h => by
    simp only [decodeFields, bind_eq_ok_iff, pure_eq_ok_iff] at h
    obtain ⟨v, hv, vs, hvs, rfl⟩ := h
    have hfound : Value.entry? name all = some v := entry?_of_mem hnd (hsub _ List.mem_cons_self)
    have hhead := hcross _ List.mem_cons_self _ (.field path' name) d v hv
    have htail := encodeNamed_gated path' hnd
      (fun f hf => hcross f (List.mem_cons_of_mem _ hf)) (Nat.succ.inj hlen)
      (fun e he => hsub e (List.mem_cons_of_mem _ he)) hvs
    simp only [encodeNamed, hfound]
    exact (hhead.bind (htail.form (d :: ·))).congr (List.exists_mem_cons_iff _ _ _).symm

/-- The fields of one record or variant, whose own check has succeeded. -/
theorem fromSource_gated (path' : Path) {fields : List (Field Schema)} {ds : List Data}
    {entries : List (String × Value)} (hnd : (fields.map (·.name)).Nodup)
    (hcross : ∀ f ∈ fields, Crosses n m f.type) (hlen : ds.length = fields.length)
    (h : decodeFields n fields path ds = .ok entries) :
    Gated m (∃ e ∈ entries, e.2.HoldsAddress) ds
      (fromSource fields path' (.named entries) (encodeNamed m fields path')
        (encodePositional m fields path')) := by
  have hnames := names_of_decodeFields hlen h
  simp only [fromSource, stray?_eq_none fun _ hmem => hnames ▸ hmem]
  exact encodeNamed_gated path' (hnames ▸ hnd) hcross hlen (fun _ he => he) h

theorem crosses_record {fields : List (Field Schema)} (hnd : (fields.map (·.name)).Nodup)
    (hcross : ∀ f ∈ fields, Crosses n m f.type) : Crosses n m (.record fields) := by
  intro path path' d v h
  have hmany : ∀ ds entries, ds.length = fields.length → collapse ds = d →
      decodeFields n fields path ds = .ok entries →
      Gated m (Value.record entries).HoldsAddress d
        (encodeAt m (.record fields) path' (.record entries)) := by
    intro ds entries hlen hcollapse hentries
    have henc := fromSource_gated path' hnd hcross hlen hentries
    rw [← hcollapse]
    exact (henc.form collapse).congr Value.holdsAddress_record_iff.symm
  match fields, hmany, h with
  | [⟨name, s⟩], hmany, h =>
    simp only [decodeAt, bind_eq_ok_iff, pure_eq_ok_iff] at h
    obtain ⟨w, hw, rfl⟩ := h
    refine hmany [d] _ rfl rfl ?_
    exact bind_eq_ok_iff.mpr ⟨w, hw, rfl⟩
  | [], hmany, h =>
    simp only [decodeAt, bind_eq_ok_iff, asListOf_eq_ok_iff, pure_eq_ok_iff] at h
    obtain ⟨ds, ⟨rfl, hlen⟩, entries, hentries, rfl⟩ := h
    exact hmany ds entries hlen (collapse_eq_list (by simp [hlen])) hentries
  | f :: g :: rest, hmany, h =>
    simp only [decodeAt, bind_eq_ok_iff, asListOf_eq_ok_iff, pure_eq_ok_iff] at h
    obtain ⟨ds, ⟨rfl, hlen⟩, entries, hentries, rfl⟩ := h
    exact hmany ds entries hlen (collapse_eq_list (by simp [hlen])) hentries

theorem crosses_enum {variants : List (Variant Schema)}
    (hcheck : Schema.checkVariants [] 0 variants = .ok ())
    (hcross : ∀ v ∈ variants, ∀ f ∈ v.fields, Crosses n m f.type) :
    Crosses n m (.enum variants) := by
  intro path path' d v h
  obtain ⟨hnd, -, htags, hfields⟩ := Schema.checkVariants_eq_ok_iff.mp hcheck
  simp only [decodeAt, bind_eq_ok_iff, Prod.exists, asConstr_eq_ok_iff,
    decodeVariant_eq_ok_iff] at h
  obtain ⟨tag, ds, ⟨rfl, hlen⟩, variant, entries, hat, hentries, rfl⟩ := h
  have hmem : variant ∈ variants := List.mem_of_getElem? hat
  have hlen : ds.length = variant.fields.length := by
    rw [List.getElem?_map, hat] at hlen
    exact (Option.some.inj hlen).symm
  have htag : variant.tag = tag := UInt64.toNat_inj.mp (by rw [htags _ _ hat, Nat.zero_add])
  obtain ⟨hfnd, -, -⟩ := Schema.checkFields_eq_ok_iff.mp (hfields variant hmem)
  have henc := fromSource_gated (.field path' variant.name) hfnd (hcross variant hmem) hlen
    hentries
  have hsame : encodeAt m (.enum variants) path' (.variant variant.name entries) =
      encodeVariant m variants path' variant.name (.named entries) := rfl
  rw [hsame, encodeVariant_eq, find?_name_of_getElem? hnd hat, ← htag]
  exact (henc.form (Data.constr variant.tag)).congr Value.holdsAddress_variant_iff.symm

/-- What a well-formed schema decodes for one network is encoded on another unless there is an
address in it. -/
theorem crosses_of_check (hne : m ≠ n) (s : Schema) (hs : s.check = .ok ()) : Crosses n m s := by
  refine Schema.induct_check (crosses_primitive hne) ?list ?map ?option ?tuple
    (fun _ => crosses_record) (fun _ => crosses_enum) s hs
  case list =>
    intro item hitem path path' d v h
    simp only [decodeAt, bind_eq_ok_iff, asList_eq_ok_iff, pure_eq_ok_iff] at h
    obtain ⟨ds, rfl, vs, hvs, rfl⟩ := h
    have hitems : Gated m (∃ v ∈ vs, v.HoldsAddress) ds (each (encodeAt m item) path' vs) :=
      .each (fun d _ p p' v => hitem p p' d v) hvs
    exact (hitems.form Data.list).congr Value.holdsAddress_list_iff.symm
  case map =>
    intro key value hkey hvalue path path' d v h
    simp only [decodeAt, bind_eq_ok_iff, asMap_eq_ok_iff, pure_eq_ok_iff] at h
    obtain ⟨ds, rfl, vs, hvs, rfl⟩ := h
    have hpair : ∀ pair ∈ ds, ∀ p p' w,
        decodePair (decodeAt n key) (decodeAt n value) p pair = .ok w →
        Gated m (w.1.HoldsAddress ∨ w.2.HoldsAddress) pair
          (keyAndValue (encodeAt m key) (encodeAt m value) p' w) := by
      rintro ⟨dk, dv⟩ - p p' w hw
      simp only [decodePair, bind_eq_ok_iff, pure_eq_ok_iff] at hw
      obtain ⟨k, hk, x, hx, rfl⟩ := hw
      exact (hkey _ _ _ _ hk).bind ((hvalue _ _ _ _ hx).form (dk, ·))
    have hpairs : Gated m (∃ w ∈ vs, w.1.HoldsAddress ∨ w.2.HoldsAddress) ds
        (each (keyAndValue (encodeAt m key) (encodeAt m value)) path' vs) := .each hpair hvs
    exact (hpairs.form Data.map).congr Value.holdsAddress_map_iff.symm
  case option =>
    intro inner hinner path path' d v h
    simp only [decodeAt, bind_eq_ok_iff, asOptional_eq_ok_iff] at h
    obtain ⟨o, rfl, h⟩ := h
    cases o with
    | none =>
      obtain rfl := pure_eq_ok_iff.mp h
      exact .ok (by rintro ⟨⟩)
    | some d =>
      simp only [bind_eq_ok_iff, pure_eq_ok_iff] at h
      obtain ⟨w, hw, rfl⟩ := h
      have hpart := hinner _ path' d w hw
      exact (hpart.form (optional ∘ some)).congr Value.holdsAddress_present_iff.symm
  case tuple =>
    intro items hitems path path' d v h
    simp only [decodeAt, bind_eq_ok_iff, asListOf_eq_ok_iff, pure_eq_ok_iff] at h
    obtain ⟨ds, ⟨rfl, hlen⟩, vs, hvs, rfl⟩ := h
    obtain ⟨hcount, henc⟩ := encodeItems_gated path' 0 0 hitems hlen hvs
    simp only [encodeAt, hcount, ne_eq, not_true_eq_false, if_false]
    exact (henc.form Data.list).congr Value.holdsAddress_list_iff.symm

/-! ## 5. Two networks -/

/-- **No address changes its network.**  A well-formed schema decodes data for one network exactly
if it does for another, and to the same value but for the network of the addresses, which is the
one that it was decoded for.  Encoded on the other network, a value that was decoded gives back its
data if there is no address in it, and is refused for its network otherwise. -/
theorem networks_exact {s : Schema} (hs : s.check = .ok ()) {n m : Network} (hne : m ≠ n)
    (d : Data) :
    decode m s d = (decode n s d).map (Value.onNetwork m) ∧
    ∀ v, decode n s d = .ok v →
      v.onNetwork n = v ∧
      (¬ v.HoldsAddress → encode m s v = .ok d) ∧
      (v.HoldsAddress → ∃ place, encode m s v = .error (.networkMismatch place m)) := by
  refine ⟨decodeAt_network n m s .top d, fun v hv => ?_⟩
  have hstamped : (Except.ok v : Result Value) = (Except.ok v).map (Value.onNetwork n) :=
    hv ▸ decodeAt_network n n s .top d
  have hgated := crosses_of_check hne s hs .top .top d v hv
  exact ⟨(Except.ok.inj hstamped).symm, hgated.passed, hgated.refused⟩

namespace Example

/-- The data of the offer, which does not tell whose network the seller is on. -/
def offerData : Data :=
  .constr 1
    [.constr 0 [.constr 0 [.bytes (List.replicate 28 7)],
        .constr 0 [.constr 1 [.int (.ofUInt64 1), .int (.ofUInt64 2), .int (.ofUInt64 3)]]],
      .list [.int .zero, .int (.ofUInt64 5)], .constr 1 []]

/-- An offer holds the address of its seller and does not cross; its end does. -/
theorem networks_exact_offer :
    offerSchema.check = .ok () ∧ Network.mainnet ≠ .testnet ∧
      decode .testnet offerSchema offerData = .ok offer ∧
      decode .mainnet offerSchema offerData = .ok (offer.onNetwork .mainnet) ∧
      (∃ place, encode .mainnet offerSchema offer = .error (.networkMismatch place .mainnet)) ∧
      encode .mainnet offerSchema (.variant "Close" []) = .ok (.constr 0 []) := by
  have hs : offerSchema.check = .ok () := rfl
  have hne : Network.mainnet ≠ .testnet := by decide
  have hoffer : decode .testnet offerSchema offerData = .ok offer := rfl
  have hclose : decode .testnet offerSchema (.constr 0 []) = .ok (.variant "Close" []) := rfl
  have hholds : offer.HoldsAddress := .part List.mem_cons_self (.address _)
  have hfree : ¬ (Value.variant "Close" []).HoldsAddress := by simp
  obtain ⟨hdecode, hencode⟩ := networks_exact hs hne offerData
  obtain ⟨-, hend⟩ := networks_exact hs hne (.constr 0 [])
  refine ⟨hs, hne, hoffer, ?_, (hencode offer hoffer).2.2 hholds, (hend _ hclose).2.1 hfree⟩
  rw [hdecode, hoffer]
  rfl

end Example

end Codec

end ScriptBundle

/-
# What is encoded can be decoded

Encoding takes many values for the same data: hexadecimal text for bytes, decimal text for integers,
fields by position or by name, an option's content without the option around it, an amount alone for
assets.  Decoding takes one shape of data and refuses every other one.  Here the two meet: whatever
form a plain value comes in, the data made of it has the shape that the schema describes
(`conforming_of_check`), so it is decoded, and the value that comes out is encoded as the same data
again (`decode_encoded`).

The schema has to be well formed for one reason only: the tag that the encoder writes for a variant
is the one that the variant carries, and the decoder takes it for a position (`conforming_enum`).
-/
import ScriptBundle.Proofs.Codec.Plain

namespace ScriptBundle

open Codec Data

variable {network : Network} {path : Path} {v : Value} {d : Data}

namespace Codec

/-! ## 1. Items and fields -/

/-- What is encoded under a schema from a plain value has the schema's shape. -/
def Conforming (network : Network) (s : Schema) : Prop :=
  ∀ path v d, v.Plain → encodeAt network s path v = .ok d → s.Conforms d

theorem conforms_of_encodeItems :
    ∀ {items : List Schema} {vs : List Value} {ds : List Data} (index : Nat),
      (∀ s ∈ items, Conforming network s) → (∀ v ∈ vs, v.Plain) → vs.length = items.length →
      encodeItems network items path index vs = .ok ds →
      ds.length = items.length ∧ ∀ p ∈ items.zip ds, p.1.Conforms p.2
  | [], [], _, _, _, _, _, h => by cases h; exact ⟨rfl, List.forall_mem_nil _⟩
  | [], _ :: _, _, _, _, _, hlen, _ => by cases hlen
  | _ :: _, [], _, _, _, _, hlen, _ => by cases hlen
  | s :: items, v :: vs, _, index, hitems, hvs, hlen, h => by
    simp only [encodeItems, bind_eq_ok_iff, pure_eq_ok_iff] at h
    obtain ⟨d, hd, ds, hds, rfl⟩ := h
    rw [List.forall_mem_cons] at hitems hvs
    obtain ⟨hcount, hrest⟩ :=
      conforms_of_encodeItems (index + 1) hitems.2 hvs.2 (Nat.succ.inj hlen) hds
    refine ⟨congrArg Nat.succ hcount, ?_⟩
    rw [List.zip_cons_cons, List.forall_mem_cons]
    exact ⟨hitems.1 _ v d hvs.1 hd, hrest⟩

/-- Data for every field, in order, of the shape of the field. -/
def FieldsConform (fields : List (Field Schema)) (ds : List Data) : Prop :=
  ds.length = fields.length ∧ ∀ p ∈ fields.zip ds, p.1.type.Conforms p.2

theorem FieldsConform.nil : FieldsConform [] [] := ⟨rfl, List.forall_mem_nil _⟩

theorem FieldsConform.cons {f : Field Schema} {fields : List (Field Schema)} {d : Data}
    {ds : List Data} (hd : f.type.Conforms d) (hds : FieldsConform fields ds) :
    FieldsConform (f :: fields) (d :: ds) := by
  refine ⟨congrArg Nat.succ hds.1, ?_⟩
  rw [List.zip_cons_cons, List.forall_mem_cons]
  exact ⟨hd, hds.2⟩

theorem conforms_of_encodePositional :
    ∀ {fields : List (Field Schema)} {vs : List Value} {ds : List Data},
      (∀ f ∈ fields, Conforming network f.type) → (∀ v ∈ vs, v.Plain) →
      vs.length = fields.length → encodePositional network fields path vs = .ok ds →
      FieldsConform fields ds
  | [], [], _, _, _, _, h => by cases h; exact .nil
  | [], _ :: _, _, _, _, hlen, _ => by cases hlen
  | _ :: _, [], _, _, _, hlen, _ => by cases hlen
  | f :: fields, v :: vs, _, hfields, hvs, hlen, h => by
    simp only [encodePositional, bind_eq_ok_iff, pure_eq_ok_iff] at h
    obtain ⟨d, hd, ds, hds, rfl⟩ := h
    rw [List.forall_mem_cons] at hfields hvs
    exact .cons (hfields.1 _ v d hvs.1 hd)
      (conforms_of_encodePositional hfields.2 hvs.2 (Nat.succ.inj hlen) hds)

theorem plain_of_found {entries : List (String × Value)} {name : String}
    (hentries : ∀ e ∈ entries, e.2.Plain) (h : Value.entry? name entries = some v) : v.Plain := by
  simp only [Value.entry?, Option.map_eq_some_iff] at h
  obtain ⟨e, he, rfl⟩ := h
  exact hentries e (List.mem_of_find?_eq_some he)

/-- A field without an entry is an option, and absent. -/
theorem conforms_of_encodeNamed {fields : List (Field Schema)} {entries : List (String × Value)}
    {ds : List Data} (hfields : ∀ f ∈ fields, Conforming network f.type)
    (hentries : ∀ e ∈ entries, e.2.Plain) (h : encodeNamed network fields path entries = .ok ds) :
    FieldsConform fields ds := by
  induction fields generalizing ds with
  | nil => cases h; exact .nil
  | cons f fields ih =>
    obtain ⟨name, s⟩ := f
    rw [List.forall_mem_cons] at hfields
    simp only [encodeNamed] at h
    split at h
    · rename_i v hv
      simp only [bind_eq_ok_iff, pure_eq_ok_iff] at h
      obtain ⟨d, hd, ds, hds, rfl⟩ := h
      exact .cons (hfields.1 _ v d (plain_of_found hentries hv) hd) (ih hfields.2 hds)
    · split at h
      · simp only [bind_eq_ok_iff, pure_eq_ok_iff] at h
        obtain ⟨_, ⟨⟩, ds, hds, rfl⟩ := h
        exact .cons .absent (ih hfields.2 hds)
      · cases h

/-- What a source supplies is plain. -/
def Source.Plain : Source → Prop
  | .named entries => ∀ e ∈ entries, e.2.Plain
  | .positional values => ∀ v ∈ values, v.Plain

theorem conforms_of_fromSource {fields : List (Field Schema)} {source : Source} {ds : List Data}
    (place : Path) (hfields : ∀ f ∈ fields, Conforming network f.type) (hsource : source.Plain)
    (h : fromSource fields place source (encodeNamed network fields path)
      (encodePositional network fields path) = .ok ds) : FieldsConform fields ds := by
  unfold fromSource at h
  split at h
  · split at h
    · cases h
    · rename_i hlen
      exact conforms_of_encodePositional hfields hsource (Decidable.not_not.mp hlen) h
  · split at h
    · cases h
    · exact conforms_of_encodeNamed hfields hsource h

theorem plain_of_recordSource {fields : List (Field Schema)} {source : Source} (hv : v.Plain)
    (h : recordSource path fields v = .ok source) : source.Plain := by
  cases hv with
  | list hvs => cases h; exact hvs
  | record hentries => cases h; exact hentries
  | _ => cases h

theorem plain_of_variantSource {variants : List (Variant Schema)} {name : String}
    {source : Source} (hv : v.Plain) (h : variantSource path variants v = .ok (name, source)) :
    source.Plain := by
  unfold variantSource at h
  split at h
  · cases h
    cases hv with
    | variant _ hentries => exact hentries
  · cases h
    exact List.forall_mem_nil _
  · cases h
    cases hv with
    | record hentries =>
      cases List.forall_mem_singleton.mp hentries with
      | record hfields => exact hfields
  · cases h
    cases hv with
    | record hentries =>
      cases List.forall_mem_singleton.mp hentries with
      | list hvs => exact hvs
  · cases h
  · cases h

/-! ## 2. Maps -/

section Maps

variable {key value : Schema} (hkey : Conforming network key) (hvalue : Conforming network value)
include hkey hvalue

theorem conforms_of_keyAndValue {p : Value × Value} {e : Data × Data} (hp : p.1.Plain ∧ p.2.Plain)
    (h : keyAndValue (encodeAt network key) (encodeAt network value) path p = .ok e) :
    key.Conforms e.1 ∧ value.Conforms e.2 := by
  simp only [keyAndValue, bind_eq_ok_iff, pure_eq_ok_iff] at h
  obtain ⟨k, hk, x, hx, rfl⟩ := h
  exact ⟨hkey _ _ k hp.1 hk, hvalue _ _ x hp.2 hx⟩

theorem conforms_of_listedPair {e : Data × Data} (hv : v.Plain)
    (h : listedPair (encodeAt network key) (encodeAt network value) path v = .ok e) :
    key.Conforms e.1 ∧ value.Conforms e.2 := by
  unfold listedPair at h
  split at h
  · cases hv with
    | list hvs =>
      simp only [List.forall_mem_cons] at hvs
      exact conforms_of_keyAndValue hkey hvalue ⟨hvs.1, hvs.2.1⟩ h
  · cases h

/-- The names of a record are texts, and so plain keys. -/
theorem conforms_of_namedPairs {entries : List (String × Value)} {pairs : List (Data × Data)}
    (hentries : ∀ e ∈ entries, e.2.Plain)
    (h : namedPairs (encodeAt network key) (encodeAt network value) path entries = .ok pairs) :
    ∀ p ∈ pairs, key.Conforms p.1 ∧ value.Conforms p.2 := by
  induction entries generalizing pairs with
  | nil => cases h; exact List.forall_mem_nil _
  | cons e rest ih =>
    obtain ⟨name, x⟩ := e
    simp only [namedPairs, bind_eq_ok_iff, pure_eq_ok_iff] at h
    obtain ⟨p, hp, ps, hps, rfl⟩ := h
    rw [List.forall_mem_cons] at hentries
    exact List.forall_mem_cons.mpr
      ⟨conforms_of_keyAndValue hkey hvalue ⟨.text name, hentries.1⟩ hp, ih hentries.2 hps⟩

theorem conforms_of_encodeMap {expected : Expected} (hv : v.Plain)
    (h : encodeMap (encodeAt network key) (encodeAt network value) path expected v = .ok d) :
    (Schema.map key value).Conforms d := by
  have hpairs : ∃ pairs, d = .map pairs ∧ ∀ p ∈ pairs, key.Conforms p.1 ∧ value.Conforms p.2 := by
    cases hv with
    | map hkeys hvalues =>
      simp only [encodeMap, bind_eq_ok_iff, pure_eq_ok_iff] at h
      obtain ⟨pairs, hpairs, rfl⟩ := h
      refine ⟨pairs, rfl, forall_of_each (fun p hp _ _ => ?_) hpairs⟩
      exact conforms_of_keyAndValue hkey hvalue ⟨hkeys p hp, hvalues p hp⟩
    | list hvs =>
      simp only [encodeMap, bind_eq_ok_iff, pure_eq_ok_iff] at h
      obtain ⟨pairs, hpairs, rfl⟩ := h
      refine ⟨pairs, rfl, forall_of_each (fun v hmem _ _ => ?_) hpairs⟩
      exact conforms_of_listedPair hkey hvalue (hvs v hmem)
    | record hentries =>
      simp only [encodeMap, bind_eq_ok_iff, pure_eq_ok_iff] at h
      obtain ⟨pairs, hpairs, rfl⟩ := h
      exact ⟨pairs, rfl, conforms_of_namedPairs hkey hvalue hentries hpairs⟩
    | _ => cases h
  obtain ⟨pairs, rfl, hpairs⟩ := hpairs
  exact .map (fun p hp => (hpairs p hp).1) fun p hp => (hpairs p hp).2

end Maps

/-! ## 3. Schemas -/

theorem conforming_primitive (p : Primitive) : Conforming network (.primitive p) := by
  intro path v d hv h
  cases v with
  | data d' => cases hv
  | _ => exact .primitive (Primitive.conforms_of_encode hv h)

theorem conforming_list {item : Schema} (hitem : Conforming network item) :
    Conforming network (.list item) := by
  intro path v d hv h
  cases hv with
  | list hvs =>
    simp only [encodeAt, bind_eq_ok_iff, pure_eq_ok_iff] at h
    obtain ⟨ds, hds, rfl⟩ := h
    exact .list (forall_of_each (fun v hmem p d => hitem p v d (hvs v hmem)) hds)
  | _ => cases h

theorem conforming_map {key value : Schema} (hkey : Conforming network key)
    (hvalue : Conforming network value) : Conforming network (.map key value) := by
  intro path v d hv h
  cases v with
  | data d' => cases hv
  | _ => exact conforms_of_encodeMap hkey hvalue hv h

/-- Present, absent, or the content of an option that is present. -/
theorem conforming_option {inner : Schema} (hinner : Conforming network inner) :
    Conforming network (.option inner) := by
  intro path v d hv h
  have hpresent {w : Value} (hw : w.Plain)
      (h : (encodeAt network inner path w >>= fun d => pure (optional (some d))) = .ok d) :
      (Schema.option inner).Conforms d := by
    simp only [bind_eq_ok_iff, pure_eq_ok_iff] at h
    obtain ⟨e, he, rfl⟩ := h
    exact .present (hinner path w e hw he)
  cases v with
  | data d' => cases hv
  | absent => cases h; exact .absent
  | present w =>
    cases hv with
    | present hw => exact hpresent hw h
  | _ => exact hpresent hv h

theorem conforming_tuple {items : List Schema} (hitems : ∀ s ∈ items, Conforming network s) :
    Conforming network (.tuple items) := by
  intro path v d hv h
  cases hv with
  | list hvs =>
    simp only [encodeAt] at h
    split at h
    · cases h
    · rename_i hlen
      simp only [bind_eq_ok_iff, pure_eq_ok_iff] at h
      obtain ⟨ds, hds, rfl⟩ := h
      obtain ⟨hcount, hshape⟩ :=
        conforms_of_encodeItems 0 hitems hvs (Decidable.not_not.mp hlen) hds
      exact .tuple hcount hshape
  | _ => cases h

/-- One field is left bare and any other number of them is a list, on both sides. -/
theorem conforms_collapse {fields : List (Field Schema)} {ds : List Data}
    (h : FieldsConform fields ds) : (Schema.record fields).Conforms (collapse ds) := by
  obtain ⟨hlen, hshape⟩ := h
  by_cases hone : ds.length = 1
  · obtain ⟨d, rfl⟩ := List.length_eq_one_iff.mp hone
    obtain ⟨f, rfl⟩ := List.length_eq_one_iff.mp hlen.symm
    exact .bare (hshape (f, d) (List.mem_singleton_self _))
  · rw [collapse_eq_list hone]
    exact .record (hlen ▸ hone) hlen hshape

theorem conforming_record {fields : List (Field Schema)}
    (hfields : ∀ f ∈ fields, Conforming network f.type) : Conforming network (.record fields) := by
  intro path v d hv h
  have hdata : (recordSource path fields v >>= fun source =>
      fromSource fields path source (encodeNamed network fields path)
        (encodePositional network fields path) >>= fun ds => pure (collapse ds)) = .ok d := by
    cases v with
    | data d' => cases hv
    | _ => exact h
  simp only [bind_eq_ok_iff, pure_eq_ok_iff] at hdata
  obtain ⟨source, hsource, ds, hds, rfl⟩ := hdata
  exact conforms_collapse
    (conforms_of_fromSource path hfields (plain_of_recordSource hv hsource) hds)

/-- **The tag that is written is the position that is read.** -/
theorem conforming_enum {variants : List (Variant Schema)}
    (hcheck : Schema.checkVariants [] 0 variants = .ok ())
    (hvariants : ∀ v ∈ variants, ∀ f ∈ v.fields, Conforming network f.type) :
    Conforming network (.enum variants) := by
  intro path v d hv h
  obtain ⟨-, -, htags, -⟩ := Schema.checkVariants_eq_ok_iff.mp hcheck
  have hdata : (variantSource path variants v >>= fun named =>
      encodeVariant network variants path named.1 named.2) = .ok d := by
    cases v with
    | data d' => cases hv
    | _ => exact h
  simp only [bind_eq_ok_iff, Prod.exists, encodeVariant_eq] at hdata
  obtain ⟨name, source, hsource, hdata⟩ := hdata
  split at hdata
  · cases hdata
  · rename_i variant hfound
    simp only [bind_eq_ok_iff, pure_eq_ok_iff] at hdata
    obtain ⟨ds, hds, rfl⟩ := hdata
    obtain ⟨position, hat⟩ := List.mem_iff_getElem?.mp (List.mem_of_find?_eq_some hfound)
    obtain ⟨hlen, hshape⟩ := conforms_of_fromSource _
      (hvariants variant (List.mem_of_getElem? hat)) (plain_of_variantSource hv hsource) hds
    have htag : variant.tag.toNat = position := by rw [htags _ _ hat, Nat.zero_add]
    exact .enum (by rw [htag]; exact hat) hlen hshape

/-- A well-formed schema makes data of its own shape from every plain value that it takes. -/
theorem conforming_of_check (s : Schema) (hs : s.check = .ok ()) : Conforming network s :=
  Schema.induct_check conforming_primitive (fun _ => conforming_list) (fun _ _ => conforming_map)
    (fun _ => conforming_option) (fun _ => conforming_tuple) (fun _ _ => conforming_record)
    (fun _ => conforming_enum) s hs

/-- **What is encoded can be decoded.**  Whatever data a well-formed schema makes of a plain value
on a network has the shape that the schema describes; the schema decodes that data there, and it
encodes what it has decoded as that data again. -/
theorem decode_encoded {network : Network} {s : Schema} {v : Value} {d : Data}
    (hs : s.check = .ok ()) (hv : v.Plain) (h : encode network s v = .ok d) :
    s.Conforms d ∧ ∃ v', decode network s d = .ok v' ∧ encode network s v' = .ok d := by
  have hshape : s.Conforms d := conforming_of_check s hs .top v d hv h
  obtain ⟨v', hv'⟩ := (succeedsIff_decodeAt network s d .top).mpr hshape
  exact ⟨hshape, v', hv', reversible_of_check s hs .top .top d v' hv'⟩

namespace Example

def orderSchema : Schema :=
  .record [⟨"owner", .primitive .pubKeyHash⟩, ⟨"price", .primitive .ratio⟩,
    ⟨"deposit", .primitive .value⟩, ⟨"memo", .option (.primitive .string)⟩,
    ⟨"action", .enum [⟨"Close", 0, []⟩, ⟨"Bid", 1, [⟨"bidder", .primitive .address⟩]⟩]⟩]

/-- An order in other forms than those that come out: fields by position, a hash as text, a ratio as
a list of texts, an amount alone, a bare option, a variant as a record, an address as bytes. -/
def looseOrder : Value :=
  .list [.text (String.ofList (List.replicate 56 'a')), .list [.text " 3", .text "+4 "],
    .int .zero, .text "soon",
    .record [("Bid", .list [.bytes (0x60 :: List.replicate 28 0xbb)])]]

theorem plain_looseOrder : looseOrder.Plain := by
  have hprice : (Value.list [.text " 3", .text "+4 "]).Plain :=
    .list (List.forall_mem_cons.mpr ⟨.text _, List.forall_mem_singleton.mpr (.text _)⟩)
  have haction : (Value.record [("Bid", .list [.bytes (0x60 :: List.replicate 28 0xbb)])]).Plain :=
    .record (List.forall_mem_singleton.mpr (.list (List.forall_mem_singleton.mpr (.bytes _))))
  refine .list ?_
  simp only [List.forall_mem_cons]
  exact ⟨.text _, hprice, .int _, .text _, haction, List.forall_mem_nil _⟩

def orderData : Data :=
  .list [.bytes (List.replicate 28 0xaa), .list [.int (.ofUInt64 3), .int (.ofUInt64 4)],
    .map [(.bytes [], .map [(.bytes [], .int .zero)])], .constr 0 [.bytes (Bytes.ofText "soon")],
    .constr 1 [.constr 0 [.constr 0 [.bytes (List.replicate 28 0xbb)], .constr 1 []]]]

theorem decode_encoded_order :
    orderSchema.check = .ok () ∧ looseOrder.Plain ∧
      encode .testnet orderSchema looseOrder = .ok orderData ∧ orderSchema.Conforms orderData ∧
      ∃ v, decode .testnet orderSchema orderData = .ok v ∧
        encode .testnet orderSchema v = .ok orderData :=
  ⟨rfl, plain_looseOrder, rfl, decode_encoded (v := looseOrder) rfl plain_looseOrder rfl⟩

end Example

end Codec

end ScriptBundle

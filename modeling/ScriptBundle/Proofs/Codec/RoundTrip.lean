/-
# Encoding undoes decoding

What is decoded from data under a well-formed schema is encoded back as that data
(`encode_decoded`), so a program's data can be shown, kept and sent back without loss.

The decoder and the encoder walk the schema differently in two places, and both need the schema to
be well formed.

* **Fields.**  The decoder pairs fields with data by position; the encoder looks every field up by
  name among the entries.  The two agree because the names of the fields are distinct
  (`encodeNamed_decoded`).
* **Variants.**  The decoder takes the variant at the position that the tag states; the encoder
  takes the first variant of the name and writes the tag that it carries.  The two agree because
  names are distinct and every tag is its position (`encodeVariant_eq`, `decodeVariant_eq_ok_iff`).

A record of one field is not wrapped on either side, and data that stands for itself is passed on
before the schema is looked at.  The induction is on the schema (`Schema.induct_check`); the place
that either side is told about is arbitrary throughout, since only complaints mention it.
-/
import Mathlib.Data.List.Nodup
import ScriptBundle.Codec
import ScriptBundle.Proofs.Codec.Primitive
import ScriptBundle.Proofs.Schema.WellFormed

namespace ScriptBundle.Codec

open Schema

variable {network : Network} {path path' : Path}

/-- Whatever is decoded under a schema is encoded back, wherever either happens. -/
def Reversible (network : Network) (s : Schema) : Prop :=
  ∀ path path' d v, decodeAt network s path d = .ok v → encodeAt network s path' v = .ok d

/-! ## 1. Fields by position and by name -/

/-- The decoder gives every field its name, in order. -/
theorem names_of_decodeFields {fields : List (Field Schema)} {ds : List Data}
    {entries : List (String × Value)} (hlen : ds.length = fields.length)
    (h : decodeFields network fields path ds = .ok entries) :
    entries.map (·.1) = fields.map (·.name) := by
  induction fields generalizing ds entries with
  | nil => cases h; rfl
  | cons f fields ih =>
    cases ds with
    | nil => cases hlen
    | cons d ds =>
      simp only [decodeFields, bind_eq_ok_iff, pure_eq_ok_iff] at h
      obtain ⟨v, -, vs, hvs, rfl⟩ := h
      rw [List.map_cons, List.map_cons, ih (Nat.succ.inj hlen) hvs]

/-- An entry is found under its name if no other entry has it. -/
theorem entry?_of_mem {entries : List (String × Value)} (hnd : (entries.map (·.1)).Nodup)
    {name : String} {v : Value} (h : (name, v) ∈ entries) :
    Value.entry? name entries = some v := by
  induction entries with
  | nil => cases h
  | cons e rest ih =>
    simp only [List.map_cons, List.nodup_cons] at hnd
    rcases List.mem_cons.mp h with rfl | hrest
    · simp [Value.entry?]
    · have hne : e.1 ≠ name := fun heq => hnd.1 (heq ▸ List.mem_map_of_mem hrest)
      have hskip : Value.entry? name (e :: rest) = Value.entry? name rest := by
        simp [Value.entry?, hne]
      rw [hskip, ih hnd.2 hrest]

/-- Entries of the fields alone leave no stray one. -/
theorem stray?_eq_none {fields : List (Field Schema)} {entries : List (String × Value)}
    (hnames : entries.map (·.1) ⊆ fields.map (·.name)) : stray? fields entries = none := by
  simp only [stray?, Option.map_eq_none_iff, List.find?_eq_none]
  intro e he
  have hmem : e.1 ∈ fields.map (·.name) := hnames (List.mem_map_of_mem he)
  obtain ⟨f, hf, heq⟩ := List.mem_map.mp hmem
  simp only [List.all_eq_true, decide_eq_true_eq, not_forall, not_not]
  exact ⟨f, hf, heq⟩

/-- **Fields that were decoded by position are found by name.**  `all` is the whole list of
entries, of which `entries` belong to the fields that are left. -/
theorem encodeNamed_decoded {all : List (String × Value)} (hnd : (all.map (·.1)).Nodup) :
    ∀ {fields : List (Field Schema)} {ds : List Data} {entries : List (String × Value)},
      (∀ f ∈ fields, Reversible network f.type) → ds.length = fields.length →
      (∀ e ∈ entries, e ∈ all) → decodeFields network fields path ds = .ok entries →
      encodeNamed network fields path' all = .ok ds
  | [], [], _, _, _, _, _ => rfl
  | [], _ :: _, _, _, hlen, _, _ => by cases hlen
  | _ :: _, [], _, _, hlen, _, _ => by cases hlen
  | ⟨name, s⟩ :: fields, d :: ds, entries, hrev, hlen, hsub, h => by
    simp only [decodeFields, bind_eq_ok_iff, pure_eq_ok_iff] at h
    obtain ⟨v, hv, vs, hvs, rfl⟩ := h
    have hfound : Value.entry? name all = some v :=
      entry?_of_mem hnd (hsub _ List.mem_cons_self)
    have hhead : encodeAt network s (.field path' name) v = .ok d :=
      hrev _ List.mem_cons_self _ _ d v hv
    have htail : encodeNamed network fields path' all = .ok ds :=
      encodeNamed_decoded hnd (fun f hf => hrev f (List.mem_cons_of_mem _ hf))
        (Nat.succ.inj hlen) (fun e he => hsub e (List.mem_cons_of_mem _ he)) hvs
    simp only [encodeNamed, hfound, bind_eq_ok_iff, pure_eq_ok_iff]
    exact ⟨d, hhead, ds, htail, rfl⟩

/-- The fields of one record or variant, whose own check has succeeded. -/
theorem fromSource_decoded (path' : Path) {fields : List (Field Schema)} {ds : List Data}
    {entries : List (String × Value)} (hnd : (fields.map (·.name)).Nodup)
    (hrev : ∀ f ∈ fields, Reversible network f.type) (hlen : ds.length = fields.length)
    (h : decodeFields network fields path ds = .ok entries) :
    fromSource fields path' (.named entries) (encodeNamed network fields path')
      (encodePositional network fields path') = .ok ds := by
  have hnames := names_of_decodeFields hlen h
  simp only [fromSource, stray?_eq_none fun _ hmem => hnames ▸ hmem]
  exact encodeNamed_decoded (hnames ▸ hnd) hrev hlen (fun _ he => he) h

/-! ## 2. Variants by position and by name -/

/-- The decoder takes the variant at the position. -/
theorem decodeVariant_eq_ok_iff {variants : List (Variant Schema)} {position : Nat}
    {ds : List Data} {v : Value} :
    decodeVariant network variants path position ds = .ok v ↔
      ∃ variant entries, variants[position]? = some variant ∧
        decodeFields network variant.fields (.field path variant.name) ds = .ok entries ∧
        v = .variant variant.name entries := by
  induction variants generalizing position with
  | nil => simp [decodeVariant]
  | cons first rest ih =>
    obtain ⟨name, tag, fields⟩ := first
    cases position with
    | zero =>
      simp only [decodeVariant, bind_eq_ok_iff, pure_eq_ok_iff, List.getElem?_cons_zero,
        Option.some.injEq, exists_and_left, exists_eq_left']
      exact ⟨fun ⟨entries, h, heq⟩ => ⟨entries, h, heq.symm⟩,
        fun ⟨entries, h, heq⟩ => ⟨entries, h, heq.symm⟩⟩
    | succ position => simp only [decodeVariant, ih, List.getElem?_cons_succ]

/-- The encoder takes the first variant of the name. -/
theorem encodeVariant_eq {variants : List (Variant Schema)} {name : String} {source : Source} :
    encodeVariant network variants path name source =
      match variants.find? (·.name = name) with
      | none => .error (.unknownVariant path name)
      | some v => do
        let encoded ← fromSource v.fields (.field path name) source
          (encodeNamed network v.fields (.field path name))
          (encodePositional network v.fields (.field path name))
        return .constr v.tag encoded := by
  induction variants with
  | nil => rfl
  | cons first rest ih =>
    obtain ⟨n, tag, fields⟩ := first
    by_cases h : n = name
    · simp [encodeVariant, h]
    · simp [encodeVariant, h, ih]

/-- A variant is found under its name if no other variant has it. -/
theorem find?_name_of_getElem? {variants : List (Variant Schema)}
    (hnd : (variants.map (·.name)).Nodup) {position : Nat} {v : Variant Schema}
    (h : variants[position]? = some v) : variants.find? (·.name = v.name) = some v := by
  induction variants generalizing position with
  | nil => cases h
  | cons first rest ih =>
    simp only [List.map_cons, List.nodup_cons] at hnd
    cases position with
    | zero => cases h; simp
    | succ position =>
      rw [List.getElem?_cons_succ] at h
      have hmem : v.name ∈ rest.map (·.name) := List.mem_map_of_mem (List.mem_of_getElem? h)
      have hne : first.name ≠ v.name := fun heq => hnd.1 (heq ▸ hmem)
      rw [List.find?_cons_of_neg (by simpa using hne), ih hnd.2 h]

/-! ## 3. The shapes one by one -/

theorem encodeItems_decoded (path' : Path) :
    ∀ {items : List Schema} {ds : List Data} {vs : List Value} (index index' : Nat),
      (∀ s ∈ items, Reversible network s) → ds.length = items.length →
      decodeItems network items path index ds = .ok vs →
      vs.length = items.length ∧ encodeItems network items path' index' vs = .ok ds
  | [], [], _, _, _, _, _, h => by cases h; exact ⟨rfl, rfl⟩
  | [], _ :: _, _, _, _, _, hlen, _ => by cases hlen
  | _ :: _, [], _, _, _, _, hlen, _ => by cases hlen
  | s :: items, d :: ds, vs, index, index', hrev, hlen, h => by
    simp only [decodeItems, bind_eq_ok_iff, pure_eq_ok_iff] at h
    obtain ⟨v, hv, ws, hws, rfl⟩ := h
    obtain ⟨hcount, htail⟩ := encodeItems_decoded path' (index + 1) (index' + 1)
      (fun x hx => hrev x (List.mem_cons_of_mem _ hx)) (Nat.succ.inj hlen) hws
    refine ⟨by rw [List.length_cons, List.length_cons, hcount], ?_⟩
    simp only [encodeItems, bind_eq_ok_iff, pure_eq_ok_iff]
    exact ⟨d, hrev s List.mem_cons_self _ _ d v hv, ds, htail, rfl⟩

/-- No rule of a primitive takes bare data, so passing it on takes nothing from any of them. -/
theorem encode_data_ne_ok (p : Primitive) (d d' : Data) :
    p.encode network path (.data d') ≠ .ok d := by
  cases p <;> intro h <;> cases h

/-- What the rule of a primitive makes of a value is what the value is encoded as. -/
theorem encodeAt_primitive {p : Primitive} {v : Value} {d : Data}
    (h : p.encode network path v = .ok d) : encodeAt network (.primitive p) path v = .ok d := by
  cases v with
  | data d' => exact absurd h (encode_data_ne_ok p d d')
  | _ => exact h

theorem reversible_primitive (p : Primitive) : Reversible network (.primitive p) := by
  intro path path' d v h
  by_cases hp : p = .data
  · subst hp
    cases h
    rfl
  · exact encodeAt_primitive (Primitive.encode_of_decode hp h)

theorem reversible_list {item : Schema} (hitem : Reversible network item) :
    Reversible network (.list item) := by
  intro path path' d v h
  simp only [decodeAt, bind_eq_ok_iff, asList_eq_ok_iff, pure_eq_ok_iff] at h
  obtain ⟨ds, rfl, vs, hvs, rfl⟩ := h
  have hitems : each (encodeAt network item) path' vs = .ok ds :=
    each_of_each (fun d _ p p' v => hitem p p' d v) hvs
  exact bind_eq_ok_iff.mpr ⟨ds, hitems, rfl⟩

theorem reversible_map {key value : Schema} (hkey : Reversible network key)
    (hvalue : Reversible network value) : Reversible network (.map key value) := by
  intro path path' d v h
  simp only [decodeAt, bind_eq_ok_iff, asMap_eq_ok_iff, pure_eq_ok_iff] at h
  obtain ⟨ds, rfl, vs, hvs, rfl⟩ := h
  have hpair : ∀ pair ∈ ds, ∀ p p' w,
      decodePair (decodeAt network key) (decodeAt network value) p pair = .ok w →
      keyAndValue (encodeAt network key) (encodeAt network value) p' w = .ok pair := by
    rintro ⟨dk, dv⟩ - p p' w hw
    simp only [decodePair, bind_eq_ok_iff, pure_eq_ok_iff] at hw
    obtain ⟨k, hk, x, hx, rfl⟩ := hw
    refine bind_eq_ok_iff.mpr ⟨dk, hkey _ _ _ _ hk, ?_⟩
    exact bind_eq_ok_iff.mpr ⟨dv, hvalue _ _ _ _ hx, rfl⟩
  exact bind_eq_ok_iff.mpr ⟨ds, each_of_each hpair hvs, rfl⟩

/-- An option is always decoded as one, so the encoder never has to guess. -/
theorem reversible_option {inner : Schema} (hinner : Reversible network inner) :
    Reversible network (.option inner) := by
  intro path path' d v h
  simp only [decodeAt, bind_eq_ok_iff, asOptional_eq_ok_iff] at h
  obtain ⟨o, rfl, h⟩ := h
  cases o with
  | none =>
    obtain rfl := pure_eq_ok_iff.mp h
    rfl
  | some d =>
    simp only [bind_eq_ok_iff, pure_eq_ok_iff] at h
    obtain ⟨w, hw, rfl⟩ := h
    exact bind_eq_ok_iff.mpr ⟨d, hinner _ _ _ _ hw, rfl⟩

theorem reversible_tuple {items : List Schema} (hitems : ∀ s ∈ items, Reversible network s) :
    Reversible network (.tuple items) := by
  intro path path' d v h
  simp only [decodeAt, bind_eq_ok_iff, asListOf_eq_ok_iff, pure_eq_ok_iff] at h
  obtain ⟨ds, ⟨rfl, hlen⟩, vs, hvs, rfl⟩ := h
  obtain ⟨hcount, henc⟩ := encodeItems_decoded path' 0 0 hitems hlen hvs
  simp only [encodeAt, hcount, ne_eq, not_true_eq_false, if_false]
  exact bind_eq_ok_iff.mpr ⟨ds, henc, rfl⟩

theorem collapse_eq_list {ds : List Data} (hlen : ds.length ≠ 1) : collapse ds = .list ds := by
  match ds, hlen with
  | [], _ => rfl
  | [_], hlen => exact absurd rfl hlen
  | _ :: _ :: _, _ => rfl

/-- **One field or many.**  The decoder looks at the fields and the encoder at what it has encoded;
both leave out the list exactly when there is one field. -/
theorem reversible_record {fields : List (Field Schema)} (hnd : (fields.map (·.name)).Nodup)
    (hrev : ∀ f ∈ fields, Reversible network f.type) : Reversible network (.record fields) := by
  intro path path' d v h
  have hmany : ∀ ds entries, ds.length = fields.length → collapse ds = d →
      decodeFields network fields path ds = .ok entries →
      encodeAt network (.record fields) path' (.record entries) = .ok d := by
    intro ds entries hlen hcollapse hentries
    have henc := fromSource_decoded path' hnd hrev hlen hentries
    refine bind_eq_ok_iff.mpr ⟨.named entries, rfl, ?_⟩
    exact bind_eq_ok_iff.mpr ⟨ds, henc, congrArg Except.ok hcollapse⟩
  match fields, hnd, hrev, hmany, h with
  | [⟨name, s⟩], _, _, hmany, h =>
    simp only [decodeAt, bind_eq_ok_iff, pure_eq_ok_iff] at h
    obtain ⟨w, hw, rfl⟩ := h
    refine hmany [d] _ rfl rfl ?_
    exact bind_eq_ok_iff.mpr ⟨w, hw, rfl⟩
  | [], _, _, hmany, h =>
    simp only [decodeAt, bind_eq_ok_iff, asListOf_eq_ok_iff, pure_eq_ok_iff] at h
    obtain ⟨ds, ⟨rfl, hlen⟩, entries, hentries, rfl⟩ := h
    exact hmany ds entries hlen (collapse_eq_list (by simp [hlen])) hentries
  | f :: g :: rest, _, _, hmany, h =>
    simp only [decodeAt, bind_eq_ok_iff, asListOf_eq_ok_iff, pure_eq_ok_iff] at h
    obtain ⟨ds, ⟨rfl, hlen⟩, entries, hentries, rfl⟩ := h
    exact hmany ds entries hlen (collapse_eq_list (by simp [hlen])) hentries

theorem reversible_enum {variants : List (Variant Schema)}
    (hcheck : checkVariants [] 0 variants = .ok ())
    (hrev : ∀ v ∈ variants, ∀ f ∈ v.fields, Reversible network f.type) :
    Reversible network (.enum variants) := by
  intro path path' d v h
  obtain ⟨hnd, -, htags, hfields⟩ := checkVariants_eq_ok_iff.mp hcheck
  simp only [decodeAt, bind_eq_ok_iff, Prod.exists, asConstr_eq_ok_iff,
    decodeVariant_eq_ok_iff] at h
  obtain ⟨tag, ds, ⟨rfl, hlen⟩, variant, entries, hat, hentries, rfl⟩ := h
  have hmem : variant ∈ variants := List.mem_of_getElem? hat
  have hlen : ds.length = variant.fields.length := by
    rw [List.getElem?_map, hat] at hlen
    exact (Option.some.inj hlen).symm
  -- The tag is written from the variant, and it was read as the variant's position.
  have htag : variant.tag = tag := UInt64.toNat_inj.mp (by rw [htags _ _ hat, Nat.zero_add])
  obtain ⟨hfnd, -, -⟩ := checkFields_eq_ok_iff.mp (hfields variant hmem)
  have henc := fromSource_decoded (.field path' variant.name) hfnd (hrev variant hmem) hlen
    hentries
  refine bind_eq_ok_iff.mpr ⟨(variant.name, .named entries), rfl, ?_⟩
  dsimp only
  rw [encodeVariant_eq, find?_name_of_getElem? hnd hat]
  exact bind_eq_ok_iff.mpr ⟨ds, henc, by rw [htag]; rfl⟩

/-! ## 4. All of them -/

/-- A well-formed schema loses nothing of the data that is decoded under it. -/
theorem reversible_of_check (s : Schema) (hs : s.check = .ok ()) : Reversible network s :=
  induct_check reversible_primitive (fun _ => reversible_list) (fun _ _ => reversible_map)
    (fun _ => reversible_option) (fun _ => reversible_tuple) (fun _ => reversible_record)
    (fun _ => reversible_enum) s hs

/-- **Encoding undoes decoding.**  Whatever a well-formed schema decodes data to on a network, it
encodes back to that data. -/
theorem encode_decoded {network : Network} {s : Schema} {d : Data} {v : Value}
    (hs : s.check = .ok ()) (h : decode network s d = .ok v) : encode network s v = .ok d :=
  reversible_of_check s hs .top .top d v h

namespace Example

/-- An auction's actions: one without fields, and one whose first field is a record of one field
and whose second is a map of options. -/
def actionSchema : Schema :=
  .enum [⟨"Close", 0, []⟩,
    ⟨"Bid", 1, [⟨"bidder", .record [⟨"key", .primitive .byteArray⟩]⟩,
      ⟨"offers", .map (.primitive .int) (.option (.primitive .bool))⟩]⟩]

/-- A bid.  The record of one field has left no trace, and a key of the map is repeated. -/
def bidData : Data :=
  .constr 1 [.bytes [0xab],
    .map [(.int .zero, .constr 0 [.constr 1 []]), (.int .zero, .constr 1 [])]]

def bidValue : Value :=
  .variant "Bid" [("bidder", .record [("key", .bytes [0xab])]),
    ("offers", .map [(.int .zero, .present (.bool true)), (.int .zero, .absent)])]

theorem encode_decoded_bid :
    actionSchema.check = .ok () ∧ decode .testnet actionSchema bidData = .ok bidValue ∧
      encode .testnet actionSchema bidValue = .ok bidData :=
  ⟨rfl, rfl, encode_decoded (d := bidData) rfl rfl⟩

end Example

end ScriptBundle.Codec

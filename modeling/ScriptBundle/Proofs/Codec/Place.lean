/-
# The places of a value

A value is encoded along a schema, and so each of its parts is encoded under a part of the schema.
`Place` is such a pair, and `Part` says which places stand directly in which: in every form that a
list, a map, an option, a record or a variant can be given in, and in the one primitive that is made
of another.  An entry that no field reads is no part of anything.

At a place a value may supply entries by name, for parts whose names are declared there
(`Place.supplied?`).  The question of this module is what success says about these names.  If a
value is encoded, so is every part of it (`encodes_of_within`), and records and variants of the
schema refuse a name that they do not declare (`strict_of_within`).  It says nothing about names
that come twice, and nothing about the primitives that are given by name.
-/
import ScriptBundle.Proofs.Codec.Entries
import ScriptBundle.Proofs.Codec.Forms

namespace ScriptBundle

open Codec

/-! ## 1. Records and variants -/

namespace Value

/-- The parts of a record, wherever one is asked for. -/
def asRecord? : Value → Option Source
  | .record entries => some (.named entries)
  | .list values => some (.positional values)
  | _ => none

/-- The name of a variant and its parts, wherever one is asked for. -/
def asVariant? : Value → Option (String × Source)
  | .variant name entries => some (name, .named entries)
  | .text name => some (name, .named [])
  | .record [(name, .record entries)] => some (name, .named entries)
  | .record [(name, .list values)] => some (name, .positional values)
  | _ => none

end Value

namespace Primitive

/-- What is given by name for a primitive that is made of named parts. -/
def supplied? (p : Primitive) (v : Value) : Option Supplied :=
  match p, v with
  | .txOutputId, .record entries => some ⟨["tx_id", "index"], entries⟩
  | .assetClass, .record entries => some ⟨["mph", "token_name"], entries⟩
  | .ratio, .record entries => some ⟨["top", "bottom"], entries⟩
  | .credential, .variant _ entries | .stakingHash, .variant _ entries => some ⟨["hash"], entries⟩
  | .stakingCredential, .variant name entries =>
    match name with
    | "Hash" => some ⟨["hash"], entries⟩
    | "Pointer" => some ⟨["slot", "tx_index", "cert_index"], entries⟩
    | _ => none
  | _, _ => none

end Primitive

/-! ## 2. Places -/

namespace Codec

/-- A value under a schema. -/
structure Place where
  schema : Schema
  value : Value

namespace Place

/-- What is given by name at a place. -/
def supplied? : Place → Option Supplied
  | ⟨.primitive p, v⟩ => p.supplied? v
  | ⟨.record fields, v⟩ =>
    match v.asRecord? with
    | some (.named entries) => some ⟨fields.map (·.name), entries⟩
    | _ => none
  | ⟨.enum variants, v⟩ =>
    match v.asVariant? with
    | some (name, .named entries) =>
      (variants.find? (·.name = name)).map fun variant => ⟨variant.fields.map (·.name), entries⟩
    | _ => none
  | _ => none

/-- If entries are given by name here, all of them are of use. -/
def Exact (p : Place) : Prop := ∀ u ∈ p.supplied?, u.Exact

/-- If entries are given by name for a record or a variant of the schema, their names are
declared. -/
def Strict (p : Place) : Prop := (∀ q, p.schema ≠ .primitive q) → ∀ u ∈ p.supplied?, u.Declared

/-- The value is encoded under the schema, wherever that is. -/
def Encodes (network : Network) (p : Place) : Prop :=
  ∃ path d, encodeAt network p.schema path p.value = .ok d

end Place

/-- The value that a source holds for a field. -/
inductive Source.Holds (fields : List (Field Schema)) : Source → Field Schema → Value → Prop
  | named {entries : List (String × Value)} {f : Field Schema} {w : Value} (hmem : f ∈ fields)
    (h : Value.entry? f.name entries = some w) : Holds fields (.named entries) f w
  | positional {values : List Value} {f : Field Schema} {w : Value}
    (h : (f, w) ∈ fields.zip values) :
    Holds fields (.positional values) f w

/-- One place stands directly in another. -/
inductive Part : Place → Place → Prop
  | item {item : Schema} {items : List Value} {w : Value} (h : w ∈ items) :
    Part ⟨.list item, .list items⟩ ⟨item, w⟩
  | key {key value : Schema} {pairs : List (Value × Value)} {p : Value × Value} (h : p ∈ pairs) :
    Part ⟨.map key value, .map pairs⟩ ⟨key, p.1⟩
  | mapped {key value : Schema} {pairs : List (Value × Value)} {p : Value × Value} (h : p ∈ pairs) :
    Part ⟨.map key value, .map pairs⟩ ⟨value, p.2⟩
  | listedKey {key value : Schema} {items : List Value} {k w : Value} (h : .list [k, w] ∈ items) :
    Part ⟨.map key value, .list items⟩ ⟨key, k⟩
  | listedMapped {key value : Schema} {items : List Value} {k w : Value}
    (h : .list [k, w] ∈ items) : Part ⟨.map key value, .list items⟩ ⟨value, w⟩
  | namedKey {key value : Schema} {entries : List (String × Value)} {e : String × Value}
    (h : e ∈ entries) : Part ⟨.map key value, .record entries⟩ ⟨key, .text e.1⟩
  | namedMapped {key value : Schema} {entries : List (String × Value)} {e : String × Value}
    (h : e ∈ entries) : Part ⟨.map key value, .record entries⟩ ⟨value, e.2⟩
  | present {inner : Schema} {w : Value} : Part ⟨.option inner, .present w⟩ ⟨inner, w⟩
  | bare {inner : Schema} {w : Value} (h : w.Bare) : Part ⟨.option inner, w⟩ ⟨inner, w⟩
  | slot {items : List Schema} {values : List Value} {s : Schema} {w : Value}
    (h : (s, w) ∈ items.zip values) : Part ⟨.tuple items, .list values⟩ ⟨s, w⟩
  | field {fields : List (Field Schema)} {v : Value} {source : Source} {f : Field Schema}
    {w : Value} (hsource : v.asRecord? = some source) (h : source.Holds fields f w) :
    Part ⟨.record fields, v⟩ ⟨f.type, w⟩
  | variantField {variants : List (Variant Schema)} {variant : Variant Schema} {v : Value}
    {name : String} {source : Source} {f : Field Schema} {w : Value}
    (hsource : v.asVariant? = some (name, source))
    (hvariant : variants.find? (·.name = name) = some variant)
    (h : source.Holds variant.fields f w) : Part ⟨.enum variants, v⟩ ⟨f.type, w⟩
  /-- A staking credential may hold a staking hash, which has named parts of its own. -/
  | stakingHash {entries : List (String × Value)} {w : Value}
    (h : Value.entry? "hash" entries = some w) :
    Part ⟨.primitive .stakingCredential, .variant "Hash" entries⟩ ⟨.primitive .stakingHash, w⟩

/-- One place stands somewhere in another, or is that place. -/
def Within : Place → Place → Prop := Relation.ReflTransGen Part

variable {network : Network} {path : Path} {v : Value} {d : Data}

/-! ## 3. What is encoded in parts -/

theorem encodeAt_bare {inner : Schema} (hv : v.Bare) :
    encodeAt network (.option inner) path v =
      (encodeAt network inner path v >>= fun d => pure (optional (some d))) := by
  cases v with
  | absent | present _ | data _ => exact hv.elim
  | _ => rfl

theorem encodeAt_of_asRecord? {fields : List (Field Schema)} {source : Source}
    (h : v.asRecord? = some source) :
    encodeAt network (.record fields) path v =
      (fromSource fields path source (encodeNamed network fields path)
        (encodePositional network fields path) >>= fun ds => pure (collapse ds)) := by
  cases v with
  | record _ | list _ =>
    cases h
    rfl
  | _ => cases h

theorem encodeAt_of_asVariant? {variants : List (Variant Schema)} {name : String} {source : Source}
    (h : v.asVariant? = some (name, source)) :
    encodeAt network (.enum variants) path v = encodeVariant network variants path name source := by
  unfold Value.asVariant? at h
  split at h
  · cases h; rfl
  · cases h; rfl
  · cases h; rfl
  · cases h; rfl
  · cases h

/-- The data of a field, by what is found under its name. -/
def encodeFound (network : Network) (path : Path) (f : Field Schema) : Option Value → Result Data
  | some v => encodeAt network f.type (.field path f.name) v
  | none =>
    match f.type with
    | .option _ => .ok (optional none)
    | _ => .error (.missingField path f.name)

theorem encodeNamed_cons (f : Field Schema) (fields : List (Field Schema))
    (entries : List (String × Value)) :
    encodeNamed network (f :: fields) path entries =
      (encodeFound network path f (Value.entry? f.name entries) >>= fun d =>
        encodeNamed network fields path entries >>= fun ds => pure (d :: ds)) := by
  obtain ⟨name, s⟩ := f
  simp only [encodeNamed]
  cases Value.entry? name entries with
  | some v => rfl
  | none => cases s <;> rfl

/-! ## 4. What success says about the parts -/

theorem exists_of_eachFrom {α β : Type} {f : Path → α → Result β} {a : α} :
    ∀ {items : List α} {bs : List β} (index : Nat), eachFrom f path index items = .ok bs →
      a ∈ items → ∃ p b, f p a = .ok b
  | [], _, _, _, ha => by cases ha
  | first :: rest, _, index, h, ha => by
    simp only [eachFrom, bind_eq_ok_iff, pure_eq_ok_iff] at h
    obtain ⟨b, hb, bs, hbs, -⟩ := h
    rcases List.mem_cons.mp ha with rfl | ha
    · exact ⟨_, b, hb⟩
    · exact exists_of_eachFrom (index + 1) hbs ha

theorem exists_of_each {α β : Type} {f : Path → α → Result β} {items : List α} {bs : List β} {a : α}
    (h : each f path items = .ok bs) (ha : a ∈ items) : ∃ p b, f p a = .ok b :=
  exists_of_eachFrom 0 h ha

theorem encodes_of_encodeItems {s : Schema} {w : Value} :
    ∀ {items : List Schema} {values : List Value} {ds : List Data} (index : Nat),
      encodeItems network items path index values = .ok ds → (s, w) ∈ items.zip values →
      Place.Encodes network ⟨s, w⟩
  | [], _, _, _, _, hw => by cases hw
  | _ :: _, [], _, _, _, hw => by cases hw
  | t :: items, x :: values, _, index, h, hw => by
    simp only [encodeItems, bind_eq_ok_iff, pure_eq_ok_iff] at h
    obtain ⟨d, hd, ds, hds, -⟩ := h
    rcases List.mem_cons.mp hw with heq | hw
    · cases heq
      exact ⟨_, d, hd⟩
    · exact encodes_of_encodeItems (index + 1) hds hw

theorem encodes_of_encodePositional {f : Field Schema} {w : Value} :
    ∀ {fields : List (Field Schema)} {values : List Value} {ds : List Data},
      encodePositional network fields path values = .ok ds → (f, w) ∈ fields.zip values →
      Place.Encodes network ⟨f.type, w⟩
  | [], _, _, _, hw => by cases hw
  | _ :: _, [], _, _, hw => by cases hw
  | g :: fields, x :: values, _, h, hw => by
    simp only [encodePositional, bind_eq_ok_iff, pure_eq_ok_iff] at h
    obtain ⟨d, hd, ds, hds, -⟩ := h
    rcases List.mem_cons.mp hw with heq | hw
    · cases heq
      exact ⟨_, d, hd⟩
    · exact encodes_of_encodePositional hds hw

theorem encodes_of_encodeNamed {fields : List (Field Schema)} {entries : List (String × Value)}
    {ds : List Data} {f : Field Schema} {w : Value}
    (h : encodeNamed network fields path entries = .ok ds) (hf : f ∈ fields)
    (hw : Value.entry? f.name entries = some w) : Place.Encodes network ⟨f.type, w⟩ := by
  induction fields generalizing ds with
  | nil => cases hf
  | cons g fields ih =>
    simp only [encodeNamed_cons, bind_eq_ok_iff, pure_eq_ok_iff] at h
    obtain ⟨d, hd, ds, hds, -⟩ := h
    rcases List.mem_cons.mp hf with rfl | hf
    · rw [hw] at hd
      exact ⟨_, d, hd⟩
    · exact ih hds hf

theorem encodes_of_holds {fields : List (Field Schema)} {source : Source} {ds : List Data}
    {f : Field Schema} {w : Value} (place : Path)
    (h : fromSource fields place source (encodeNamed network fields path)
      (encodePositional network fields path) = .ok ds) (hw : source.Holds fields f w) :
    Place.Encodes network ⟨f.type, w⟩ := by
  unfold fromSource at h
  cases hw with
  | positional hw =>
    dsimp only at h
    split at h
    · cases h
    · exact encodes_of_encodePositional h hw
  | named hmem hw =>
    dsimp only at h
    split at h
    · cases h
    · exact encodes_of_encodeNamed h hmem hw

/-- Names that are not declared are refused. -/
theorem declared_of_fromSource {fields : List (Field Schema)} {entries : List (String × Value)}
    {ds : List Data} (place : Path)
    (h : fromSource fields place (.named entries) (encodeNamed network fields path)
      (encodePositional network fields path) = .ok ds) :
    Supplied.Declared ⟨fields.map (·.name), entries⟩ := by
  intro e he
  unfold fromSource at h
  dsimp only at h
  split at h
  · cases h
  · rename_i hstray
    simp only [stray?, Option.map_eq_none_iff, List.find?_eq_none] at hstray
    simpa using hstray e he

theorem encodes_of_keyAndValue {key value : Schema} {p : Value × Value} {e : Data × Data}
    (h : keyAndValue (encodeAt network key) (encodeAt network value) path p = .ok e) :
    Place.Encodes network ⟨key, p.1⟩ ∧ Place.Encodes network ⟨value, p.2⟩ := by
  simp only [keyAndValue, bind_eq_ok_iff, pure_eq_ok_iff] at h
  obtain ⟨k, hk, x, hx, -⟩ := h
  exact ⟨⟨_, k, hk⟩, ⟨_, x, hx⟩⟩

theorem encodes_of_namedPairs {key value : Schema} {entries : List (String × Value)}
    {ds : List (Data × Data)} {e : String × Value}
    (h : namedPairs (encodeAt network key) (encodeAt network value) path entries = .ok ds)
    (he : e ∈ entries) :
    Place.Encodes network ⟨key, .text e.1⟩ ∧ Place.Encodes network ⟨value, e.2⟩ := by
  induction entries generalizing ds with
  | nil => cases he
  | cons first rest ih =>
    simp only [namedPairs, bind_eq_ok_iff, pure_eq_ok_iff] at h
    obtain ⟨p, hp, ps, hps, -⟩ := h
    rcases List.mem_cons.mp he with rfl | he
    · exact encodes_of_keyAndValue hp
    · exact ih hps he

/-- A part of what is encoded is encoded: the places of a map. -/
theorem encodes_of_encodeMap {key value : Schema} {expected : Expected}
    (h : encodeMap (encodeAt network key) (encodeAt network value) path expected v = .ok d) :
    (∀ pairs, v = .map pairs → ∀ p ∈ pairs,
      Place.Encodes network ⟨key, p.1⟩ ∧ Place.Encodes network ⟨value, p.2⟩) ∧
    (∀ items, v = .list items → ∀ k w, .list [k, w] ∈ items →
      Place.Encodes network ⟨key, k⟩ ∧ Place.Encodes network ⟨value, w⟩) ∧
    (∀ entries, v = .record entries → ∀ e ∈ entries,
      Place.Encodes network ⟨key, .text e.1⟩ ∧ Place.Encodes network ⟨value, e.2⟩) := by
  refine ⟨?_, ?_, ?_⟩
  · rintro pairs rfl p hp
    simp only [encodeMap, bind_eq_ok_iff, pure_eq_ok_iff] at h
    obtain ⟨ds, hds, -⟩ := h
    obtain ⟨_, e, he⟩ := exists_of_each hds hp
    exact encodes_of_keyAndValue he
  · rintro items rfl k w hmem
    simp only [encodeMap, bind_eq_ok_iff, pure_eq_ok_iff] at h
    obtain ⟨ds, hds, -⟩ := h
    obtain ⟨_, e, he⟩ := exists_of_each hds hmem
    exact encodes_of_keyAndValue he
  · rintro entries rfl e he
    simp only [encodeMap, bind_eq_ok_iff, pure_eq_ok_iff] at h
    obtain ⟨ds, hds, -⟩ := h
    exact encodes_of_namedPairs hds he

/-- A staking credential that holds a hash is encoded only if the hash is. -/
theorem encodes_stakingHash {entries : List (String × Value)} {w : Value}
    (h : encodeAt network (.primitive .stakingCredential) path (.variant "Hash" entries) = .ok d)
    (hw : Value.entry? "hash" entries = some w) :
    Place.Encodes network ⟨.primitive .stakingHash, w⟩ := by
  have hfield : fieldOf path "hash" (.variant "Hash" entries) = .ok w := by
    rw [fieldOf, Value.field?, hw]
  simp only [encodeAt, Primitive.encode, StakingCredential.ofValue, hfield, bind_eq_ok_iff,
    pure_eq_ok_iff] at h
  obtain ⟨_, ⟨_, ⟨⟩, x, hx, -⟩, -⟩ := h
  have henc : Primitive.stakingHash.encode network (path.field "hash") w = .ok x.toData :=
    bind_eq_ok_iff.mpr ⟨x, hx, rfl⟩
  exact ⟨path.field "hash", x.toData, encodeAt_primitive henc⟩

/-! ## 5. All places -/

/-- **A part of what is encoded is encoded.** -/
theorem encodes_of_part {p q : Place} (h : Part p q) (hp : p.Encodes network) :
    q.Encodes network := by
  obtain ⟨path, d, hd⟩ := hp
  cases h with
  | item hmem =>
    obtain ⟨ds, hds, -⟩ := bind_eq_ok_iff.mp hd
    exact exists_of_each hds hmem
  | key hmem => exact ((encodes_of_encodeMap hd).1 _ rfl _ hmem).1
  | mapped hmem => exact ((encodes_of_encodeMap hd).1 _ rfl _ hmem).2
  | listedKey hmem => exact ((encodes_of_encodeMap hd).2.1 _ rfl _ _ hmem).1
  | listedMapped hmem => exact ((encodes_of_encodeMap hd).2.1 _ rfl _ _ hmem).2
  | namedKey hmem => exact ((encodes_of_encodeMap hd).2.2 _ rfl _ hmem).1
  | namedMapped hmem => exact ((encodes_of_encodeMap hd).2.2 _ rfl _ hmem).2
  | present =>
    obtain ⟨e, he, -⟩ := bind_eq_ok_iff.mp hd
    exact ⟨path, e, he⟩
  | bare hw =>
    rw [encodeAt_bare hw] at hd
    obtain ⟨e, he, -⟩ := bind_eq_ok_iff.mp hd
    exact ⟨path, e, he⟩
  | slot hmem =>
    simp only [encodeAt] at hd
    split at hd
    · cases hd
    · obtain ⟨ds, hds, -⟩ := bind_eq_ok_iff.mp hd
      exact encodes_of_encodeItems 0 hds hmem
  | field hsource hholds =>
    rw [encodeAt_of_asRecord? hsource] at hd
    obtain ⟨ds, hds, -⟩ := bind_eq_ok_iff.mp hd
    exact encodes_of_holds path hds hholds
  | variantField hsource hvariant hholds =>
    rw [encodeAt_of_asVariant? hsource, encodeVariant_eq, hvariant] at hd
    obtain ⟨ds, hds, -⟩ := bind_eq_ok_iff.mp hd
    exact encodes_of_holds _ hds hholds
  | stakingHash hentry => exact encodes_stakingHash hd hentry

/-- What stands anywhere in what is encoded is encoded. -/
theorem encodes_of_within {p q : Place} (h : Within p q) (hp : p.Encodes network) :
    q.Encodes network := by
  induction h with
  | refl => exact hp
  | tail _ hpart ih => exact encodes_of_part hpart ih

/-- Where a record or variant of the schema is encoded, all names are declared. -/
theorem strict_of_encodes {p : Place} (hp : p.Encodes network) : p.Strict := by
  intro hschema u hu
  obtain ⟨s, v⟩ := p
  obtain ⟨path, d, hd⟩ := hp
  cases s with
  | primitive q => exact absurd rfl (hschema q)
  | record fields =>
    simp only [Place.supplied?] at hu
    split at hu
    · rename_i entries hsource
      cases hu
      rw [encodeAt_of_asRecord? hsource] at hd
      obtain ⟨ds, hds, -⟩ := bind_eq_ok_iff.mp hd
      exact declared_of_fromSource path hds
    · cases hu
  | enum variants =>
    simp only [Place.supplied?] at hu
    split at hu
    · rename_i name entries hsource
      obtain ⟨variant, hvariant, rfl⟩ := Option.map_eq_some_iff.mp hu
      rw [encodeAt_of_asVariant? hsource, encodeVariant_eq, hvariant] at hd
      obtain ⟨ds, hds, -⟩ := bind_eq_ok_iff.mp hd
      exact declared_of_fromSource _ hds
    · cases hu
  | _ => cases hu

/-- **Records and variants of the schema refuse what they do not declare**, at every depth. -/
theorem strict_of_within {p q : Place} (h : Within p q) (hp : p.Encodes network) : q.Strict :=
  strict_of_encodes (encodes_of_within h hp)

end Codec

end ScriptBundle

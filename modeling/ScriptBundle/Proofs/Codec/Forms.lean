/-
# All forms of a value encode alike

`Schema.HasForm` says which values stand for a canonical one under a schema.  Every part of the
value, at any depth, may be replaced on its own: a primitive by one of its forms, a map by a list of
its pairs or, if its keys are texts, by a record, a present option by its content, a record by its
entries in any order or by position, a variant by a record that holds its parts or by its name
alone.  Records and texts mean different things under different schemas, and the schema decides.

All of these forms are encoded as the same data, the data that the canonical value is decoded from
(`forms_encode_alike`).

Fields are what takes work.  A canonical record names its fields in the declared order, so what is
found under their names is what stands at their positions (`encodePositional_of_named`).  Position
by position one form replaces another (`encodePositional_of_hasForm`).  And from there it goes back
to names in any order, where only absent options may be missing (`encodeNamed_of_reordering`).
-/
import ScriptBundle.Proofs.Codec.Canonical
import ScriptBundle.Proofs.Codec.PrimitiveForms

namespace ScriptBundle

open Codec

/-! ## 1. Forms along a schema -/

namespace Value

/-- A variant, a record whose one entry holds its parts, or its name alone if nothing is left. -/
inductive VariantForm (name : String) (parts : List (String × Value)) : Value → Prop
  | named {given : List (String × Value)} (h : Reordering parts given) :
    VariantForm name parts (.variant name given)
  | entry {w : Value} (h : RecordForm parts w) : VariantForm name parts (.record [(name, w)])
  | alone (h : Reordering parts []) : VariantForm name parts (.text name)

/-- A map, a list of its pairs, or a record whose names are its keys. -/
inductive MapForm (pairs : List (Value × Value)) : Value → Prop
  | map : MapForm pairs (.map pairs)
  | list : MapForm pairs (.list (pairs.map fun p => .list [p.1, p.2]))
  | record {entries : List (String × Value)} (h : pairs = entries.map fun e => (.text e.1, e.2)) :
    MapForm pairs (.record entries)

/-- A value that an option may be without saying so: neither an option nor encoded data. -/
def Bare : Value → Prop
  | .absent | .present _ | .data _ => False
  | _ => True

end Value

open Value

/-- The forms of a canonical value of a schema. -/
inductive Schema.HasForm : Schema → Value → Value → Prop
  | primitive {p : Primitive} {v w : Value} (h : p.HasForm v w) : HasForm (.primitive p) v w
  | list {item : Schema} {vs ws : List Value} (hlen : vs.length = ws.length)
    (h : ∀ p ∈ vs.zip ws, HasForm item p.1 p.2) : HasForm (.list item) (.list vs) (.list ws)
  | map {key value : Schema} {pairs given : List (Value × Value)} {w : Value}
    (hlen : pairs.length = given.length) (hkeys : ∀ p ∈ pairs.zip given, HasForm key p.1.1 p.2.1)
    (hvalues : ∀ p ∈ pairs.zip given, HasForm value p.1.2 p.2.2) (hw : MapForm given w) :
    HasForm (.map key value) (.map pairs) w
  | absent {inner : Schema} : HasForm (.option inner) .absent .absent
  | present {inner : Schema} {v w : Value} (h : HasForm inner v w) :
    HasForm (.option inner) (.present v) (.present w)
  | bare {inner : Schema} {v w : Value} (h : HasForm inner v w) (hw : w.Bare) :
    HasForm (.option inner) (.present v) w
  | tuple {items : List Schema} {vs ws : List Value} (hlen : vs.length = ws.length)
    (h : ∀ p ∈ items.zip (vs.zip ws), HasForm p.1 p.2.1 p.2.2) :
    HasForm (.tuple items) (.list vs) (.list ws)
  /-- Every part has some form, under the name of its field, and then the parts as a whole have. -/
  | record {fields : List (Field Schema)} {entries parts : List (String × Value)} {w : Value}
    (hnames : entries.map (·.1) = fields.map (·.name))
    (hparts : parts.map (·.1) = entries.map (·.1))
    (h : ∀ p ∈ fields.zip (entries.zip parts), HasForm p.1.type p.2.1.2 p.2.2.2)
    (hw : RecordForm parts w) : HasForm (.record fields) (.record entries) w
  | enum {variants : List (Variant Schema)} {variant : Variant Schema}
    {entries parts : List (String × Value)} {w : Value} (hmem : variant ∈ variants)
    (hnames : entries.map (·.1) = variant.fields.map (·.name))
    (hparts : parts.map (·.1) = entries.map (·.1))
    (h : ∀ p ∈ variant.fields.zip (entries.zip parts), HasForm p.1.type p.2.1.2 p.2.2.2)
    (hw : VariantForm variant.name parts w) :
    HasForm (.enum variants) (.variant variant.name entries) w

namespace Codec

variable {network : Network} {path path' : Path} {v w : Value} {d : Data}

/-- Whatever a value is encoded as under a schema, all of its forms are, wherever that happens. -/
def FormsAgree (network : Network) (s : Schema) : Prop :=
  ∀ path path' v w d, s.HasForm v w → encodeAt network s path v = .ok d →
    encodeAt network s path' w = .ok d

/-! ## 2. Fields -/

/-- What is found under the names of the fields stands at their positions.  `all` is the whole list
of entries, of which `entries` belong to the fields that are left. -/
theorem encodePositional_of_named {all : List (String × Value)} (hnd : (all.map (·.1)).Nodup) :
    ∀ {fields : List (Field Schema)} {entries : List (String × Value)} {ds : List Data},
      entries.map (·.1) = fields.map (·.name) → entries ⊆ all →
      encodeNamed network fields path all = .ok ds →
      encodePositional network fields path (entries.map (·.2)) = .ok ds
  | [], _, _, _, _, h => h
  | _ :: _, [], _, hnames, _, _ => by cases hnames
  | ⟨name, s⟩ :: fields, ⟨name', v⟩ :: entries, ds, hnames, hsub, h => by
    simp only [List.map_cons, List.cons.injEq] at hnames
    obtain ⟨rfl, hnames⟩ := hnames
    have hfound : entry? name' all = some v := entry?_of_mem hnd (hsub List.mem_cons_self)
    simp only [encodeNamed, hfound, bind_eq_ok_iff, pure_eq_ok_iff] at h
    obtain ⟨d, hd, rest, hrest, rfl⟩ := h
    have htail := encodePositional_of_named hnd hnames (List.cons_subset.mp hsub).2 hrest
    exact bind_eq_ok_iff.mpr ⟨d, hd, bind_eq_ok_iff.mpr ⟨rest, htail, rfl⟩⟩

/-- Form by form, the values at the positions are encoded alike. -/
theorem encodePositional_of_hasForm :
    ∀ {fields : List (Field Schema)} {entries parts : List (String × Value)} {ds : List Data},
      (∀ f ∈ fields, FormsAgree network f.type) →
      parts.map (·.1) = entries.map (·.1) →
      (∀ p ∈ fields.zip (entries.zip parts), p.1.type.HasForm p.2.1.2 p.2.2.2) →
      encodePositional network fields path (entries.map (·.2)) = .ok ds →
      encodePositional network fields path' (parts.map (·.2)) = .ok ds
  | [], _, _, _, _, _, _, h => h
  | _ :: _, [], [], _, _, _, _, h => h
  | _ :: _, [], _ :: _, _, _, hparts, _, _ => by cases hparts
  | _ :: _, _ :: _, [], _, _, hparts, _, _ => by cases hparts
  | f :: fields, e :: entries, part :: parts, ds, hagree, hparts, hforms, h => by
    obtain ⟨hagree, hrestagree⟩ := List.forall_mem_cons.mp hagree
    obtain ⟨-, hparts⟩ := List.cons.inj hparts
    rw [List.zip_cons_cons, List.zip_cons_cons, List.forall_mem_cons] at hforms
    simp only [List.map_cons, encodePositional, bind_eq_ok_iff, pure_eq_ok_iff] at h ⊢
    obtain ⟨d, hd, rest, hrest, rfl⟩ := h
    have htail := encodePositional_of_hasForm hrestagree hparts hforms.2 hrest
    exact ⟨d, hagree _ _ _ _ d hforms.1 hd, rest, htail, rfl⟩

/-- Only an option is encoded when it is absent. -/
theorem of_encodeAt_absent {s : Schema} (h : encodeAt network s path .absent = .ok d) :
    ∃ inner, s = .option inner ∧ d = optional none := by
  cases s with
  | option inner => exact ⟨inner, rfl, (Except.ok.inj h).symm⟩
  | primitive p => cases p <;> cases h
  | _ => cases h

/-- What stands at the positions of the fields is found under their names, in any order; what is not
found is an absent option. -/
theorem encodeNamed_of_reordering {given : List (String × Value)} :
    ∀ {fields : List (Field Schema)} {parts : List (String × Value)} {ds : List Data},
      parts.map (·.1) = fields.map (·.name) →
      (∀ e ∈ parts, entry? e.1 given = some e.2 ∨ entry? e.1 given = none ∧ e.2 = .absent) →
      encodePositional network fields path (parts.map (·.2)) = .ok ds →
      encodeNamed network fields path given = .ok ds
  | [], _, _, _, _, h => h
  | _ :: _, [], _, hparts, _, _ => by cases hparts
  | ⟨name, s⟩ :: fields, ⟨name', w⟩ :: parts, ds, hparts, hfound, h => by
    simp only [List.map_cons, List.cons.injEq] at hparts
    obtain ⟨rfl, hparts⟩ := hparts
    obtain ⟨hhead, hrestfound⟩ := List.forall_mem_cons.mp hfound
    simp only [List.map_cons, encodePositional, bind_eq_ok_iff, pure_eq_ok_iff] at h
    obtain ⟨d, hd, rest, hrest, rfl⟩ := h
    have htail := encodeNamed_of_reordering hparts hrestfound hrest
    rcases hhead with hsome | ⟨hnone, rfl⟩
    · simp only [encodeNamed, hsome, bind_eq_ok_iff, pure_eq_ok_iff]
      exact ⟨d, hd, rest, htail, rfl⟩
    · obtain ⟨inner, rfl, rfl⟩ := of_encodeAt_absent hd
      simp only [encodeNamed, hnone, bind_eq_ok_iff, pure_eq_ok_iff]
      exact ⟨_, rfl, rest, htail, rfl⟩

/-- A source that gives all parts, by name or by position. -/
inductive Supplies (parts : List (String × Value)) : Source → Prop
  | named {given : List (String × Value)} (h : Reordering parts given) :
    Supplies parts (.named given)
  | positional : Supplies parts (.positional (parts.map (·.2)))

/-- **Fields come out the same from every source** that gives a form of each canonical entry. -/
theorem fromSource_of_hasForm (path' : Path) {fields : List (Field Schema)}
    {entries parts : List (String × Value)} {source : Source} {ds : List Data}
    (hnd : (fields.map (·.name)).Nodup)
    (hagree : ∀ f ∈ fields, FormsAgree network f.type)
    (hnames : entries.map (·.1) = fields.map (·.name))
    (hparts : parts.map (·.1) = entries.map (·.1))
    (hforms : ∀ p ∈ fields.zip (entries.zip parts), p.1.type.HasForm p.2.1.2 p.2.2.2)
    (hsource : Supplies parts source)
    (h : fromSource fields path (.named entries) (encodeNamed network fields path)
      (encodePositional network fields path) = .ok ds) :
    fromSource fields path' source (encodeNamed network fields path')
      (encodePositional network fields path') = .ok ds := by
  simp only [fromSource, stray?_eq_none fun _ hmem => hnames ▸ hmem] at h
  have hcanonical := encodePositional_of_named (hnames ▸ hnd) hnames (List.Subset.refl _) h
  have hpositional : encodePositional network fields path' (parts.map (·.2)) = .ok ds :=
    encodePositional_of_hasForm hagree hparts hforms hcanonical
  cases hsource with
  | named hgiven =>
    have hpartsnd : (parts.map (·.1)).Nodup := by rwa [hparts, hnames]
    have hsub : _ ⊆ fields.map (·.name) :=
      fun _ hmem => hparts.trans hnames ▸ List.map_subset _ hgiven.subset hmem
    simp only [fromSource, stray?_eq_none hsub]
    exact encodeNamed_of_reordering (hparts.trans hnames) (fun e he => hgiven.entry?_eq hpartsnd he)
      hpositional
  | positional =>
    have hlen : (parts.map (·.2)).length = fields.length := by
      simpa using congrArg List.length (hparts.trans hnames)
    rw [fromSource, if_neg fun hne => hne hlen]
    exact hpositional

theorem exists_recordSource (path : Path) (fields : List (Field Schema))
    {parts : List (String × Value)} (hw : RecordForm parts w) :
    ∃ source, Supplies parts source ∧ recordSource path fields w = .ok source := by
  cases hw with
  | named h => exact ⟨_, .named h, rfl⟩
  | positional => exact ⟨_, .positional, rfl⟩

theorem exists_variantSource (path : Path) (variants : List (Variant Schema)) {name : String}
    {parts : List (String × Value)} (hw : VariantForm name parts w) :
    ∃ source, Supplies parts source ∧ variantSource path variants w = .ok (name, source) := by
  cases hw with
  | named h => exact ⟨_, .named h, rfl⟩
  | alone h => exact ⟨_, .named h, rfl⟩
  | entry h =>
    cases h with
    | named h => exact ⟨_, .named h, rfl⟩
    | positional => exact ⟨_, .positional, rfl⟩

/-! ## 3. Items and pairs -/

theorem encodeItems_of_hasForm :
    ∀ {items : List Schema} {vs ws : List Value} {ds : List Data} (index index' : Nat),
      (∀ s ∈ items, FormsAgree network s) → vs.length = ws.length →
      (∀ p ∈ items.zip (vs.zip ws), p.1.HasForm p.2.1 p.2.2) →
      encodeItems network items path index vs = .ok ds →
      encodeItems network items path' index' ws = .ok ds
  | [], _, _, _, _, _, _, _, _, h => h
  | _ :: _, [], [], _, _, _, _, _, _, h => h
  | _ :: _, [], _ :: _, _, _, _, _, hlen, _, _ => by cases hlen
  | _ :: _, _ :: _, [], _, _, _, _, hlen, _, _ => by cases hlen
  | s :: items, v :: vs, w :: ws, ds, index, index', hagree, hlen, hforms, h => by
    obtain ⟨hagree, hrestagree⟩ := List.forall_mem_cons.mp hagree
    rw [List.zip_cons_cons, List.zip_cons_cons, List.forall_mem_cons] at hforms
    simp only [encodeItems, bind_eq_ok_iff, pure_eq_ok_iff] at h ⊢
    obtain ⟨d, hd, rest, hrest, rfl⟩ := h
    have htail := encodeItems_of_hasForm (index + 1) (index' + 1) hrestagree (Nat.succ.inj hlen)
      hforms.2 hrest
    exact ⟨d, hagree _ _ _ _ d hforms.1 hd, rest, htail, rfl⟩

/-- Two pairs that are converted alike. -/
def PairsAgree (key value : Path → Value → Result Data) (p q : Value × Value) : Prop :=
  ∀ path path' r, keyAndValue key value path p = .ok r → keyAndValue key value path' q = .ok r

theorem pairsAgree_of_hasForm {key value : Schema} (hkey : FormsAgree network key)
    (hvalue : FormsAgree network value) {p q : Value × Value} (hk : key.HasForm p.1 q.1)
    (hv : value.HasForm p.2 q.2) :
    PairsAgree (encodeAt network key) (encodeAt network value) p q := by
  intro path path' r h
  simp only [keyAndValue, bind_eq_ok_iff, pure_eq_ok_iff] at h ⊢
  obtain ⟨dk, hdk, dv, hdv, rfl⟩ := h
  exact ⟨dk, hkey _ _ _ _ dk hk hdk, dv, hvalue _ _ _ _ dv hv hdv, rfl⟩

/-- Pairs whose keys are names are converted as pairs whose keys are texts. -/
theorem namedPairs_of_forall₂ {key value : Path → Value → Result Data}
    {pairs : List (Value × Value)} {entries : List (String × Value)} {ds : List (Data × Data)}
    (index : Nat)
    (h : List.Forall₂ (fun p e => PairsAgree key value p (.text e.1, e.2)) pairs entries)
    (hds : eachFrom (keyAndValue key value) path index pairs = .ok ds) :
    namedPairs key value path' entries = .ok ds := by
  induction h generalizing ds index with
  | nil => exact hds
  | cons hhead _ ih =>
    simp only [eachFrom, namedPairs, bind_eq_ok_iff, pure_eq_ok_iff] at hds ⊢
    obtain ⟨d, hd, rest, hrest, rfl⟩ := hds
    exact ⟨d, hhead _ _ d hd, rest, ih _ hrest, rfl⟩

/-- A map in whichever form. -/
theorem encodeMap_of_form {key value : Path → Value → Result Data} {expected expected' : Expected}
    {pairs given : List (Value × Value)} (h : List.Forall₂ (PairsAgree key value) pairs given)
    (hw : MapForm given w) (hd : encodeMap key value path expected (.map pairs) = .ok d) :
    encodeMap key value path' expected' w = .ok d := by
  simp only [encodeMap, bind_eq_ok_iff, pure_eq_ok_iff] at hd
  obtain ⟨ds, hds, rfl⟩ := hd
  cases hw with
  | map => exact bind_eq_ok_iff.mpr ⟨ds, each_of_forall₂ h hds, rfl⟩
  | list =>
    refine bind_eq_ok_iff.mpr ⟨ds, each_of_forall₂ ?_ hds, rfl⟩
    exact List.forall₂_map_right_iff.mpr h
  | record heq =>
    subst heq
    exact bind_eq_ok_iff.mpr
      ⟨ds, namedPairs_of_forall₂ 0 (List.forall₂_map_right_iff.mp h) hds, rfl⟩

/-! ## 4. The shapes one by one -/

/-- Encoded data has itself as its only form. -/
theorem eq_of_hasForm_data {p : Primitive} (h : p.HasForm (.data d) w) : w = .data d := by
  cases p with
  | bool | string | data => exact h
  | credential | stakingHash =>
    obtain ⟨_, _, _, hv, -⟩ := h
    cases hv
  | stakingCredential | value => cases h
  | txOutputId | assetClass =>
    obtain ⟨_, _, hv, -⟩ := h
    cases hv
  | ratio =>
    obtain ⟨_, _, _, _, hv, -⟩ := h
    cases hv
  | _ =>
    obtain ⟨_, hv, -⟩ := h
    cases hv

theorem formsAgree_primitive (p : Primitive) : FormsAgree network (.primitive p) := by
  intro path path' v w d hw h
  cases hw with
  | primitive hw =>
    cases v with
    | data e =>
      obtain rfl := eq_of_hasForm_data hw
      exact h
    | _ => exact encodeAt_primitive (Primitive.encode_of_hasForm hw h)

theorem formsAgree_list {item : Schema} (hitem : FormsAgree network item) :
    FormsAgree network (.list item) := by
  intro path path' v w d hw h
  cases hw with
  | list hlen hforms =>
    obtain ⟨ds, hds, hd⟩ := bind_eq_ok_iff.mp h
    refine bind_eq_ok_iff.mpr ⟨ds, each_of_forall₂ ?_ hds, hd⟩
    exact List.forall₂_iff_zip.mpr ⟨hlen, fun hp p p' d => hitem p p' _ _ d (hforms _ hp)⟩

theorem formsAgree_map {key value : Schema} (hkey : FormsAgree network key)
    (hvalue : FormsAgree network value) : FormsAgree network (.map key value) := by
  intro path path' v w d hw h
  cases hw with
  | @map _ _ pairs given _ hlen hkeys hvalues hw =>
    have hpairs : List.Forall₂ (PairsAgree (encodeAt network key) (encodeAt network value))
        pairs given :=
      List.forall₂_iff_zip.mpr
        ⟨hlen, fun hp => pairsAgree_of_hasForm hkey hvalue (hkeys _ hp) (hvalues _ hp)⟩
    have henc : encodeMap (encodeAt network key) (encodeAt network value) path'
        (.schema (.map key value)) w = .ok d := encodeMap_of_form hpairs hw h
    cases hw with
    | map => exact henc
    | list => exact henc
    | record => exact henc

theorem formsAgree_option {inner : Schema} (hinner : FormsAgree network inner) :
    FormsAgree network (.option inner) := by
  intro path path' v w d hw h
  cases hw with
  | absent => exact h
  | present hw =>
    obtain ⟨e, he, hd⟩ := bind_eq_ok_iff.mp h
    exact bind_eq_ok_iff.mpr ⟨e, hinner _ _ _ _ e hw he, hd⟩
  | bare hw hbare =>
    obtain ⟨e, he, hd⟩ := bind_eq_ok_iff.mp h
    have hcontent : encodeAt network inner path' w = .ok e := hinner _ _ _ _ e hw he
    cases w with
    | absent => exact hbare.elim
    | present _ => exact hbare.elim
    | data _ => exact hbare.elim
    | _ => exact bind_eq_ok_iff.mpr ⟨e, hcontent, hd⟩

theorem formsAgree_tuple {items : List Schema} (hitems : ∀ s ∈ items, FormsAgree network s) :
    FormsAgree network (.tuple items) := by
  intro path path' v w d hw h
  cases hw with
  | @tuple _ vs ws hlen hforms =>
    simp only [encodeAt, ← hlen] at h ⊢
    split at h
    · cases h
    · rename_i hcount
      obtain ⟨ds, hds, hd⟩ := bind_eq_ok_iff.mp h
      rw [if_neg hcount]
      exact bind_eq_ok_iff.mpr ⟨ds, encodeItems_of_hasForm 0 0 hitems hlen hforms hds, hd⟩

/-- No form of a record passes as encoded data. -/
theorem encodeAt_record {fields : List (Field Schema)} {parts : List (String × Value)}
    (hw : RecordForm parts w) : encodeAt network (.record fields) path w = do
      let source ← recordSource path fields w
      let encoded ← fromSource fields path source (encodeNamed network fields path)
        (encodePositional network fields path)
      return collapse encoded := by
  cases hw with
  | named => rfl
  | positional => rfl

theorem encodeAt_enum {variants : List (Variant Schema)} {name : String}
    {parts : List (String × Value)} (hw : VariantForm name parts w) :
    encodeAt network (.enum variants) path w =
      (variantSource path variants w >>= fun r =>
        encodeVariant network variants path r.1 r.2) := by
  cases hw with
  | named => rfl
  | entry => rfl
  | alone => rfl

theorem formsAgree_record {fields : List (Field Schema)} (hnd : (fields.map (·.name)).Nodup)
    (hfields : ∀ f ∈ fields, FormsAgree network f.type) : FormsAgree network (.record fields) := by
  intro path path' v w d hw h
  cases hw with
  | record hnames hparts hforms hw =>
    obtain ⟨_, ⟨⟩, h⟩ := bind_eq_ok_iff.mp h
    obtain ⟨ds, hds, hd⟩ := bind_eq_ok_iff.mp h
    obtain ⟨source, hsupplies, hsource⟩ := exists_recordSource path' fields hw
    have hsame := fromSource_of_hasForm path' hnd hfields hnames hparts hforms hsupplies hds
    rw [encodeAt_record hw]
    exact bind_eq_ok_iff.mpr ⟨source, hsource, bind_eq_ok_iff.mpr ⟨ds, hsame, hd⟩⟩

theorem formsAgree_enum {variants : List (Variant Schema)}
    (hcheck : Schema.checkVariants [] 0 variants = .ok ())
    (hfields : ∀ v ∈ variants, ∀ f ∈ v.fields, FormsAgree network f.type) :
    FormsAgree network (.enum variants) := by
  intro path path' v w d hw h
  obtain ⟨hnd, -, -, hchecks⟩ := Schema.checkVariants_eq_ok_iff.mp hcheck
  cases hw with
  | @enum _ variant _ _ _ hmem hnames hparts hforms hw =>
    obtain ⟨hfnd, -, -⟩ := Schema.checkFields_eq_ok_iff.mp (hchecks variant hmem)
    obtain ⟨position, hat⟩ := List.getElem?_of_mem hmem
    have hfind := find?_name_of_getElem? hnd hat
    obtain ⟨_, ⟨⟩, h⟩ := bind_eq_ok_iff.mp h
    dsimp only at h
    rw [encodeVariant_eq, hfind] at h
    obtain ⟨ds, hds, hd⟩ := bind_eq_ok_iff.mp h
    obtain ⟨source, hsupplies, hsource⟩ := exists_variantSource path' variants hw
    have hsame := fromSource_of_hasForm (path'.field variant.name) hfnd (hfields variant hmem)
      hnames hparts hforms hsupplies hds
    have hvariant : encodeVariant network variants path' variant.name source = .ok d := by
      rw [encodeVariant_eq, hfind]
      exact bind_eq_ok_iff.mpr ⟨ds, hsame, hd⟩
    rw [encodeAt_enum hw]
    exact bind_eq_ok_iff.mpr ⟨(variant.name, source), hsource, hvariant⟩

/-! ## 5. All of them -/

/-- Under a well-formed schema every form of a value is encoded as the value is. -/
theorem formsAgree_of_check (s : Schema) (hs : s.check = .ok ()) : FormsAgree network s :=
  Schema.induct_check formsAgree_primitive (fun _ => formsAgree_list) (fun _ _ => formsAgree_map)
    (fun _ => formsAgree_option) (fun _ => formsAgree_tuple) (fun _ => formsAgree_record)
    (fun _ => formsAgree_enum) s hs

end Codec

/-! ## 6. Canonical values -/

theorem Value.IsHashChoice.hashVariantForm {first second : String} {v : Value}
    (h : v.IsHashChoice first second) : HashVariantForm v v := by
  obtain ⟨_, ⟨hash, rfl, -⟩, rfl | rfl⟩ := h
  · exact ⟨_, hash, _, rfl, .raw, rfl⟩
  · exact ⟨_, hash, _, rfl, .raw, rfl⟩

theorem Value.IsToken.tokenForm {t : Value × Value} (h : IsToken t) : TokenForm t t := by
  obtain ⟨name, amount, rfl⟩ := h
  exact ⟨name, amount, rfl, .raw, .int⟩

theorem Value.IsPolicy.policyForm {p : Value × Value} (h : IsPolicy p) : PolicyForm p p := by
  obtain ⟨hash, tokens, rfl, htokens⟩ := h
  exact ⟨hash, tokens, tokens, rfl, .raw, rfl,
    List.forall₂_same.mpr fun t ht => (htokens t ht).tokenForm⟩

/-- A canonical value is one of its own forms. -/
theorem Primitive.hasForm_self {network : Network} {p : Primitive} {v : Value}
    (h : p.Canonical network v) : p.HasForm v v := by
  cases p with
  | bool | string | data => rfl
  | int | time | duration =>
    obtain ⟨n, rfl⟩ := h
    exact ⟨n, rfl, .int⟩
  | real =>
    obtain ⟨r, rfl⟩ := h
    exact ⟨r, rfl, .real⟩
  | byteArray =>
    obtain ⟨b, rfl⟩ := h
    exact ⟨b, rfl, .raw⟩
  | pubKeyHash | validatorHash | mintingPolicyHash | stakingValidatorHash | scriptHash | datumHash
  | txId =>
    obtain ⟨b, rfl, -⟩ := h
    exact ⟨b, rfl, .raw⟩
  | txOutputId =>
    obtain ⟨_, index, ⟨id, rfl, -⟩, rfl⟩ := h
    exact ⟨id, index, rfl, .record .raw .int (reordering_self _)⟩
  | credential | stakingHash => exact h.hashVariantForm
  | stakingCredential =>
    obtain ⟨_, h, rfl⟩ | ⟨_, _, _, ⟨slot, rfl, -⟩, ⟨txIndex, rfl, -⟩, ⟨certIndex, rfl, -⟩, rfl⟩ := h
    · exact .hash h.hashVariantForm
    · exact .pointer .int .int .int (reordering_self _)
  | address =>
    obtain ⟨a, rfl, -⟩ := h
    exact ⟨a, rfl, .structured⟩
  | assetClass =>
    obtain ⟨policy, token, rfl⟩ := h
    exact ⟨policy, token, rfl, .record .raw .raw (reordering_self _)⟩
  | value =>
    obtain ⟨policies, rfl, h⟩ := h
    exact .map (List.forall₂_same.mpr fun p hp => (h p hp).policyForm)
  | ratio =>
    obtain ⟨top, bottom, -, rfl⟩ := h
    exact ⟨top, bottom, _, _, rfl, .int, .int, .named (reordering_self _)⟩

theorem zip_self {α : Type} (l : List α) : l.zip l = l.map fun a => (a, a) := by
  induction l with
  | nil => rfl
  | cons a l ih => rw [List.zip_cons_cons, ih, List.map_cons]

/-- A canonical value is one of its own forms. -/
theorem Schema.hasForm_self {network : Network} {s : Schema} {v : Value}
    (h : s.Canonical network v) : s.HasForm v v := by
  induction h with
  | primitive h => exact .primitive (Primitive.hasForm_self h)
  | list _ ih =>
    refine .list rfl ?_
    rw [zip_self]
    exact List.forall_mem_map.mpr ih
  | map _ _ ihkeys ihvalues =>
    refine .map rfl ?_ ?_ .map
    · rw [zip_self]
      exact List.forall_mem_map.mpr ihkeys
    · rw [zip_self]
      exact List.forall_mem_map.mpr ihvalues
  | present _ ih => exact .present ih
  | absent => exact .absent
  | tuple _ _ ih =>
    refine .tuple rfl ?_
    rw [zip_self, List.zip_map_right]
    exact List.forall_mem_map.mpr ih
  | record hnames _ ih =>
    refine .record hnames rfl ?_ (.named (reordering_self _))
    rw [zip_self, List.zip_map_right]
    exact List.forall_mem_map.mpr ih
  | enum hmem hnames _ ih =>
    refine .enum hmem hnames rfl ?_ (.named (reordering_self _))
    rw [zip_self, List.zip_map_right]
    exact List.forall_mem_map.mpr ih

namespace Codec

/-- **All forms of a value encode alike.**  Under a well-formed schema a canonical value is one of
its own forms, and there is data that is decoded to it and that all of its forms are encoded as. -/
theorem forms_encode_alike {network : Network} {s : Schema} {v : Value} (hs : s.check = .ok ())
    (hv : s.Canonical network v) :
    s.HasForm v v ∧ ∃ d, decode network s d = .ok v ∧ encode network s v = .ok d ∧
      ∀ w, s.HasForm v w → encode network s w = .ok d := by
  obtain ⟨d, hd⟩ := (reachedIff_decodeAt network s hs v .top).mpr hv
  have henc : encode network s v = .ok d := reversible_of_check s hs .top .top d v hd
  exact ⟨Schema.hasForm_self hv, d, hd, henc,
    fun w hw => formsAgree_of_check s hs .top .top v w d hw henc⟩

namespace Example

/-- What is on sale, for how much, with which labels, and how it ended. -/
def saleSchema : Schema :=
  .record [⟨"item", .primitive .assetClass⟩, ⟨"until", .option (.primitive .time)⟩,
    ⟨"price", .option (.primitive .real)⟩,
    ⟨"labels", .map (.primitive .byteArray) (.primitive .int)⟩,
    ⟨"state", .enum [⟨"Open", 0, []⟩,
      ⟨"Sold", 1, [⟨"fee", .primitive .ratio⟩, ⟨"to", .primitive .credential⟩]⟩]⟩]

def buyer : Bytes := List.replicate 28 0xbb

def sale : Value :=
  .record [("item", .record [("mph", .bytes [0x0a]), ("token_name", .bytes [0xff])]),
    ("until", .absent), ("price", .present (.real ⟨.ofUInt64 1500000⟩)),
    ("labels", .map [(.bytes [0xcd], .int (.ofUInt64 7))]),
    ("state", .variant "Sold"
      [("fee", .record [("top", .int (.ofUInt64 1)), ("bottom", .int (.ofUInt64 20))]),
        ("to", .variant "PubKey" [("hash", .bytes buyer)])])]

/-- The fee as a list with a text in it, and the buyer's hash in upper case. -/
def looseEnd : List (String × Value) :=
  [("fee", .list [.text "1", .int (.ofUInt64 20)]),
    ("to", .variant "PubKey" [("hash", .text (String.ofList (List.replicate 56 'B')))])]

/-- Every part in another form. -/
def looseParts : List (String × Value) :=
  [("item", .text ("0A" ++ "." ++ "fF")), ("until", .absent), ("price", .text "1.5"),
    ("labels", .record [("Cd", .text " +07")]),
    ("state", .record [("Sold", .list (looseEnd.map (·.2)))])]

/-- The same sale: the parts are reversed, and the one that is absent is left out. -/
def looseSale : Value := .record (looseParts.eraseIdx 1).reverse

theorem canonical_sale : saleSchema.Canonical .testnet sale := by
  refine (reachedIff_decodeAt .testnet saleSchema rfl sale .top).mp ⟨.list
    [.constr 0 [.bytes [0x0a], .bytes [0xff]], .constr 1 [], .constr 0 [.int (.ofUInt64 1500000)],
      .map [(.bytes [0xcd], .int (.ofUInt64 7))],
      .constr 1 [.list [.int (.ofUInt64 1), .int (.ofUInt64 20)], .constr 0 [.bytes buyer]]], ?_⟩
  rfl

theorem hasForm_looseSale : saleSchema.HasForm sale looseSale := by
  have hitem : (Schema.primitive .assetClass).HasForm
      (.record [("mph", .bytes [0x0a]), ("token_name", .bytes [0xff])])
      (.text ("0A" ++ "." ++ "fF")) :=
    .primitive ⟨_, _, rfl, .text (.text (by decide +kernel)) (.text (by decide +kernel))⟩
  have hprice : (Schema.option (.primitive .real)).HasForm
      (.present (.real ⟨.ofUInt64 1500000⟩)) (.text "1.5") := by
    refine .bare (.primitive ⟨_, rfl, .text ?_ (Text.padded_self _)⟩) trivial
    exact ⟨false, _, ['1'], ['5'], .plain _, .point ['1'] ['5'], rfl,
      List.forall_mem_singleton.mpr rfl, by decide, by decide⟩
  have hseven : (Int128.ofUInt64 7).HasForm (.text " +07") := by
    refine .text ⟨false, ['0', '7'], .plus _, by decide⟩ ?_
    exact ⟨[' '], [], rfl, List.forall_mem_singleton.mpr rfl, List.forall_mem_nil _⟩
  have hlabels : (Schema.map (.primitive .byteArray) (.primitive .int)).HasForm
      (.map [(.bytes [0xcd], .int (.ofUInt64 7))]) (.record [("Cd", .text " +07")]) := by
    refine @Schema.HasForm.map _ _ _ [(.text "Cd", .text " +07")] _ rfl ?_ ?_ (.record rfl)
    · exact List.forall_mem_singleton.mpr (.primitive ⟨_, rfl, .text (by decide +kernel)⟩)
    · exact List.forall_mem_singleton.mpr (.primitive ⟨_, rfl, hseven⟩)
  have hfee : (Schema.primitive .ratio).HasForm
      (.record [("top", .int (.ofUInt64 1)), ("bottom", .int (.ofUInt64 20))])
      (.list [.text "1", .int (.ofUInt64 20)]) := by
    refine .primitive ⟨_, _, .text "1", .int (.ofUInt64 20), rfl,
      .text ?_ (Text.padded_self _), .int, .positional⟩
    exact ⟨false, ['1'], .plain _, by decide⟩
  have hto : (Schema.primitive .credential).HasForm (.variant "PubKey" [("hash", .bytes buyer)])
      (.variant "PubKey" [("hash", .text (String.ofList (List.replicate 56 'B')))]) :=
    .primitive ⟨_, _, _, rfl, .text (by decide +kernel), rfl⟩
  have hstate : (Schema.enum [⟨"Open", 0, []⟩, ⟨"Sold", 1, [⟨"fee", .primitive .ratio⟩,
      ⟨"to", .primitive .credential⟩]⟩]).HasForm
      (.variant "Sold" [
        ("fee", .record [("top", .int (.ofUInt64 1)), ("bottom", .int (.ofUInt64 20))]),
        ("to", .variant "PubKey" [("hash", .bytes buyer)])])
      (.record [("Sold", .list (looseEnd.map (·.2)))]) := by
    refine .enum (.tail _ (.head _)) rfl ?_ ?_ (.entry .positional)
    · rfl
    · exact List.forall_mem_cons.mpr ⟨hfee, List.forall_mem_singleton.mpr hto⟩
  refine @Schema.HasForm.record _ _ looseParts _ rfl rfl ?_ (.named ?_)
  · refine List.forall_mem_cons.mpr ⟨hitem, List.forall_mem_cons.mpr ⟨.absent, ?_⟩⟩
    refine List.forall_mem_cons.mpr ⟨hprice, List.forall_mem_cons.mpr ⟨hlabels, ?_⟩⟩
    exact List.forall_mem_singleton.mpr hstate
  · refine ⟨looseParts.eraseIdx 1, List.eraseIdx_sublist _ _, ?_, List.reverse_perm _⟩
    simp [looseParts]

theorem forms_encode_alike_sale : saleSchema.check = .ok () ∧
    saleSchema.Canonical .testnet sale ∧ saleSchema.HasForm sale looseSale ∧
    ∃ d, encode .testnet saleSchema sale = .ok d ∧
      encode .testnet saleSchema looseSale = .ok d := by
  obtain ⟨-, d, -, hsale, hall⟩ := forms_encode_alike (s := saleSchema) rfl canonical_sale
  exact ⟨rfl, canonical_sale, hasForm_looseSale, d, hsale, hall looseSale hasForm_looseSale⟩

end Example

end Codec

end ScriptBundle

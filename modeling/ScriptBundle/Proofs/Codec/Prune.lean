/-
# Leaving out what encoding does not read

Encoding looks fields up by name and takes the first entry that it finds.  Of an entry that comes
later under the same name it takes no notice.  Records and variants of the schema do refuse a name
that they do not declare, but the primitives that are given by name only look up what they need.

`Schema.prune` leaves out of a value just that: all but the first entry of each name, and in
primitives also the entries of other names.  Nobody notices: the pruned value is encoded as the same
data, and refused with the same complaint (`unnoticed_of_check`).

The schema has to be well formed for the names of its fields: an entry is pruned under the schema of
one field, and no other field may read it.
-/
import ScriptBundle.Proofs.Codec.Place

namespace ScriptBundle

open Codec Value

/-! ## 1. Primitives -/

namespace Primitive

/-- A choice between hashes, without what is not its hash. -/
def pruneHash : Value → Value
  | .variant name entries => .variant name (kept ["hash"] entries)
  | v => v

/-- The value without the entries that the rule of a primitive does not read. -/
def prune (p : Primitive) (v : Value) : Value :=
  match p, v with
  | .txOutputId, .record entries => .record (kept ["tx_id", "index"] entries)
  | .assetClass, .record entries => .record (kept ["mph", "token_name"] entries)
  | .ratio, .record entries => .record (kept ["top", "bottom"] entries)
  | .credential, v | .stakingHash, v => pruneHash v
  | .stakingCredential, .variant name entries =>
    match name with
    | "Hash" => .variant "Hash" (mapEntries (fun _ => pruneHash) (kept ["hash"] entries))
    | "Pointer" => .variant "Pointer" (kept ["slot", "tx_index", "cert_index"] entries)
    | name => .variant name entries
  | _, v => v

variable {network : Network} {path : Path} {p : Primitive} {v : Value}

theorem fieldOf_record_kept {name : String} {declared : List String} (h : name ∈ declared)
    (entries : List (String × Value)) :
    fieldOf path name (.record (kept declared entries)) = fieldOf path name (.record entries) := by
  rw [fieldOf, fieldOf, field?, field?, entry?_kept h]

theorem fieldOf_variant_kept {name variant : String} {declared : List String} (h : name ∈ declared)
    (entries : List (String × Value)) :
    fieldOf path name (.variant variant (kept declared entries)) =
      fieldOf path name (.variant variant entries) := by
  rw [fieldOf, fieldOf, field?, field?, entry?_kept h]

theorem hashVariantOf_pruneHash (v : Value) :
    hashVariantOf path p (pruneHash v) = hashVariantOf path p v := by
  cases v with
  | variant name entries =>
    simp only [pruneHash, hashVariantOf, fieldOf_variant_kept (List.mem_singleton_self _)]
  | _ => rfl

theorem ofValue_pruneHash (v : Value) :
    StakingHash.ofValue path (pruneHash v) = StakingHash.ofValue path v := by
  rw [StakingHash.ofValue, hashVariantOf_pruneHash, StakingHash.ofValue]

/-- **A primitive does not notice what is pruned.** -/
theorem encode_prune (p : Primitive) (v : Value) :
    p.encode network path (p.prune v) = p.encode network path v := by
  cases p with
  | txOutputId =>
    cases v with
    | record entries => simp [prune, encode, encodeTxOutputId, fieldOf_record_kept]
    | _ => rfl
  | assetClass =>
    cases v with
    | record entries => simp [prune, encode, encodeAssetClass, fieldOf_record_kept]
    | _ => rfl
  | ratio =>
    cases v with
    | record entries => simp [prune, encode, encodeRatio, fieldOf_record_kept]
    | _ => rfl
  | credential => simp only [prune, encode, Credential.ofValue, hashVariantOf_pruneHash]
  | stakingHash => simp only [prune, encode, ofValue_pruneHash]
  | stakingCredential =>
    cases v with
    | variant name entries =>
      simp only [prune]
      split
      · -- the hash is looked up first, and then pruned like any other
        simp only [encode, StakingCredential.ofValue, fieldOf, field?, entry?_mapEntries,
          entry?_kept (List.mem_singleton_self _)]
        cases entry? "hash" entries with
        | none => rfl
        | some w => simp [bind, Except.bind, ofValue_pruneHash]
      · simp [encode, StakingCredential.ofValue, StakingCredential.pointerField,
          fieldOf_variant_kept]
      · rfl
    | _ => rfl
  | _ => rfl

/-- A value that is bare stays bare, since a record is left a record and a variant a variant. -/
theorem bare_prune (p : Primitive) (hv : v.Bare) : (p.prune v).Bare := by
  have hhash : (pruneHash v).Bare := by
    cases v with
    | variant name entries => trivial
    | _ => exact hv
  unfold prune
  split
  · trivial
  · trivial
  · trivial
  · exact hhash
  · exact hhash
  · split <;> trivial
  · exact hv

end Primitive

/-! ## 2. Along the schema -/

/-- The same name with another part. -/
def Field.map {σ τ : Type} (g : σ → τ) (f : Field σ) : Field τ := ⟨f.name, g f.type⟩

namespace Value

/-- Applies functions by position to as many values as there are. -/
def zipApply : List (Value → Value) → List Value → List Value
  | g :: gs, v :: values => g v :: zipApply gs values
  | _, values => values

/-- A key and its value, if that is what the list holds. -/
def pruneListed (key value : Value → Value) : Value → Value
  | .list [k, v] => .list [key k, value v]
  | v => v

def pruneList (item : Value → Value) : Value → Value
  | .list items => .list (items.map item)
  | v => v

def pruneMap (key value : Value → Value) : Value → Value
  | .map pairs => .map (pairs.map (Prod.map key value))
  | .list items => .list (items.map (pruneListed key value))
  | .record entries => .record (mapEntries (fun _ => value) entries)
  | v => v

def pruneOption (inner : Value → Value) : Value → Value
  | .absent => .absent
  | .data d => .data d
  | .present v => .present (inner v)
  | v => inner v

def pruneTuple (items : List (Value → Value)) : Value → Value
  | .list values => .list (zipApply items values)
  | v => v

/-- Prunes a value for the field of a name, if there is one. -/
def pruneField (fields : List (Field (Value → Value))) (name : String) (v : Value) : Value :=
  match fields.find? (·.name = name) with
  | some f => f.type v
  | none => v

def pruneNamed (fields : List (Field (Value → Value))) (entries : List (String × Value)) :
    List (String × Value) :=
  mapEntries (pruneField fields) (firsts entries)

def pruneSource (fields : List (Field (Value → Value))) : Source → Source
  | .named entries => .named (pruneNamed fields entries)
  | .positional values => .positional (zipApply (fields.map (·.type)) values)

def pruneRecord (fields : List (Field (Value → Value))) : Value → Value
  | .record entries => .record (pruneNamed fields entries)
  | .list values => .list (zipApply (fields.map (·.type)) values)
  | v => v

def pruneVariant (fields : List (Field (Value → Value))) : Value → Value
  | .variant name entries => .variant name (pruneNamed fields entries)
  | .record [(name, v)] => .record [(name, pruneRecord fields v)]
  | v => v

/-- Prunes the parts of the variant that the value names, if there is one. -/
def pruneEnum (variants : List (Variant (Value → Value))) (v : Value) : Value :=
  match v.asVariant? with
  | some (name, _) =>
    match variants.find? (·.name = name) with
    | some named => pruneVariant named.fields v
    | none => v
  | none => v

end Value

namespace Schema

mutual
/-- The value without the entries that are not read when it is encoded. -/
def prune : Schema → Value → Value
  | .primitive p => p.prune
  | .list item => pruneList (prune item)
  | .map key value => pruneMap (prune key) (prune value)
  | .option inner => pruneOption (prune inner)
  | .tuple items => pruneTuple (pruneItems items)
  | .record fields => pruneRecord (pruneFields fields)
  | .enum variants => pruneEnum (pruneVariants variants)

def pruneItems : List Schema → List (Value → Value)
  | [] => []
  | s :: rest => prune s :: pruneItems rest

def pruneFields : List (Field Schema) → List (Field (Value → Value))
  | [] => []
  | ⟨name, s⟩ :: rest => ⟨name, prune s⟩ :: pruneFields rest

def pruneVariants : List (Variant Schema) → List (Variant (Value → Value))
  | [] => []
  | ⟨name, tag, fields⟩ :: rest => ⟨name, tag, pruneFields fields⟩ :: pruneVariants rest
end

@[simp] theorem pruneItems_eq (items : List Schema) : pruneItems items = items.map prune := by
  induction items with
  | nil => rfl
  | cons s rest ih => rw [pruneItems, ih, List.map_cons]

@[simp] theorem pruneFields_eq (fields : List (Field Schema)) :
    pruneFields fields = fields.map (Field.map prune) := by
  induction fields with
  | nil => rfl
  | cons f rest ih => rw [pruneFields, ih, List.map_cons, Field.map]

/-- The variant of a name prunes its own fields. -/
theorem find?_pruneVariants (variants : List (Variant Schema)) (name : String) :
    ((pruneVariants variants).find? (·.name = name)).map (·.fields) =
      (variants.find? (·.name = name)).map fun v => pruneFields v.fields := by
  induction variants with
  | nil => rfl
  | cons v rest ih =>
    by_cases h : v.name = name
    · simp [pruneVariants, h]
    · simpa [pruneVariants, h] using ih

end Schema

namespace Value

variable {fields : List (Field (Value → Value))} {v : Value} {source : Source}

@[simp] theorem length_zipApply (gs : List (Value → Value)) (values : List Value) :
    (zipApply gs values).length = values.length := by
  induction gs generalizing values with
  | nil => cases values <;> rfl
  | cons g gs ih =>
    cases values with
    | nil => rfl
    | cons v values => rw [zipApply, List.length_cons, ih, List.length_cons]

theorem entry?_pruneNamed (name : String) (entries : List (String × Value)) :
    entry? name (pruneNamed fields entries) =
      (Value.entry? name entries).map (pruneField fields name) := by
  rw [pruneNamed, entry?_mapEntries, entry?_firsts]

theorem nodup_pruneNamed (fields : List (Field (Value → Value))) (entries : List (String × Value)) :
    ((pruneNamed fields entries).map (·.1)).Nodup := by
  rw [pruneNamed, names_mapEntries]
  exact nodup_firsts entries

/-- The parts of a pruned record are the pruned parts of the record. -/
theorem asRecord?_pruneRecord (fields : List (Field (Value → Value))) (v : Value) :
    (pruneRecord fields v).asRecord? = v.asRecord?.map (pruneSource fields) := by
  cases v <;> rfl

theorem asVariant?_pruneVariant (fields : List (Field (Value → Value))) (v : Value) :
    (pruneVariant fields v).asVariant? = v.asVariant?.map (Prod.map id (pruneSource fields)) := by
  unfold pruneVariant
  split
  · rfl
  · rename_i name w
    cases w <;> rfl
  · rename_i hvariant hrecord
    unfold asVariant?
    split
    · exact absurd rfl (hvariant _ _)
    · rfl
    · exact absurd rfl (hrecord _ _)
    · exact absurd rfl (hrecord _ _)
    · rfl

/-- A value is pruned as the variant that it names. -/
theorem prune_enum {variants : List (Variant Schema)} {variant : Variant Schema} {name : String}
    (hsource : v.asVariant? = some (name, source))
    (hvariant : variants.find? (·.name = name) = some variant) :
    (Schema.enum variants).prune v =
      pruneVariant (variant.fields.map (Field.map Schema.prune)) v := by
  have hfind := Schema.find?_pruneVariants variants name
  rw [hvariant, Option.map_some, Option.map_eq_some_iff] at hfind
  obtain ⟨pruned, hpruned, hfields⟩ := hfind
  simp only [Schema.prune, pruneEnum, hsource, hpruned, hfields, Schema.pruneFields_eq]

/-- If it names none, it is left as it is. -/
theorem prune_enum_cases (variants : List (Variant Schema)) (v : Value) :
    (∃ name source variant, v.asVariant? = some (name, source) ∧
      variants.find? (·.name = name) = some variant) ∨ (Schema.enum variants).prune v = v := by
  cases hsource : v.asVariant? with
  | none => exact .inr (by simp only [Schema.prune, pruneEnum, hsource])
  | some named =>
    obtain ⟨name, source⟩ := named
    cases hvariant : variants.find? (·.name = name) with
    | some variant => exact .inl ⟨name, source, variant, rfl, hvariant⟩
    | none =>
      have hfind := Schema.find?_pruneVariants variants name
      rw [hvariant, Option.map_none, Option.map_eq_none_iff] at hfind
      exact .inr (by simp only [Schema.prune, pruneEnum, hsource, hfind])

theorem pruneRecord_of_none (h : v.asRecord? = none) : pruneRecord fields v = v := by
  cases v with
  | record _ | list _ => cases h
  | _ => rfl

theorem pruneOption_of_bare {inner : Value → Value} (hv : v.Bare) :
    pruneOption inner v = inner v := by
  cases v with
  | absent | present _ | data _ => exact hv.elim
  | _ => rfl

theorem bare_pruneRecord (hv : v.Bare) : (pruneRecord fields v).Bare := by
  cases v with
  | record _ | list _ => trivial
  | _ => exact hv

theorem bare_pruneVariant (hv : v.Bare) : (pruneVariant fields v).Bare := by
  unfold pruneVariant
  split
  · trivial
  · trivial
  · exact hv

end Value

/-- What is neither an option nor encoded data is neither after pruning. -/
theorem Schema.bare_prune (s : Schema) {v : Value} (hv : v.Bare) : (s.prune v).Bare := by
  induction s using Schema.induct generalizing v with
  | primitive p => exact p.bare_prune hv
  | list item _ =>
    cases v with
    | list items => trivial
    | _ => exact hv
  | map key value _ _ =>
    cases v with
    | map _ | list _ | record _ => trivial
    | _ => exact hv
  | option inner ih =>
    rw [Schema.prune, pruneOption_of_bare hv]
    exact ih hv
  | tuple items _ =>
    cases v with
    | list values => trivial
    | _ => exact hv
  | record fields _ => exact bare_pruneRecord hv
  | enum variants _ =>
    rcases prune_enum_cases variants v with ⟨_, _, _, hsource, hvariant⟩ | hprune
    · rw [prune_enum hsource hvariant]
      exact bare_pruneVariant hv
    · rw [hprune]
      exact hv

/-- There is nothing to prune from a text. -/
theorem Schema.prune_text (s : Schema) (name : String) : s.prune (.text name) = .text name := by
  induction s using Schema.induct with
  | primitive p => cases p <;> rfl
  | option inner ih => exact ih
  | enum variants _ =>
    rcases prune_enum_cases variants (.text name) with ⟨_, _, _, hsource, hvariant⟩ | hprune
    · rw [prune_enum hsource hvariant]
      rfl
    · exact hprune
  | _ => rfl

/-! ## 3. Nobody notices -/

namespace Codec

variable {network : Network} {path : Path} {v w : Value} {d : Data}

/-- A field is found under its name. -/
theorem find?_field_of_mem {σ : Type} {fields : List (Field σ)} {f : Field σ}
    (hnd : (fields.map (·.name)).Nodup) (hf : f ∈ fields) :
    fields.find? (·.name = f.name) = some f := by
  cases hfound : fields.find? (·.name = f.name) with
  | none => exact absurd (List.find?_eq_none.mp hfound f hf) (by simp)
  | some g =>
    have hname : g.name = f.name := by simpa using List.find?_some hfound
    rw [List.inj_on_of_nodup_map hnd (List.mem_of_find?_eq_some hfound) hf hname]

/-- The value of a field is pruned under the field's own schema. -/
theorem pruneField_of_mem {fields : List (Field Schema)} {f : Field Schema}
    (hnd : (fields.map (·.name)).Nodup) (hf : f ∈ fields) (v : Value) :
    pruneField (fields.map (Field.map Schema.prune)) f.name v = f.type.prune v := by
  have hfind : (fields.map (Field.map Schema.prune)).find? (·.name = f.name) =
      some (Field.map Schema.prune f) := by
    rw [List.find?_map]
    exact congrArg _ (find?_field_of_mem hnd hf)
  rw [pruneField, hfind]
  rfl

theorem each_prune {α β : Type} {f : Path → α → Result β} {g : α → α} (h : ∀ p a, f p (g a) = f p a)
    (items : List α) : each f path (items.map g) = each f path items := by
  unfold each
  generalize 0 = index
  induction items generalizing index with
  | nil => rfl
  | cons a rest ih => rw [List.map_cons, eachFrom, h, ih, eachFrom]

/-- Whatever comes of a value under a schema comes of it when it is pruned. -/
def Unnoticed (network : Network) (s : Schema) : Prop :=
  ∀ path v, encodeAt network s path (s.prune v) = encodeAt network s path v

section Fields

variable {fields : List (Field Schema)}

theorem encodePositional_prune (h : ∀ f ∈ fields, Unnoticed network f.type) (values : List Value) :
    encodePositional network fields path
      (zipApply ((fields.map (Field.map Schema.prune)).map (·.type)) values) =
      encodePositional network fields path values := by
  induction fields generalizing values with
  | nil => rfl
  | cons f fields ih =>
    cases values with
    | nil => rfl
    | cons v values =>
      rw [List.forall_mem_cons] at h
      simp only [List.map_cons, Field.map, zipApply, encodePositional, h.1 _ v]
      rw [← ih h.2 values]

theorem encodeFound_prune {f : Field Schema} (h : Unnoticed network f.type) (found : Option Value) :
    encodeFound network path f (found.map f.type.prune) = encodeFound network path f found := by
  cases found with
  | none => rfl
  | some v => exact h _ v

/-- `all` is the whole list of fields, of which `fields` are left. -/
theorem encodeNamed_prune {all : List (Field Schema)} (hnd : (all.map (·.name)).Nodup)
    (hsub : fields ⊆ all) (h : ∀ f ∈ all, Unnoticed network f.type)
    (entries : List (String × Value)) :
    encodeNamed network fields path (pruneNamed (all.map (Field.map Schema.prune)) entries) =
      encodeNamed network fields path entries := by
  induction fields with
  | nil => rfl
  | cons f fields ih =>
    rw [List.cons_subset] at hsub
    have hfield : pruneField (all.map (Field.map Schema.prune)) f.name = f.type.prune :=
      funext (pruneField_of_mem hnd hsub.1)
    rw [encodeNamed_cons, encodeNamed_cons, entry?_pruneNamed, hfield,
      encodeFound_prune (h f hsub.1), ih hsub.2]

theorem stray?_prune (pruners : List (Field (Value → Value))) (entries : List (String × Value)) :
    stray? fields (pruneNamed pruners entries) = stray? fields entries := by
  rw [stray?, pruneNamed, find?_mapEntries (fun name => fields.all fun f => f.name ≠ name),
    find?_firsts (fun name => fields.all fun f => f.name ≠ name), stray?, Option.map_map]
  rfl

theorem fromSource_prune (place : Path) (hnd : (fields.map (·.name)).Nodup)
    (h : ∀ f ∈ fields, Unnoticed network f.type) (source : Source) :
    fromSource fields place (pruneSource (fields.map (Field.map Schema.prune)) source)
        (encodeNamed network fields path) (encodePositional network fields path) =
      fromSource fields place source (encodeNamed network fields path)
        (encodePositional network fields path) := by
  cases source with
  | named entries =>
    simp only [pruneSource, fromSource, stray?_prune,
      encodeNamed_prune hnd (List.Subset.refl _) h]
  | positional values =>
    simp only [pruneSource, fromSource, length_zipApply, encodePositional_prune h]

end Fields

theorem encodeItems_prune {items : List Schema} (h : ∀ s ∈ items, Unnoticed network s) (index : Nat)
    (values : List Value) :
    encodeItems network items path index (zipApply (items.map Schema.prune) values) =
      encodeItems network items path index values := by
  induction items generalizing index values with
  | nil => rfl
  | cons s items ih =>
    cases values with
    | nil => rfl
    | cons v values =>
      rw [List.forall_mem_cons] at h
      rw [List.map_cons, zipApply, encodeItems, h.1, ih h.2, encodeItems]

section Maps

variable {key value : Schema} (hkey : Unnoticed network key) (hvalue : Unnoticed network value)
include hkey hvalue

theorem keyAndValue_prune (path : Path) (pair : Value × Value) :
    keyAndValue (encodeAt network key) (encodeAt network value) path
      (Prod.map key.prune value.prune pair) =
      keyAndValue (encodeAt network key) (encodeAt network value) path pair := by
  simp only [keyAndValue, Prod.map, hkey _ _, hvalue _ _]

theorem listedPair_prune (path : Path) (v : Value) :
    listedPair (encodeAt network key) (encodeAt network value) path
      (pruneListed key.prune value.prune v) =
      listedPair (encodeAt network key) (encodeAt network value) path v := by
  unfold pruneListed
  split
  · exact keyAndValue_prune hkey hvalue path (_, _)
  · rfl

omit hkey in
/-- The names of a record are its keys, and there is nothing to prune from a name. -/
theorem namedPairs_prune (entries : List (String × Value)) :
    namedPairs (encodeAt network key) (encodeAt network value) path
      (mapEntries (fun _ => value.prune) entries) =
      namedPairs (encodeAt network key) (encodeAt network value) path entries := by
  induction entries with
  | nil => rfl
  | cons e rest ih =>
    rw [mapEntries] at ih
    simp only [mapEntries, List.map_cons, namedPairs, keyAndValue, hvalue _ _, ih]

theorem unnoticed_map : Unnoticed network (.map key value) := by
  intro path v
  cases v with
  | map pairs =>
    simp only [Schema.prune, pruneMap, encodeAt, encodeMap,
      each_prune (keyAndValue_prune hkey hvalue)]
  | list items =>
    simp only [Schema.prune, pruneMap, encodeAt, encodeMap,
      each_prune (listedPair_prune hkey hvalue)]
  | record entries =>
    simp only [Schema.prune, pruneMap, encodeAt, encodeMap, namedPairs_prune hvalue]
  | _ => rfl

end Maps

theorem unnoticed_primitive (p : Primitive) : Unnoticed network (.primitive p) := by
  intro path v
  have hencode : ∀ {w : Value}, w.Bare → encodeAt network (.primitive p) path w =
      p.encode network path w := by
    intro w hw
    cases w with
    | data d => exact hw.elim
    | _ => rfl
  by_cases hv : v.Bare
  · rw [Schema.prune, hencode hv, hencode (p.bare_prune hv), p.encode_prune]
  · cases v with
    | absent | present _ | data _ => cases p <;> rfl
    | _ => exact absurd trivial hv

theorem unnoticed_list {item : Schema} (hitem : Unnoticed network item) :
    Unnoticed network (.list item) := by
  intro path v
  cases v with
  | list items => simp only [Schema.prune, pruneList, encodeAt, each_prune hitem]
  | _ => rfl

theorem unnoticed_option {inner : Schema} (hinner : Unnoticed network inner) :
    Unnoticed network (.option inner) := by
  intro path v
  by_cases hv : v.Bare
  · rw [Schema.prune, pruneOption_of_bare hv, encodeAt_bare hv,
      encodeAt_bare (Schema.bare_prune inner hv), hinner]
  · cases v with
    | absent | data _ => rfl
    | present w => simp only [Schema.prune, pruneOption, encodeAt, hinner _ w]
    | _ => exact absurd trivial hv

theorem unnoticed_tuple {items : List Schema} (hitems : ∀ s ∈ items, Unnoticed network s) :
    Unnoticed network (.tuple items) := by
  intro path v
  cases v with
  | list values =>
    simp only [Schema.prune, pruneTuple, Schema.pruneItems_eq, encodeAt, length_zipApply,
      encodeItems_prune hitems]
  | _ => rfl

theorem unnoticed_record {fields : List (Field Schema)} (hnd : (fields.map (·.name)).Nodup)
    (hfields : ∀ f ∈ fields, Unnoticed network f.type) : Unnoticed network (.record fields) := by
  intro path v
  rw [Schema.prune, Schema.pruneFields_eq]
  cases hsource : v.asRecord? with
  | none => rw [pruneRecord_of_none hsource]
  | some source =>
    have hpruned := asRecord?_pruneRecord (fields.map (Field.map Schema.prune)) v
    rw [hsource] at hpruned
    rw [encodeAt_of_asRecord? hsource, encodeAt_of_asRecord? hpruned,
      fromSource_prune path hnd hfields]

theorem unnoticed_enum {variants : List (Variant Schema)}
    (hcheck : Schema.checkVariants [] 0 variants = .ok ())
    (hfields : ∀ v ∈ variants, ∀ f ∈ v.fields, Unnoticed network f.type) :
    Unnoticed network (.enum variants) := by
  intro path v
  obtain ⟨-, -, -, hchecks⟩ := Schema.checkVariants_eq_ok_iff.mp hcheck
  rcases prune_enum_cases variants v with ⟨name, source, variant, hsource, hvariant⟩ | hprune
  · have hmem : variant ∈ variants := List.mem_of_find?_eq_some hvariant
    obtain ⟨hnd, -, -⟩ := Schema.checkFields_eq_ok_iff.mp (hchecks variant hmem)
    have hpruned := asVariant?_pruneVariant (variant.fields.map (Field.map Schema.prune)) v
    rw [hsource] at hpruned
    rw [prune_enum hsource hvariant, encodeAt_of_asVariant? hsource, encodeAt_of_asVariant? hpruned]
    simp only [encodeVariant_eq, hvariant, id, fromSource_prune _ hnd (hfields variant hmem)]
  · rw [hprune]

/-- **Nobody notices what is pruned.**  Under a well-formed schema the pruned value is encoded as
the value is, and refused with the same complaint where the value is refused. -/
theorem unnoticed_of_check (s : Schema) (hs : s.check = .ok ()) : Unnoticed network s :=
  Schema.induct_check unnoticed_primitive (fun _ => unnoticed_list) (fun _ _ => unnoticed_map)
    (fun _ => unnoticed_option) (fun _ => unnoticed_tuple) (fun _ => unnoticed_record)
    (fun _ => unnoticed_enum) s hs

end Codec

end ScriptBundle

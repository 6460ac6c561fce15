/-
# Schemas are read back from their documents

A schema is read level by level: the kind first, then the schemas directly inside it
(`Schema.children`).  A level of the document that was written for a schema is read back if all its
children are (`level?_toDocument`), and the children's documents nest less deeply than the schema's
own (`nesting_lt_of_mem_children`), so the depth that the reader is given is enough
(`ofDocument?_toDocument`).

With documents being read back from their texts, a schema's JSON text says which schema it is
(`toJson_injective`).
-/
import ScriptBundle.Proofs.Document
import ScriptBundle.Proofs.Json.Document
import ScriptBundle.Schema.Document

namespace ScriptBundle

namespace Schema

variable {read : Document → Option Schema} {byNumber : Bool}

/-! ## 1. The schemas inside a schema -/

/-- The schemas directly inside a schema. -/
def children : Schema → List Schema
  | .primitive _ => []
  | .list item => [item]
  | .map key value => [key, value]
  | .option inner => [inner]
  | .tuple items => items
  | .record fields => fields.map (·.type)
  | .enum variants => variants.flatMap fun v => v.fields.map (·.type)

/-! ## 2. How deep documents of schemas are -/

theorem toDocuments_eq_map (items : List Schema) : toDocuments items = items.map toDocument := by
  induction items with
  | nil => rfl
  | cons s rest ih => exact congrArg (toDocument s :: ·) ih

/-- The document of a field. -/
def fieldDocument (f : Field Schema) : Document :=
  .ofEntries [("name", .ofText f.name), ("type", toDocument f.type)]

/-- The document of a variant. -/
def variantDocument (v : Variant Schema) : Document :=
  .ofEntries [("name", .ofText v.name), ("tag", .ofNat v.tag.toNat),
    ("fields", .list (fieldDocuments v.fields))]

theorem fieldDocuments_eq_map (fields : List (Field Schema)) :
    fieldDocuments fields = fields.map fieldDocument := by
  induction fields with
  | nil => rfl
  | cons f rest ih => exact congrArg (fieldDocument f :: ·) ih

theorem variantDocuments_eq_map (variants : List (Variant Schema)) :
    variantDocuments variants = variants.map variantDocument := by
  induction variants with
  | nil => rfl
  | cons v rest ih => exact congrArg (variantDocument v :: ·) ih

theorem nesting_lt_fieldDocuments {f : Field Schema} {fields : List (Field Schema)}
    (h : f ∈ fields) :
    (toDocument f.type).nesting < Document.nestingAll (fieldDocuments fields) := by
  have hmem : fieldDocument f ∈ fieldDocuments fields := by
    rw [fieldDocuments_eq_map]
    exact List.mem_map_of_mem h
  have hfield : (toDocument f.type).nesting < (fieldDocument f).nesting := by
    simp [fieldDocument, Document.ofEntries, Document.nesting, Document.nestingEntries,
      Document.ofText]
  exact Nat.lt_of_lt_of_le hfield (Document.nesting_le_nestingAll hmem)

theorem nesting_lt_variantDocuments {v : Variant Schema} {variants : List (Variant Schema)}
    (h : v ∈ variants) : Document.nestingAll (fieldDocuments v.fields) <
      Document.nestingAll (variantDocuments variants) := by
  have hmem : variantDocument v ∈ variantDocuments variants := by
    rw [variantDocuments_eq_map]
    exact List.mem_map_of_mem h
  have hvariant : Document.nestingAll (fieldDocuments v.fields) < (variantDocument v).nesting := by
    simp only [variantDocument, Document.ofEntries, List.map_cons, Document.nesting,
      Document.nestingEntries]
    omega
  exact Nat.lt_of_lt_of_le hvariant (Document.nesting_le_nestingAll hmem)

theorem nesting_shaped {k : Kind} {name : String} (hk : k.parts = [name]) (d : Document) :
    (shaped k [d]).nesting = d.nesting + 1 := by
  simp [shaped, hk, Document.ofEntries, Document.nesting, Document.nestingEntries, Document.ofText]

theorem nesting_map (key value : Schema) : (toDocument (.map key value)).nesting =
    max (toDocument key).nesting (toDocument value).nesting + 1 := by
  change (shaped .map [toDocument key, toDocument value]).nesting = _
  simp [shaped, Kind.parts, Document.ofEntries, Document.nesting,
    Document.nestingEntries, Document.ofText]

/-- **Children nest less deeply.** -/
theorem nesting_lt_of_mem_children {s t : Schema} (h : t ∈ s.children) :
    (toDocument t).nesting < (toDocument s).nesting := by
  match s, h with
  | .list item, h =>
    obtain rfl := List.mem_singleton.mp h
    rw [toDocument, nesting_shaped rfl]
    exact Nat.lt_succ_self _
  | .map key value, h =>
    rw [nesting_map]
    rcases List.mem_cons.mp h with rfl | h
    · exact Nat.lt_succ_of_le (Nat.le_max_left _ _)
    · obtain rfl := List.mem_singleton.mp h
      exact Nat.lt_succ_of_le (Nat.le_max_right _ _)
  | .option inner, h =>
    obtain rfl := List.mem_singleton.mp h
    rw [toDocument, nesting_shaped rfl]
    exact Nat.lt_succ_self _
  | .tuple items, h =>
    rw [toDocument, nesting_shaped rfl, Document.nesting, toDocuments_eq_map]
    have hmem : toDocument t ∈ items.map toDocument := List.mem_map_of_mem h
    have hle := Document.nesting_le_nestingAll hmem
    omega
  | .record fields, h =>
    obtain ⟨f, hf, rfl⟩ := List.mem_map.mp h
    rw [toDocument, nesting_shaped rfl, Document.nesting]
    have hlt := nesting_lt_fieldDocuments hf
    omega
  | .enum variants, h =>
    obtain ⟨v, hv, h⟩ := List.mem_flatMap.mp h
    obtain ⟨f, hf, rfl⟩ := List.mem_map.mp h
    rw [toDocument, nesting_shaped rfl, Document.nesting]
    have hvariant := nesting_lt_variantDocuments hv
    have hfield := nesting_lt_fieldDocuments hf
    omega

/-! ## 3. Reading back -/

theorem fieldsOf?_fieldDocuments {fields : List (Field Schema)}
    (h : ∀ f ∈ fields, read (toDocument f.type) = some f.type) :
    fieldsOf? read (.list (fieldDocuments fields)) = some fields := by
  rw [fieldDocuments_eq_map]
  refine mapM_map_eq_some fun f hf => ?_
  change (read (toDocument f.type)).bind (fun s => some (⟨f.name, s⟩ : Field Schema)) = some f
  rw [h f hf]
  rfl

theorem variantOf?_variantDocument {v : Variant Schema}
    (h : ∀ f ∈ v.fields, read (toDocument f.type) = some f.type) :
    variantOf? read (variantDocument v) = some v := by
  change ((Document.ofNat v.tag.toNat).word?.bind fun tag =>
    (fieldsOf? read (.list (fieldDocuments v.fields))).bind fun fields =>
      some (⟨v.name, tag, fields⟩ : Variant Schema)) = some v
  rw [Document.word?_ofNat, fieldsOf?_fieldDocuments h]
  rfl

/-- **One level.**  A schema is read back if its children are. -/
theorem level?_toDocument {s : Schema} (h : ∀ t ∈ s.children, read (toDocument t) = some t) :
    level? byNumber read (toDocument s) = some s := by
  match s, h with
  | .primitive p, _ => cases p <;> rfl
  | .list item, h =>
    change (read (toDocument item)).bind (fun s => some (Schema.list s)) = _
    rw [h item List.mem_cons_self]
    rfl
  | .map key value, h =>
    change ((read (toDocument key)).bind fun k =>
      (read (toDocument value)).bind fun v => some (Schema.map k v)) = _
    rw [h key List.mem_cons_self, h value (List.mem_cons_of_mem _ List.mem_cons_self)]
    rfl
  | .option inner, h =>
    change (read (toDocument inner)).bind (fun s => some (Schema.option s)) = _
    rw [h inner List.mem_cons_self]
    rfl
  | .tuple items, h =>
    change ((toDocuments items).mapM read).bind (fun s => some (Schema.tuple s)) = _
    have hitems : (items.map toDocument).mapM read = some items := mapM_map_eq_some h
    rw [toDocuments_eq_map, hitems]
    rfl
  | .record fields, h =>
    change (fieldsOf? read (.list (fieldDocuments fields))).bind
      (fun s => some (Schema.record s)) = _
    rw [fieldsOf?_fieldDocuments fun f hf => h f.type (List.mem_map_of_mem hf)]
    rfl
  | .enum variants, h =>
    change ((variantDocuments variants).mapM (variantOf? read)).bind
      (fun s => some (Schema.enum s)) = _
    have hvariants : ∀ v ∈ variants, variantOf? read (variantDocument v) = some v := by
      refine fun v hv => variantOf?_variantDocument fun f hf => h f.type ?_
      exact List.mem_flatMap.mpr ⟨v, hv, List.mem_map_of_mem hf⟩
    rw [variantDocuments_eq_map, mapM_map_eq_some hvariants]
    rfl

theorem inner?_toDocument (s : Schema) (depth : Nat) (hdepth : (toDocument s).nesting ≤ depth) :
    inner? byNumber depth (toDocument s) = some s := by
  induction depth generalizing s with
  | zero =>
    cases s <;> simp [toDocument, shaped, Document.ofEntries, Document.nesting] at hdepth
  | succ depth ih =>
    refine level?_toDocument fun t ht => ih t ?_
    have hlt := nesting_lt_of_mem_children ht
    omega

/-- **Schemas are read back.**  Reading the document of a schema gives the schema, whether or not
kinds may be given by number. -/
theorem ofDocument?_toDocument (s : Schema) : ofDocument? byNumber (toDocument s) = some s :=
  level?_toDocument fun t ht =>
    inner?_toDocument t _ (Nat.le_of_lt (nesting_lt_of_mem_children ht))

/-- The document of a schema says which schema it is. -/
theorem toDocument_injective {s t : Schema} (h : toDocument s = toDocument t) : s = t := by
  have hread : ofDocument? true (toDocument s) = some s := ofDocument?_toDocument s
  rw [h, ofDocument?_toDocument] at hread
  exact (Option.some.inj hread).symm

/-- **The JSON text of a schema** says which schema it is. -/
theorem toJson_injective {s t : Schema} (h : s.toJson = t.toJson) : s = t :=
  toDocument_injective (Json.write_injective h)

end Schema

end ScriptBundle

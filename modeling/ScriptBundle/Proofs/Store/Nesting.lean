/-
# Records are read back up to a nesting

A record is read back from its bytes exactly if its document does not nest more lists and tables
than a text may (`BuildRecord.ofBytes?_toBytes_exact`).  Names and texts, numbers, absent and
present parts play no part in it.

What the reader looks at are the schemas, each with the depth that is left at its place, and whether
they are plain.  Two things lead from there to one bound on the whole record.

* Texts, words and truth values are always plain, so whatever is built from them alone is plain up
  to its nesting and no further (`Document.Measured`).
* Whether a record is plain up to the bound comes down to whether its schemas are, each at its place
  (`BuildRecord.isPlain_toDocument`), since what stands around them is flat.
-/
import ScriptBundle.Proofs.Schema.WellFormed
import ScriptBundle.Proofs.Store.Record

namespace ScriptBundle

open Document

variable {α : Type} {depth : Nat}

/-! ## 1. Plain up to the nesting -/

namespace Document

/-- A document can be kept exactly where there is room for its nesting. -/
def Measured (d : Document) : Prop := ∀ depth, d.isPlain depth = true ↔ d.nesting ≤ depth

theorem measured_ofText (s : String) : (ofText s).Measured := fun _ =>
  ⟨fun _ => Nat.zero_le _, fun _ => rfl⟩

theorem measured_bool (b : Bool) : (Document.bool b).Measured := fun _ =>
  ⟨fun _ => Nat.zero_le _, fun _ => rfl⟩

/-- A word needs no approximation. -/
theorem measured_word (w : UInt64) : (ofNat w.toNat).Measured := by
  intro depth
  have hword : (Number.whole false w.toNat).hasProduct = true := by
    simp [Number.hasProduct, w.toNat_lt]
  exact ⟨fun _ => Nat.zero_le _, fun _ => hword⟩

@[simp] theorem isPlain_ofText (s : String) : (ofText s).isPlain depth = true := rfl

@[simp] theorem isPlain_bool (b : Bool) : (Document.bool b).isPlain depth = true := rfl

@[simp] theorem isPlain_list (items : List Document) :
    (Document.list items).isPlain (depth + 1) = items.all (·.isPlain depth) := by
  have hall : arePlain depth items = items.all (·.isPlain depth) := by
    induction items with
    | nil => rfl
    | cons d rest ih => rw [arePlain, ih, List.all_cons]
  rw [isPlain, Nat.add_sub_cancel, hall]
  simp

theorem Measured.list {items : List Document} (h : ∀ d ∈ items, d.Measured) :
    (Document.list items).Measured := by
  intro depth
  cases depth with
  | zero => simp [isPlain, nesting]
  | succ depth =>
    rw [isPlain_list, nesting, Nat.succ_le_succ_iff, nestingAll_le_iff, List.all_eq_true]
    exact forall₂_congr fun d hd => h d hd depth

theorem haveAllPlain_map_some (es : List (String × Document)) :
    haveAllPlain depth (es.map fun (name, d) => (some name, d)) = es.all (·.2.isPlain depth) := by
  induction es with
  | nil => rfl
  | cons e rest ih => rw [List.map_cons, haveAllPlain, ih, List.all_cons]; rfl

/-- A table with well-formed names is plain if what it holds is. -/
@[simp] theorem isPlain_ofEntries (es : List (String × Document)) :
    (ofEntries es).isPlain (depth + 1) = es.all (·.2.isPlain depth) := by
  rw [ofEntries, isPlain, Nat.add_sub_cancel, haveAllPlain_map_some]
  simp

theorem Measured.ofEntries {es : List (String × Document)} (h : ∀ e ∈ es, e.2.Measured) :
    (ofEntries es).Measured := by
  intro depth
  cases depth with
  | zero => simp [Document.ofEntries, isPlain, nesting]
  | succ depth =>
    rw [isPlain_ofEntries, Document.ofEntries, nesting, Nat.succ_le_succ_iff,
      nestingEntries_le_iff, List.all_eq_true]
    exact forall₂_congr fun e he => h e he depth

/-! ## 2. Parts of records -/

theorem forall_mem_entryOf {P : Document → Prop} {name : String} {write : α → Document}
    {part : Option α} : (∀ e ∈ entryOf name write part, P e.2) ↔ ∀ a ∈ part, P (write a) := by
  cases part <;> simp [entryOf]

@[simp] theorem all_entryOf (name : String) (write : α → Document) (part : Option α) :
    ((entryOf name write part).all fun e => e.2.isPlain depth) =
      part.all fun a => (write a).isPlain depth := by
  cases part <;> simp [entryOf]

theorem Measured.ofNameMap {write : α → Document} {m : NameMap α}
    (h : ∀ a ∈ m.values, (write a).Measured) : (ofNameMap write m).Measured := by
  refine .ofEntries fun e he => ?_
  obtain ⟨e', he', rfl⟩ := List.mem_map.mp he
  exact h e'.2 (List.mem_map_of_mem he')

@[simp] theorem isPlain_ofNameMap (write : α → Document) (m : NameMap α) :
    (ofNameMap write m).isPlain (depth + 1) = m.values.all fun a => (write a).isPlain depth := by
  rw [Document.ofNameMap, isPlain_ofEntries, List.all_map, NameMap.values, List.all_map]
  rfl

end Document

/-! ## 3. Schemas -/

namespace Schema

theorem measured_shaped {k : Kind} {contents : List Document} (h : ∀ d ∈ contents, d.Measured) :
    (shaped k contents).Measured := by
  refine .ofEntries (List.forall_mem_cons.mpr ⟨measured_ofText _, fun e he => ?_⟩)
  exact h e.2 (List.of_mem_zip he).2

theorem measured_fieldDocuments {fields : List (Field Schema)}
    (h : ∀ f ∈ fields, (toDocument f.type).Measured) :
    ∀ d ∈ fieldDocuments fields, d.Measured := by
  rw [fieldDocuments_eq_map]
  refine List.forall_mem_map.mpr fun f hf => .ofEntries ?_
  simp only [List.forall_mem_cons]
  exact ⟨measured_ofText _, h f hf, List.forall_mem_nil _⟩

/-- The documents of schemas hold nothing but texts and tags. -/
theorem measured_toDocument (s : Schema) : s.toDocument.Measured := by
  induction s using Schema.induct with
  | primitive p => exact measured_shaped (List.forall_mem_singleton.mpr (measured_ofText _))
  | list item ih => exact measured_shaped (List.forall_mem_singleton.mpr ih)
  | map key value ihkey ihvalue =>
    exact measured_shaped
      (List.forall_mem_cons.mpr ⟨ihkey, List.forall_mem_singleton.mpr ihvalue⟩)
  | option inner ih => exact measured_shaped (List.forall_mem_singleton.mpr ih)
  | tuple items ih =>
    refine measured_shaped (List.forall_mem_singleton.mpr (.list ?_))
    rw [toDocuments_eq_map]
    exact List.forall_mem_map.mpr ih
  | record fields ih =>
    exact measured_shaped (List.forall_mem_singleton.mpr (.list (measured_fieldDocuments ih)))
  | enum variants ih =>
    refine measured_shaped (List.forall_mem_singleton.mpr (.list ?_))
    rw [variantDocuments_eq_map]
    refine List.forall_mem_map.mpr fun v hv => .ofEntries ?_
    simp only [List.forall_mem_cons]
    exact ⟨measured_ofText _, measured_word _, .list (measured_fieldDocuments (ih v hv)),
      List.forall_mem_nil _⟩

end Schema

/-! ## 4. Records -/

/-- The programs of a record are texts, whichever of them are there. -/
theorem CodeRecord.forall_mem_entries {P : Document → Prop} (hP : ∀ s, P (.ofText s))
    (c : CodeRecord) : ∀ e ∈ c.entries, P e.2 := by
  simp only [entries, List.forall_mem_append, List.forall_mem_cons, forall_mem_entryOf, hP]
  simp

theorem CodeRecord.all_entries (c : CodeRecord) :
    (c.entries.all fun e => e.2.isPlain depth) = true :=
  List.all_eq_true.mpr
    (c.forall_mem_entries (P := fun d => d.isPlain depth = true) fun _ => isPlain_ofText _)

namespace ValidatorRecord

theorem measured_toDocument (v : ValidatorRecord) : v.toDocument.Measured := by
  refine .ofEntries ?_
  simp only [List.forall_mem_append, List.forall_mem_cons, forall_mem_entryOf]
  have hnil : ∀ e ∈ ([] : List (String × Document)), e.2.Measured := List.forall_mem_nil _
  have hcodec : (Document.ofEntries [("is_mainnet", .bool v.network.isMainnet)]).Measured :=
    .ofEntries (List.forall_mem_singleton.mpr (measured_bool _))
  exact ⟨⟨⟨⟨⟨measured_ofText _, measured_ofText _, hnil⟩,
    v.code.forall_mem_entries measured_ofText⟩, hcodec, v.redeemer.measured_toDocument, hnil⟩,
    fun s _ => s.measured_toDocument⟩, .ofNameMap fun s _ => measured_ofText s, hnil⟩

/-- What stands around the schemas of a validator is flat. -/
theorem isPlain_toDocument (v : ValidatorRecord) : v.toDocument.isPlain (depth + 2) =
    (v.redeemer.isShallow (depth + 1) && v.datum.all (·.isShallow (depth + 1))) := by
  have hdependencies : (v.dependencies.values.all fun _ => true) = true := by simp
  simp [toDocument, Schema.isShallow, v.code.all_entries, hdependencies]

end ValidatorRecord

namespace UserFuncRecord

theorem measured_toDocument (f : UserFuncRecord) : f.toDocument.Measured := by
  have hnil : ∀ e ∈ ([] : List (String × Document)), e.2.Measured := List.forall_mem_nil _
  have hargument : ∀ a ∈ f.arguments, a.toDocument.Measured := by
    intro a _
    refine .ofEntries ?_
    simp only [List.forall_mem_cons]
    exact ⟨measured_ofText _, a.schema.measured_toDocument, measured_bool _, hnil⟩
  refine .ofEntries ?_
  simp only [List.forall_mem_append, List.forall_mem_cons, forall_mem_entryOf]
  exact ⟨⟨⟨f.code.forall_mem_entries measured_ofText,
    .list (List.forall_mem_map.mpr hargument), hnil⟩, fun s _ => s.measured_toDocument⟩,
    measured_bool _, measured_bool _, hnil⟩

/-- What stands around the schemas of a function is flat; those of arguments lie two levels deeper
than that of the result. -/
theorem isPlain_toDocument (f : UserFuncRecord) : f.toDocument.isPlain (depth + 3) =
    (f.arguments.all (·.schema.isShallow depth) && f.returns.all (·.isShallow (depth + 2))) := by
  have hargument : ∀ a : ArgumentRecord,
      a.toDocument.isPlain (depth + 1) = a.schema.toDocument.isPlain depth := fun a => by
    simp [ArgumentRecord.toDocument]
  simp [toDocument, Schema.isShallow, f.code.all_entries, Function.comp_def, hargument]

end UserFuncRecord

namespace BuildRecord

theorem measured_toDocument (r : BuildRecord) : r.toDocument.Measured := by
  refine .ofEntries ?_
  simp only [List.forall_mem_cons]
  exact ⟨measured_bool _, .ofNameMap fun v _ => v.measured_toDocument,
    .ofNameMap fun f _ => f.measured_toDocument, List.forall_mem_nil _⟩

/-- The bound on the text of a record is a bound on its schemas, each at its place. -/
theorem isPlain_toDocument (r : BuildRecord) : r.toDocument.isPlain textDepth = r.isShallow := by
  have hplain : r.toDocument.isPlain (122 + 5) =
      (r.validators.values.all (fun v => v.toDocument.isPlain (123 + 2)) &&
        r.userFuncs.values.all fun f => f.toDocument.isPlain (122 + 3)) := by
    simp [toDocument]
  simp only [ValidatorRecord.isPlain_toDocument, UserFuncRecord.isPlain_toDocument] at hplain
  exact hplain

/-- There is room for every schema if there is for the whole record. -/
theorem isShallow_iff {r : BuildRecord} :
    r.isShallow = true ↔ r.toDocument.nesting ≤ textDepth := by
  rw [← isPlain_toDocument]
  exact r.measured_toDocument textDepth

/-- **Records are read back up to a nesting.**  The bytes of a record are read as that record if its
document does not nest more lists and tables than a text may, and otherwise as none. -/
theorem ofBytes?_toBytes_exact (r : BuildRecord) :
    ofBytes? r.toBytes = if r.toDocument.nesting ≤ textDepth then some r else none := by
  rw [ofBytes?_toBytes]
  simp only [isShallow_iff]

end BuildRecord

end ScriptBundle

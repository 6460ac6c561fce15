/-
# Data trees are read back up to a nesting

The JSON text of a tree is read as that tree if it does not nest more lists and tables than a text
may, and otherwise as none (`Data.ofJson?_toJson_exact`).  Nothing else about a tree matters:
neither how large its numbers are, nor what its bytes are, nor whether a key of a map comes twice.

A node takes one level of the text, two or three, depending on its kind and, for a map, on whether
there is anything in it.  The reader counts the same levels down as it enters them, so it is
followed one node at a time: what a node adds is known, and what is left has to be enough for the
parts (`readsBack`).
-/
import ScriptBundle.Proofs.Document
import ScriptBundle.Proofs.Json.Document
import ScriptBundle.Proofs.Data.Binary
import ScriptBundle.Data.Json

namespace ScriptBundle.Data

open Document

variable {depth : Nat}

/-! ## 1. The levels of a text -/

theorem toDocuments_eq_map (items : List Data) : toDocuments items = items.map toDocument := by
  induction items with
  | nil => rfl
  | cons d rest ih => exact congrArg (toDocument d :: ·) ih

/-- The document of a pair. -/
def pairDocument (p : Data × Data) : Document := .list [toDocument p.1, toDocument p.2]

theorem pairDocuments_eq_map (pairs : List (Data × Data)) :
    pairDocuments pairs = pairs.map pairDocument := by
  induction pairs with
  | nil => rfl
  | cons p rest ih => exact congrArg (pairDocument p :: ·) ih

theorem nesting_bytes (b : Bytes) : (toDocument (.bytes b)).nesting = 2 := by
  have hflat : nestingAll (b.map fun x => .ofNat x.toNat) = 0 := by
    rw [← Nat.le_zero, nestingAll_le_iff]
    exact List.forall_mem_map.mpr fun _ _ => Nat.le_refl 0
  have hshape : (toDocument (.bytes b)).nesting =
      nestingAll (b.map fun x => .ofNat x.toNat) + 2 := nesting_singleton _ _
  rw [hshape, hflat]

theorem nesting_list (items : List Data) :
    (toDocument (.list items)).nesting = nestingAll (items.map toDocument) + 2 := by
  rw [← toDocuments_eq_map]
  exact nesting_singleton _ _

theorem nesting_map (pairs : List (Data × Data)) :
    (toDocument (.map pairs)).nesting = nestingAll (pairs.map pairDocument) + 2 := by
  rw [← pairDocuments_eq_map]
  exact nesting_singleton _ _

theorem nesting_constr (tag : UInt64) (fields : List Data) :
    (toDocument (.constr tag fields)).nesting = nestingAll (fields.map toDocument) + 3 := by
  have hparts :
      (ofEntries [("tag", ofNat tag.toNat), ("fields", .list (toDocuments fields))]).nesting =
        nestingAll (toDocuments fields) + 2 := by
    simp [ofEntries, nesting, nestingEntries, ofNat]
  rw [← toDocuments_eq_map]
  exact (nesting_singleton _ _).trans (congrArg (· + 1) hparts)

theorem nesting_pairDocument (p : Data × Data) :
    (pairDocument p).nesting = max p.1.toDocument.nesting p.2.toDocument.nesting + 1 := by
  simp [pairDocument, nesting, nestingAll]

/-! ## 2. Parts of a node -/

/-- A tree is read where at most `depth` lists and tables may enclose one another: as itself if
there is room for it, and otherwise not at all. -/
def ReadsBack (depth : Nat) (d : Data) : Prop :=
  ofDocument? depth d.toDocument = if d.toDocument.nesting ≤ depth then some d else none

/-- Trees in a list. -/
theorem mapM_ofDocument? {items : List Data} (h : ∀ d ∈ items, ReadsBack depth d) :
    (items.map toDocument).mapM (ofDocument? depth) =
      if nestingAll (items.map toDocument) ≤ depth then some items else none := by
  have hread : ∀ d ∈ items, ofDocument? depth d.toDocument =
      if decide (d.toDocument.nesting ≤ depth) then some d else none := fun d hd => by
    rw [h d hd]
    simp only [decide_eq_true_eq]
  simp only [mapM_map_eq_ite hread, List.all_eq_true, decide_eq_true_eq, nestingAll_le_iff,
    List.forall_mem_map]

theorem pairOf?_pairDocument {p : Data × Data} (hkey : ReadsBack depth p.1)
    (hvalue : ReadsBack depth p.2) : pairOf? (ofDocument? depth) (pairDocument p) =
      if (pairDocument p).nesting ≤ depth + 1 then some p else none := by
  change (ofDocument? depth p.1.toDocument).bind (fun k =>
    (ofDocument? depth p.2.toDocument).bind fun v => some (k, v)) = _
  rw [hkey, hvalue, nesting_pairDocument]
  simp only [Nat.succ_le_succ_iff, Nat.max_le]
  by_cases hk : p.1.toDocument.nesting ≤ depth <;> by_cases hv : p.2.toDocument.nesting ≤ depth <;>
    simp [hk, hv]

/-- Pairs in a list, each of which takes a level of its own. -/
theorem mapM_pairOf? {pairs : List (Data × Data)}
    (h : ∀ p ∈ pairs, ReadsBack depth p.1 ∧ ReadsBack depth p.2) :
    (pairs.map pairDocument).mapM (pairOf? (ofDocument? depth)) =
      if nestingAll (pairs.map pairDocument) ≤ depth + 1 then some pairs else none := by
  have hread : ∀ p ∈ pairs, pairOf? (ofDocument? depth) (pairDocument p) =
      if decide ((pairDocument p).nesting ≤ depth + 1) then some p else none := fun p hp => by
    rw [pairOf?_pairDocument (h p hp).1 (h p hp).2]
    simp only [decide_eq_true_eq]
  simp only [mapM_map_eq_ite hread, List.all_eq_true, decide_eq_true_eq, nestingAll_le_iff,
    List.forall_mem_map]

theorem byteOf?_ofNat (x : UInt8) : byteOf? (.ofNat x.toNat) = some x := by
  simp [byteOf?, Document.ofNat, Number.natural?, x.toNat_lt]

/-! ## 3. One node -/

theorem readsBack_int (n : Int128) : ReadsBack depth (.int n) := by
  cases depth with
  | zero => rfl
  | succ depth =>
    change ((Number.ofInt n.val).integer?.bind Int128.ofInt?).map Data.int = _
    rw [Number.integer?_ofInt, Option.bind_some, Int128.ofInt?_val]
    rfl

theorem readsBack_bytes (b : Bytes) : ReadsBack depth (.bytes b) := by
  rw [ReadsBack, nesting_bytes]
  match depth with
  | 0 => rfl
  | 1 => rfl
  | depth + 2 =>
    change ((b.map fun x => ofNat x.toNat).mapM byteOf?).map Data.bytes = _
    rw [mapM_map_eq_some fun x _ => byteOf?_ofNat x, if_pos (Nat.le_add_left 2 depth)]
    rfl

theorem readsBack_list {items : List Data} (h : ∀ d ∈ items, ∀ depth, ReadsBack depth d) :
    ReadsBack depth (.list items) := by
  rw [ReadsBack, nesting_list]
  match depth with
  | 0 => rfl
  | 1 => rfl
  | depth + 2 =>
    change ((toDocuments items).mapM (ofDocument? depth)).map Data.list = _
    rw [toDocuments_eq_map, mapM_ofDocument? fun d hd => h d hd depth]
    rw [apply_ite (Option.map Data.list)]
    simp only [Nat.add_le_add_iff_right, Option.map_some, Option.map_none]

theorem ofDocument?_map (items : List Document) :
    ofDocument? (depth + 3) (ofEntries [("Map", .list items)]) =
      (items.mapM (pairOf? (ofDocument? depth))).map .map := by
  cases items <;> rfl

/-- A map without pairs takes a level less than the reader asks of a map. -/
theorem readsBack_map {pairs : List (Data × Data)}
    (h : ∀ p ∈ pairs, ∀ depth, ReadsBack depth p.1 ∧ ReadsBack depth p.2) :
    ReadsBack depth (.map pairs) := by
  rw [ReadsBack, nesting_map]
  match depth, pairs with
  | 0, _ => rfl
  | 1, [] => rfl
  | 1, _ :: _ => rfl
  | 2, [] => rfl
  | 2, p :: pairs =>
    have hdeep : ¬ nestingAll ((p :: pairs).map pairDocument) + 2 ≤ 2 := by
      rw [List.map_cons, nestingAll, nesting_pairDocument]
      omega
    rw [if_neg hdeep]
    rfl
  | depth + 3, pairs =>
    have hroom : nestingAll (pairs.map pairDocument) + 2 ≤ depth + 3 ↔
        nestingAll (pairs.map pairDocument) ≤ depth + 1 := by omega
    rw [toDocument, ofDocument?_map, pairDocuments_eq_map, mapM_pairOf? fun p hp => h p hp depth,
      apply_ite (Option.map Data.map)]
    simp only [hroom, Option.map_some, Option.map_none]

theorem ofDocument?_constr (tag fields : Document) :
    ofDocument? (depth + 3) (ofEntries [("Constr", ofEntries [("tag", tag), ("fields", fields)])]) =
      tag.word?.bind fun tag =>
        fields.list?.bind fun items => (items.mapM (ofDocument? depth)).map (.constr tag) := by
  have hparts : (ofEntries [("tag", tag), ("fields", fields)]).parts? ["tag", "fields"] =
      some [some tag, some fields] := parts?_ofEntries (by simp) _
  rw [ofEntries, List.map_cons, List.map_nil]
  simp only [ofDocument?, hparts, Option.bind_eq_bind, Option.bind_some, Option.map_eq_bind]
  rfl

theorem readsBack_constr {tag : UInt64} {fields : List Data}
    (h : ∀ d ∈ fields, ∀ depth, ReadsBack depth d) : ReadsBack depth (.constr tag fields) := by
  rw [ReadsBack, nesting_constr]
  match depth with
  | 0 => rfl
  | 1 => rfl
  | 2 => rfl
  | depth + 3 =>
    rw [toDocument, ofDocument?_constr, word?_ofNat, Option.bind_some, list?, Option.bind_some,
      toDocuments_eq_map, mapM_ofDocument? fun d hd => h d hd depth,
      apply_ite (Option.map (Data.constr tag))]
    simp only [Nat.add_le_add_iff_right, Option.map_some, Option.map_none]

/-! ## 4. Whole trees -/

/-- A tree is read from its document exactly where there is room for it. -/
theorem readsBack (d : Data) (depth : Nat) : ReadsBack depth d := by
  induction d using Data.induct generalizing depth with
  | int n => exact readsBack_int n
  | bytes b => exact readsBack_bytes b
  | list items ih => exact readsBack_list ih
  | map pairs ih => exact readsBack_map fun p hp depth => ⟨(ih p hp).1 depth, (ih p hp).2 depth⟩
  | constr tag fields ih => exact readsBack_constr ih

/-- **Trees are read back up to a nesting.**  The JSON text of a tree is read as that tree if its
document does not nest more lists and tables than a text may, and otherwise as none. -/
theorem ofJson?_toJson_exact (d : Data) :
    ofJson? d.toJson = if d.toDocument.nesting ≤ textDepth then some d else none := by
  rw [ofJson?, toJson, Json.read_write, Option.bind_some]
  exact readsBack d textDepth

end ScriptBundle.Data

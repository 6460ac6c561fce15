/-
# Records in documents are read back

A record is written as a table with one entry for each part that is there, and read part by part.
If no name is written twice, the part that is read under a name is the one that was written under
it, or none (`parts?_ofEntries`).

A part may be one that a reader refuses, a schema that is nested too deeply.  So what is said of
lists and of tables with an entry for every name is that they are read back if all their items are,
and not at all otherwise (`mapM_map_eq_ite`, `nameMap?_ofNameMap`).
-/
import ScriptBundle.Document.Part
import ScriptBundle.Proofs.NameMap

namespace ScriptBundle

variable {α β : Type}

/-! ## 1. Lists -/

/-- Items that are read back or refused, one by one, are read back together or refused. -/
theorem mapM_map_eq_ite {f : β → Option α} {g : α → β} {accepts : α → Bool} {as : List α}
    (h : ∀ a ∈ as, f (g a) = if accepts a then some a else none) :
    (as.map g).mapM f = if as.all accepts then some as else none := by
  induction as with
  | nil => rfl
  | cons a as ih =>
    obtain ⟨ha, has⟩ := List.forall_mem_cons.mp h
    rw [List.map_cons, List.mapM_cons, ha, ih has, List.all_cons]
    cases accepts a with
    | false => rfl
    | true => cases as.all accepts <;> rfl

/-- Items that are read back one by one are read back together. -/
theorem mapM_map_eq_some {f : β → Option α} {g : α → β} {as : List α}
    (h : ∀ a ∈ as, f (g a) = some a) : (as.map g).mapM f = some as := by
  have hall : as.all (fun _ => true) = true := List.all_eq_true.mpr fun _ _ => rfl
  have hread : (as.map g).mapM f = if as.all (fun _ => true) then some as else none :=
    mapM_map_eq_ite h
  rw [hread, if_pos hall]

namespace Document

/-! ## 2. Tables -/

theorem given_map_eq (name : String) (es : List (String × Document)) :
    given name (es.map fun (n, d) => (some n, d)) =
      es.filterMap fun (n, d) => if n = name then some d else none := by
  rw [given, List.filterMap_map]
  refine List.filterMap_congr fun e _ => ?_
  simp [Function.comp]

/-- What a table gives to a name, if it has no name twice. -/
theorem given_eq_toList {name : String} {es : List (String × Document)}
    (hnd : (es.map (·.1)).Nodup) :
    given name (es.map fun (n, d) => (some n, d)) = (es.lookup name).toList := by
  rw [given_map_eq]
  induction es with
  | nil => rfl
  | cons e rest ih =>
    obtain ⟨n, d⟩ := e
    obtain ⟨hfresh, hrest⟩ := List.nodup_cons.mp hnd
    rw [NameMap.lookup_cons_eq, List.filterMap_cons]
    by_cases heq : n = name
    · subst heq
      have hnone : rest.filterMap (fun (n', d) => if n' = n then some d else none) = [] := by
        rw [List.filterMap_eq_nil_iff]
        rintro ⟨n', d'⟩ hmem
        refine if_neg ?_
        rintro rfl
        exact hfresh (List.mem_map.mpr ⟨_, hmem, rfl⟩)
      simp only [if_pos, hnone, Option.toList]
    · simp only [if_neg heq, if_neg (Ne.symm heq)]
      exact ih hrest

/-- **Parts.**  A table that has no name twice holds under each name what was written there. -/
theorem parts?_ofEntries {es : List (String × Document)} (hnd : (es.map (·.1)).Nodup)
    (names : List String) :
    (ofEntries es).parts? names = some (names.map fun name => es.lookup name) := by
  have hwell : (es.map fun (n, d) => (some n, d)).all (·.1.isSome) = true := by simp
  rw [ofEntries, parts?, if_pos hwell]
  induction names with
  | nil => rfl
  | cons name rest ih =>
    rw [List.mapM_cons, ih, given_eq_toList hnd, List.map_cons]
    cases es.lookup name <;> rfl

theorem lookup_entryOf (write : α → Document) (name part : String) (a : Option α) :
    (entryOf part write a).lookup name = if name = part then a.map write else none := by
  cases a with
  | none => simp [entryOf]
  | some a => rw [entryOf, NameMap.lookup_cons_eq]; rfl

theorem names_entryOf_sublist (write : α → Document) (part : String) (a : Option α) :
    ((entryOf part write a).map (·.1)).Sublist [part] := by
  cases a with
  | none => exact List.nil_sublist _
  | some a => exact List.Sublist.refl _

/-! ## 3. Words and nestings -/

theorem word?_ofNat (w : UInt64) : (ofNat w.toNat).word? = some w := by
  simp [ofNat, word?, Number.natural?, w.toNat_lt]

theorem nestingAll_le_iff {depth : Nat} {items : List Document} :
    nestingAll items ≤ depth ↔ ∀ d ∈ items, d.nesting ≤ depth := by
  induction items with
  | nil => simp [nestingAll]
  | cons d rest ih => rw [nestingAll, Nat.max_le, ih, List.forall_mem_cons]

theorem nesting_le_nestingAll {d : Document} {ds : List Document} (h : d ∈ ds) :
    d.nesting ≤ nestingAll ds :=
  nestingAll_le_iff.mp (Nat.le_refl _) d h

theorem nestingEntries_le_iff {depth : Nat} {es : List (String × Document)} :
    nestingEntries (es.map fun (name, d) => (some name, d)) ≤ depth ↔
      ∀ e ∈ es, e.2.nesting ≤ depth := by
  induction es with
  | nil => simp [nestingEntries]
  | cons e rest ih => rw [List.map_cons, nestingEntries, Nat.max_le, ih, List.forall_mem_cons]

/-- A table with one entry adds a level to the document in it. -/
theorem nesting_singleton (name : String) (d : Document) :
    (ofEntries [(name, d)]).nesting = d.nesting + 1 := by
  simp [ofEntries, nesting, nestingEntries]

/-! ## 4. Tables of entries that are all read alike -/

theorem entries?_ofEntries (es : List (String × Document)) : (ofEntries es).entries? = some es :=
  mapM_map_eq_some fun _ _ => rfl

theorem mapM_entries_eq_ite {read : Document → Option α} {write : α → Document}
    {accepts : α → Bool} (h : ∀ a, read (write a) = if accepts a then some a else none)
    (m : NameMap α) : (m.entries.map fun (name, a) => (name, write a)).mapM
      (fun (name, d) => (read d).map (name, ·)) =
      if m.entries.all (fun e => accepts e.2) then some m.entries else none := by
  refine mapM_map_eq_ite fun e _ => ?_
  change (read (write e.2)).map (e.1, ·) = _
  rw [h e.2]
  cases accepts e.2 <;> rfl

/-- A map of parts that are read back or refused is read back or refused. -/
theorem nameMap?_ofNameMap {read : Document → Option α} {write : α → Document}
    {accepts : α → Bool} (h : ∀ a, read (write a) = if accepts a then some a else none)
    (m : NameMap α) :
    nameMap? read (ofNameMap write m) = if m.values.all accepts then some m else none := by
  have hall : m.values.all accepts = m.entries.all (fun e => accepts e.2) := by
    rw [NameMap.values, List.all_map]
    rfl
  rw [nameMap?, ofNameMap, entries?_ofEntries, hall]
  simp only [Option.bind_eq_bind, Option.bind_some, mapM_entries_eq_ite h]
  cases m.entries.all fun e => accepts e.2 with
  | false => rfl
  | true => exact congrArg some (NameMap.ofList_entries m)

end Document

end ScriptBundle

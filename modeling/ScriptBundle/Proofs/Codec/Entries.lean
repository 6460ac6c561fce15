/-
# Entries by name

What has named parts is given as entries in some order, and an entry is looked up by its name.  The
first one of a name is found, so nothing tells whether others of the name come after it, or others
of names that are never looked up.

`Supplied.Exact` says that there are no such entries.  `Value.firsts` and `Value.kept` leave them
out, and find what was found before.
-/
import Mathlib.Data.List.Nodup
import ScriptBundle.Value

namespace ScriptBundle

/-! ## 1. Entries that are of use -/

/-- Entries for parts whose names are declared. -/
structure Supplied where
  declared : List String
  entries : List (String × Value)

/-- Every name is declared. -/
def Supplied.Declared (u : Supplied) : Prop := ∀ e ∈ u.entries, e.1 ∈ u.declared

/-- Every name is declared, and none comes twice: all entries are of use. -/
def Supplied.Exact (u : Supplied) : Prop := (u.entries.map (·.1)).Nodup ∧ u.Declared

/-! ## 2. Entries that are found -/

namespace Value

variable {name : String} {declared : List String} {entries : List (String × Value)} {w : Value}

/-- The first entry of each name. -/
def firsts : List (String × Value) → List (String × Value)
  | [] => []
  | e :: rest => e :: (firsts rest).filter (·.1 ≠ e.1)

theorem firsts_subset (entries : List (String × Value)) : firsts entries ⊆ entries := by
  induction entries with
  | nil => exact List.Subset.refl _
  | cons e rest ih =>
    exact List.cons_subset_cons e (List.Subset.trans (List.filter_subset_self _) ih)

theorem nodup_firsts (entries : List (String × Value)) : ((firsts entries).map (·.1)).Nodup := by
  induction entries with
  | nil => exact List.nodup_nil
  | cons e rest ih =>
    rw [firsts, List.map_cons, List.nodup_cons]
    refine ⟨fun hmem => ?_, ih.sublist (List.filter_sublist.map _)⟩
    obtain ⟨e', he', heq⟩ := List.mem_map.mp hmem
    simpa [heq] using (List.mem_filter.mp he').2

theorem firsts_of_nodup (h : (entries.map (·.1)).Nodup) : firsts entries = entries := by
  induction entries with
  | nil => rfl
  | cons e rest ih =>
    rw [List.map_cons, List.nodup_cons] at h
    rw [firsts, ih h.2, List.filter_eq_self.mpr]
    intro e' he'
    exact decide_eq_true fun heq => h.1 (heq ▸ List.mem_map_of_mem he')

/-- A search by name does not see more than the first entry of each. -/
theorem find?_firsts (p : String → Bool) (entries : List (String × Value)) :
    (firsts entries).find? (fun e => p e.1) = entries.find? (fun e => p e.1) := by
  induction entries with
  | nil => rfl
  | cons e rest ih =>
    rw [firsts]
    by_cases he : p e.1 = true
    · simp [he]
    · -- what the first entry hides has its name, and so is not searched for either
      rw [Bool.not_eq_true] at he
      simp only [List.find?_cons, he, List.find?_filter, ← ih]
      congr 1
      funext e'
      by_cases heq : e'.1 = e.1
      · simp [heq, he]
      · simp [heq]

@[simp] theorem entry?_firsts (name : String) (entries : List (String × Value)) :
    entry? name (firsts entries) = entry? name entries := by
  rw [Value.entry?, Value.entry?, find?_firsts (fun n => decide (n = name))]

/-- The first entry of each declared name. -/
def kept (declared : List String) (entries : List (String × Value)) : List (String × Value) :=
  firsts (entries.filter (·.1 ∈ declared))

theorem entry?_kept (h : name ∈ declared) (entries : List (String × Value)) :
    entry? name (kept declared entries) = entry? name entries := by
  rw [kept, entry?_firsts, entry?, entry?, List.find?_filter]
  congr 2
  funext e
  by_cases heq : e.1 = name
  · simp [heq, h]
  · simp [heq]

theorem exact_kept (declared : List String) (entries : List (String × Value)) :
    Supplied.Exact ⟨declared, kept declared entries⟩ := by
  refine ⟨nodup_firsts _, fun e he => ?_⟩
  simpa using (List.mem_filter.mp (firsts_subset _ he)).2

/-- All entries are kept iff all of them are of use. -/
theorem kept_eq_self_iff :
    kept declared entries = entries ↔ Supplied.Exact ⟨declared, entries⟩ := by
  constructor
  · intro h
    rw [← h]
    exact exact_kept declared entries
  · rintro ⟨hnd, hdeclared⟩
    have hall : entries.filter (·.1 ∈ declared) = entries :=
      List.filter_eq_self.mpr fun e he => decide_eq_true (hdeclared e he)
    rw [kept, hall, firsts_of_nodup hnd]

/-- The same names with other values. -/
def mapEntries (f : String → Value → Value) (entries : List (String × Value)) :
    List (String × Value) :=
  entries.map fun e => (e.1, f e.1 e.2)

variable {f : String → Value → Value}

@[simp] theorem names_mapEntries (f : String → Value → Value) (entries : List (String × Value)) :
    (mapEntries f entries).map (·.1) = entries.map (·.1) := by
  simp [mapEntries]

theorem find?_mapEntries (p : String → Bool) (entries : List (String × Value)) :
    (mapEntries f entries).find? (fun e => p e.1) =
      (entries.find? fun e => p e.1).map fun e => (e.1, f e.1 e.2) := by
  rw [mapEntries, List.find?_map]
  rfl

@[simp] theorem entry?_mapEntries (name : String) (entries : List (String × Value)) :
    entry? name (mapEntries f entries) = (Value.entry? name entries).map (f name) := by
  rw [Value.entry?, find?_mapEntries (fun n => decide (n = name)), entry?]
  cases h : entries.find? fun e => decide (e.1 = name) with
  | none => rfl
  | some e =>
    have hname : e.1 = name := by simpa using List.find?_some h
    simp [hname]

theorem map_eq_self_iff {α : Type} {f : α → α} {l : List α} : l.map f = l ↔ ∀ a ∈ l, f a = a := by
  induction l with
  | nil => simp
  | cons a l ih => simp [ih]

theorem mapEntries_eq_self_iff :
    mapEntries f entries = entries ↔ ∀ e ∈ entries, f e.1 e.2 = e.2 := by
  rw [mapEntries, map_eq_self_iff]
  simp only [Prod.ext_iff, true_and]

theorem mapEntries_mapEntries (h : ∀ name v, f name (f name v) = f name v)
    (entries : List (String × Value)) :
    mapEntries f (mapEntries f entries) = mapEntries f entries := by
  rw [mapEntries_eq_self_iff, mapEntries, List.forall_mem_map]
  exact fun e _ => h e.1 e.2

theorem exact_mapEntries_iff :
    Supplied.Exact ⟨declared, mapEntries f entries⟩ ↔ Supplied.Exact ⟨declared, entries⟩ := by
  rw [Supplied.Exact, names_mapEntries, Supplied.Exact]
  exact and_congr_right fun _ => List.forall_mem_map

end Value

end ScriptBundle

/-
# Maps from names

Almost everything here is named: validators, modules, parameters, functions, entries of a store.
Such a collection is a list of entries in strictly increasing order of their names.  The order
belongs to the type, so two maps with the same content are equal, and walking over a map always
means walking in the order of names.

Names are ordered by their characters' code points.
-/

namespace ScriptBundle

/-- Entries in strictly increasing order of their names. -/
structure NameMap (α : Type) where
  entries : List (String × α)
  sorted : (entries.map (·.1)).Pairwise (· < ·)

namespace NameMap

variable {α β : Type}

@[ext] theorem ext {m n : NameMap α} (h : m.entries = n.entries) : m = n := by
  cases m; cases n; cases h; rfl

instance [DecidableEq α] : DecidableEq (NameMap α) := fun m n =>
  decidable_of_iff (m.entries = n.entries) ⟨ext, fun h => h ▸ rfl⟩

/-! ## 1. Looking at a map -/

def empty : NameMap α := ⟨[], .nil⟩

instance : Inhabited (NameMap α) := ⟨empty⟩

def size (m : NameMap α) : Nat := m.entries.length

def isEmpty (m : NameMap α) : Bool := m.entries.isEmpty

/-- The names, in increasing order. -/
def names (m : NameMap α) : List String := m.entries.map (·.1)

/-- The values, in the order of their names. -/
def values (m : NameMap α) : List α := m.entries.map (·.2)

/-- What a name stands for. -/
def get? (m : NameMap α) (name : String) : Option α := m.entries.lookup name

def contains (m : NameMap α) (name : String) : Bool := (m.get? name).isSome

/-! ## 2. Putting entries in -/

/-- Puts an entry into its place; an entry of the same name gives way. -/
def insertInto (name : String) (a : α) : List (String × α) → List (String × α)
  | [] => [(name, a)]
  | e :: rest =>
    if name < e.1 then (name, a) :: e :: rest
    else if name = e.1 then (name, a) :: rest
    else e :: insertInto name a rest

theorem mem_names_insertInto {name n : String} {a : α} {entries : List (String × α)}
    (h : n ∈ (insertInto name a entries).map (·.1)) : n = name ∨ n ∈ entries.map (·.1) := by
  induction entries with
  | nil => simpa [insertInto] using h
  | cons e rest ih =>
    rw [insertInto] at h
    split at h
    · simpa using h
    · split at h
      · simp only [List.map_cons, List.mem_cons] at h ⊢
        rcases h with h | h
        · exact .inl h
        · exact .inr (.inr h)
      · simp only [List.map_cons, List.mem_cons] at h ⊢
        rcases h with h | h
        · exact .inr (.inl h)
        · rcases ih h with h | h
          · exact .inl h
          · exact .inr (.inr h)

theorem sorted_insertInto (name : String) (a : α) {entries : List (String × α)}
    (h : (entries.map (·.1)).Pairwise (· < ·)) :
    ((insertInto name a entries).map (·.1)).Pairwise (· < ·) := by
  induction entries with
  | nil => simp [insertInto]
  | cons e rest ih =>
    simp only [List.map_cons, List.pairwise_cons] at h
    rw [insertInto]
    split
    · rename_i lt
      simp only [List.map_cons, List.pairwise_cons, List.mem_cons, forall_eq_or_imp]
      exact ⟨⟨lt, fun n hn => String.lt_trans lt (h.1 n hn)⟩, h.1, h.2⟩
    · split
      · rename_i same
        simp only [List.map_cons, List.pairwise_cons]
        exact ⟨fun n hn => same ▸ h.1 n hn, h.2⟩
      · rename_i notLt different
        simp only [List.map_cons, List.pairwise_cons]
        refine ⟨fun n hn => ?_, ih h.2⟩
        rcases mem_names_insertInto hn with rfl | hn
        · by_cases gt : e.1 < n
          · exact gt
          · exact absurd (String.le_antisymm (String.not_lt.1 gt) (String.not_lt.1 notLt)) different
        · exact h.1 n hn

/-- The map with an entry put in; an entry of the same name gives way. -/
def insert (m : NameMap α) (name : String) (a : α) : NameMap α :=
  ⟨insertInto name a m.entries, sorted_insertInto name a m.sorted⟩

@[simp] theorem get?_empty (name : String) : (empty : NameMap α).get? name = none := rfl

theorem lookup_cons_eq (n first : String) (b : α) (rest : List (String × α)) :
    List.lookup n ((first, b) :: rest) = if n = first then some b else List.lookup n rest := by
  by_cases h : n = first
  · simp [h]
  · have other : (n == first) = false := by simpa using h
    simp [List.lookup_cons, other, h]

theorem lookup_insertInto (name n : String) (a : α) (entries : List (String × α)) :
    (insertInto name a entries).lookup n = if n = name then some a else entries.lookup n := by
  induction entries with
  | nil => rw [insertInto, lookup_cons_eq]
  | cons e rest ih =>
    obtain ⟨first, b⟩ := e
    rw [insertInto]
    split
    · rw [lookup_cons_eq]
    · split
      · rename_i same
        subst same
        rw [lookup_cons_eq, lookup_cons_eq]
        split <;> rfl
      · rename_i different
        rw [lookup_cons_eq, lookup_cons_eq, ih]
        by_cases h : n = first
        · have other : n ≠ name := fun same => different (same.symm.trans h)
          rw [if_pos h, if_neg other, if_pos h]
        · rw [if_neg h, if_neg h]

/-- A name stands for what was put in last under it. -/
theorem get?_insert (m : NameMap α) (name n : String) (a : α) :
    (m.insert name a).get? n = if n = name then some a else m.get? n :=
  lookup_insertInto name n a m.entries

/-- The map of a list of entries; of several of one name the last holds. -/
def ofList (entries : List (String × α)) : NameMap α :=
  entries.foldl (fun m e => m.insert e.1 e.2) empty

/-! ## 3. Walking over a map -/

/-- A map with the names of another one. -/
def withNames (m : NameMap α) (entries : List (String × β))
    (same : entries.map (·.1) = m.entries.map (·.1)) : NameMap β :=
  ⟨entries, same ▸ m.sorted⟩

/-- Every value converted. -/
def map (f : String → α → β) (m : NameMap α) : NameMap β :=
  m.withNames (m.entries.map fun (name, a) => (name, f name a)) (by simp [Function.comp_def])

@[simp] theorem names_withNames (m : NameMap α) (entries : List (String × β))
    (same : entries.map (·.1) = m.entries.map (·.1)) : (m.withNames entries same).names = m.names :=
  same

/-- Every value of a list of entries converted, up to the first that cannot be. -/
def traverseList {ε : Type} (f : String → α → Except ε β) :
    (entries : List (String × α)) →
      Except ε { bs : List (String × β) // bs.map (·.1) = entries.map (·.1) }
  | [] => .ok ⟨[], rfl⟩
  | (name, a) :: rest => do
    let b ← f name a
    let ⟨bs, h⟩ ← traverseList f rest
    return ⟨(name, b) :: bs, by simp [h]⟩

/-- Every value converted in the order of names, up to the first that cannot be. -/
def traverse {ε : Type} (f : String → α → Except ε β) (m : NameMap α) : Except ε (NameMap β) := do
  let ⟨bs, h⟩ ← traverseList f m.entries
  return m.withNames bs h

/-- The position of every name. -/
def indices (m : NameMap α) : NameMap Nat :=
  m.withNames m.names.zipIdx (by simp [names])

end NameMap

end ScriptBundle

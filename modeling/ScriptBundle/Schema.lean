/-
# Schemas

A schema says what shape of data tree a program exchanges.  The order of fields and variants is
the order on the wire; their names never appear there and only serve to address the parts of a
value.

A variant carries its tag beside its position.  The two are meant to agree: `enumeration` builds
variants whose tags count up from zero, and `renumbered` rebuilds a whole schema that way.
-/
import ScriptBundle.Schema.Primitive

namespace ScriptBundle

/-! ## 1. Shapes -/

/-- A named part. -/
structure Field (σ : Type) where
  name : String
  type : σ
deriving DecidableEq

/-- One alternative of an enumeration. -/
structure Variant (σ : Type) where
  name : String
  tag : UInt64
  fields : List (Field σ)
deriving DecidableEq

/-- The shape of a value that is exchanged with a program. -/
inductive Schema
  | primitive (p : Primitive)
  | list (item : Schema)
  /-- An association list. -/
  | map (key value : Schema)
  /-- A value that may be absent. -/
  | option (inner : Schema)
  /-- A sequence of fixed length, each item of its own type. -/
  | tuple (items : List Schema)
  | record (fields : List (Field Schema))
  | enum (variants : List (Variant Schema))
deriving Inhabited

namespace Schema

/-- The variants of an enumeration, tagged from `first` upwards. -/
def tagged (first : Nat) : List (String × List (Field Schema)) → List (Variant Schema)
  | [] => []
  | (name, fields) :: rest => ⟨name, UInt64.ofNat first, fields⟩ :: tagged (first + 1) rest

/-- An enumeration whose tags are the positions of its variants. -/
def enumeration (variants : List (String × List (Field Schema))) : Schema :=
  .enum (tagged 0 variants)

mutual
/-- The same schema, every enumeration of it tagged by position. -/
def renumbered : Schema → Schema
  | .primitive p => .primitive p
  | .list item => .list (renumbered item)
  | .map key value => .map (renumbered key) (renumbered value)
  | .option inner => .option (renumbered inner)
  | .tuple items => .tuple (renumberedAll items)
  | .record fields => .record (renumberedFields fields)
  | .enum variants => enumeration (renumberedVariants variants)

def renumberedAll : List Schema → List Schema
  | [] => []
  | s :: rest => renumbered s :: renumberedAll rest

def renumberedFields : List (Field Schema) → List (Field Schema)
  | [] => []
  | ⟨name, s⟩ :: rest => ⟨name, renumbered s⟩ :: renumberedFields rest

def renumberedVariants : List (Variant Schema) → List (String × List (Field Schema))
  | [] => []
  | ⟨name, _, fields⟩ :: rest => (name, renumberedFields fields) :: renumberedVariants rest
end

/-! ## 2. Equality -/

mutual
/-- Whether two schemas are the same. -/
def beq : Schema → Schema → Bool
  | .primitive p, .primitive q => p = q
  | .list a, .list b => beq a b
  | .map j a, .map k b => beq j k && beq a b
  | .option a, .option b => beq a b
  | .tuple as, .tuple bs => beqAll as bs
  | .record as, .record bs => beqFields as bs
  | .enum as, .enum bs => beqVariants as bs
  | _, _ => false
termination_by structural a => a

def beqAll : List Schema → List Schema → Bool
  | [], [] => true
  | a :: as, b :: bs => beq a b && beqAll as bs
  | _, _ => false
termination_by structural a => a

def beqFields : List (Field Schema) → List (Field Schema) → Bool
  | [], [] => true
  | ⟨m, a⟩ :: as, ⟨n, b⟩ :: bs => m = n && beq a b && beqFields as bs
  | _, _ => false
termination_by structural a => a

def beqVariants : List (Variant Schema) → List (Variant Schema) → Bool
  | [], [] => true
  | ⟨m, s, fs⟩ :: as, ⟨n, t, gs⟩ :: bs => m = n && s = t && beqFields fs gs && beqVariants as bs
  | _, _ => false
termination_by structural a => a
end

mutual
theorem eq_of_beq : (a b : Schema) → beq a b = true → a = b
  | .primitive p, b, h => by cases b <;> simp_all [beq]
  | .list a, b, h => by
    cases b with
    | list b => rw [eq_of_beq a b h]
    | _ => cases h
  | .map j a, b, h => by
    cases b with
    | map k b =>
      simp only [beq, Bool.and_eq_true] at h
      rw [eq_of_beq j k h.1, eq_of_beq a b h.2]
    | _ => cases h
  | .option a, b, h => by
    cases b with
    | option b => rw [eq_of_beq a b h]
    | _ => cases h
  | .tuple as, b, h => by
    cases b with
    | tuple bs => rw [eq_of_beqAll as bs h]
    | _ => cases h
  | .record as, b, h => by
    cases b with
    | record bs => rw [eq_of_beqFields as bs h]
    | _ => cases h
  | .enum as, b, h => by
    cases b with
    | enum bs => rw [eq_of_beqVariants as bs h]
    | _ => cases h

theorem eq_of_beqAll : (as bs : List Schema) → beqAll as bs = true → as = bs
  | [], bs, h => by cases bs <;> simp_all [beqAll]
  | a :: as, bs, h => by
    cases bs with
    | nil => cases h
    | cons b bs =>
      simp only [beqAll, Bool.and_eq_true] at h
      rw [eq_of_beq a b h.1, eq_of_beqAll as bs h.2]

theorem eq_of_beqFields : (as bs : List (Field Schema)) → beqFields as bs = true → as = bs
  | [], bs, h => by cases bs <;> simp_all [beqFields]
  | ⟨m, a⟩ :: as, bs, h => by
    cases bs with
    | nil => cases h
    | cons b bs =>
      obtain ⟨n, b⟩ := b
      simp only [beqFields, Bool.and_eq_true, decide_eq_true_eq] at h
      rw [h.1.1, eq_of_beq a b h.1.2, eq_of_beqFields as bs h.2]

theorem eq_of_beqVariants : (as bs : List (Variant Schema)) → beqVariants as bs = true → as = bs
  | [], bs, h => by cases bs <;> simp_all [beqVariants]
  | ⟨m, s, fs⟩ :: as, bs, h => by
    cases bs with
    | nil => cases h
    | cons b bs =>
      obtain ⟨n, t, gs⟩ := b
      simp only [beqVariants, Bool.and_eq_true, decide_eq_true_eq] at h
      rw [h.1.1.1, h.1.1.2, eq_of_beqFields fs gs h.1.2, eq_of_beqVariants as bs h.2]
end

mutual
theorem beq_self : (a : Schema) → beq a a = true
  | .primitive _ => by simp [beq]
  | .list a => by simp [beq, beq_self a]
  | .map k a => by simp [beq, beq_self k, beq_self a]
  | .option a => by simp [beq, beq_self a]
  | .tuple as => by simp [beq, beqAll_self as]
  | .record as => by simp [beq, beqFields_self as]
  | .enum as => by simp [beq, beqVariants_self as]

theorem beqAll_self : (as : List Schema) → beqAll as as = true
  | [] => rfl
  | a :: as => by simp [beqAll, beq_self a, beqAll_self as]

theorem beqFields_self : (as : List (Field Schema)) → beqFields as as = true
  | [] => rfl
  | ⟨_, a⟩ :: as => by simp [beqFields, beq_self a, beqFields_self as]

theorem beqVariants_self : (as : List (Variant Schema)) → beqVariants as as = true
  | [] => rfl
  | ⟨_, _, fs⟩ :: as => by simp [beqVariants, beqFields_self fs, beqVariants_self as]
end

/-- The comparison decides equality. -/
theorem beq_iff {a b : Schema} : beq a b = true ↔ a = b :=
  ⟨eq_of_beq a b, fun h => h ▸ beq_self a⟩

instance : DecidableEq Schema := fun a b => decidable_of_iff (beq a b = true) beq_iff

/-! ## 3. Text for people -/

mutual
/-- A schema on one line. -/
def display : Schema → String
  | .primitive p => p.name
  | .list item => "[]" ++ display item
  | .map key value => "Map[" ++ display key ++ "]" ++ display value
  | .option inner => "Option[" ++ display inner ++ "]"
  | .tuple items => "(" ++ String.intercalate ", " (displayAll items) ++ ")"
  | .record fields => "\x7b" ++ String.intercalate ", " (displayFields fields) ++ "\x7d"
  | .enum variants => "enum \x7b" ++ String.intercalate ", " (displayVariants variants) ++ "\x7d"

def displayAll : List Schema → List String
  | [] => []
  | s :: rest => display s :: displayAll rest

def displayFields : List (Field Schema) → List String
  | [] => []
  | ⟨name, s⟩ :: rest => (name ++ ": " ++ display s) :: displayFields rest

def displayVariants : List (Variant Schema) → List String
  | [] => []
  | ⟨name, _, []⟩ :: rest => name :: displayVariants rest
  | ⟨name, _, fields⟩ :: rest =>
    (name ++ "\x7b" ++ String.intercalate ", " (displayFields fields) ++ "\x7d")
      :: displayVariants rest
end

end Schema

end ScriptBundle

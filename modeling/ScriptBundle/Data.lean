/-
# Data trees

A program on the chain takes and returns data trees.  A node is an integer, a byte string, a list,
a list of key and value pairs, or a constructor: a small number with fields.  Nothing else is
known about a tree: no names, no types, no order among the keys.

Trees have decidable equality.  The comparison is written out, because a list of trees inside a
tree is beyond what can be derived, and it is correct in both directions (`beq_iff`).
-/
import ScriptBundle.Int128
import ScriptBundle.Bytes.Hex

namespace ScriptBundle

/-! ## 1. Trees and their kinds -/

/-- A data tree. -/
inductive Data
  | int (n : Int128)
  | bytes (b : Bytes)
  | list (items : List Data)
  /-- Pairs in the given order; a key may occur more than once. -/
  | map (pairs : List (Data × Data))
  | constr (tag : UInt64) (fields : List Data)

namespace Data

/-- The five kinds of node. -/
inductive Kind
  | int
  | bytes
  | list
  | map
  | constr
deriving DecidableEq, Repr

/-- A kind in words. -/
def Kind.name : Kind → String
  | .int => "integer"
  | .bytes => "bytes"
  | .list => "list"
  | .map => "map"
  | .constr => "constructor"

/-- The kind of the root. -/
def kind : Data → Kind
  | .int _ => .int
  | .bytes _ => .bytes
  | .list _ => .list
  | .map _ => .map
  | .constr _ _ => .constr

/-! ## 2. Equality -/

mutual
/-- Whether two trees are the same. -/
def beq : Data → Data → Bool
  | .int a, .int b => a = b
  | .bytes a, .bytes b => a = b
  | .list as, .list bs => beqAll as bs
  | .map as, .map bs => beqPairs as bs
  | .constr s as, .constr t bs => s = t && beqAll as bs
  | _, _ => false

def beqAll : List Data → List Data → Bool
  | [], [] => true
  | a :: as, b :: bs => beq a b && beqAll as bs
  | _, _ => false

def beqPairs : List (Data × Data) → List (Data × Data) → Bool
  | [], [] => true
  | (j, a) :: as, (k, b) :: bs => beq j k && beq a b && beqPairs as bs
  | _, _ => false
end

mutual
theorem eq_of_beq : (a b : Data) → beq a b = true → a = b
  | .int a, b, h => by cases b <;> simp_all [beq]
  | .bytes a, b, h => by cases b <;> simp_all [beq]
  | .list as, b, h => by
    cases b with
    | list bs => rw [eq_of_beqAll as bs h]
    | _ => cases h
  | .map as, b, h => by
    cases b with
    | map bs => rw [eq_of_beqPairs as bs h]
    | _ => cases h
  | .constr s as, b, h => by
    cases b with
    | constr t bs =>
      simp only [beq, Bool.and_eq_true, decide_eq_true_eq] at h
      rw [h.1, eq_of_beqAll as bs h.2]
    | _ => cases h

theorem eq_of_beqAll : (as bs : List Data) → beqAll as bs = true → as = bs
  | [], bs, h => by cases bs <;> simp_all [beqAll]
  | a :: as, bs, h => by
    cases bs with
    | nil => cases h
    | cons b bs =>
      simp only [beqAll, Bool.and_eq_true] at h
      rw [eq_of_beq a b h.1, eq_of_beqAll as bs h.2]

theorem eq_of_beqPairs : (as bs : List (Data × Data)) → beqPairs as bs = true → as = bs
  | [], bs, h => by cases bs <;> simp_all [beqPairs]
  | (j, a) :: as, bs, h => by
    cases bs with
    | nil => cases h
    | cons p bs =>
      obtain ⟨k, b⟩ := p
      simp only [beqPairs, Bool.and_eq_true] at h
      rw [eq_of_beq j k h.1.1, eq_of_beq a b h.1.2, eq_of_beqPairs as bs h.2]
end

mutual
theorem beq_self : (a : Data) → beq a a = true
  | .int _ => by simp [beq]
  | .bytes _ => by simp [beq]
  | .list as => by simp [beq, beqAll_self as]
  | .map as => by simp [beq, beqPairs_self as]
  | .constr _ as => by simp [beq, beqAll_self as]

theorem beqAll_self : (as : List Data) → beqAll as as = true
  | [] => rfl
  | a :: as => by simp [beqAll, beq_self a, beqAll_self as]

theorem beqPairs_self : (as : List (Data × Data)) → beqPairs as as = true
  | [] => rfl
  | (k, a) :: as => by simp [beqPairs, beq_self k, beq_self a, beqPairs_self as]
end

/-- The comparison decides equality. -/
theorem beq_iff {a b : Data} : beq a b = true ↔ a = b :=
  ⟨eq_of_beq a b, fun h => h ▸ beq_self a⟩

instance : DecidableEq Data := fun a b => decidable_of_iff (beq a b = true) beq_iff

/-! ## 3. Text for people -/

mutual
/-- A tree on one line. -/
def display : Data → String
  | .int n => n.text
  | .bytes b => "#" ++ Hex.encode b
  | .list items => "[" ++ String.intercalate ", " (displayAll items) ++ "]"
  | .map pairs => "\x7b" ++ String.intercalate ", " (displayPairs pairs) ++ "\x7d"
  | .constr tag fields =>
    toString tag.toNat ++ "\x7b" ++ String.intercalate ", " (displayAll fields) ++ "\x7d"

def displayAll : List Data → List String
  | [] => []
  | d :: rest => display d :: displayAll rest

def displayPairs : List (Data × Data) → List String
  | [] => []
  | (k, v) :: rest => (display k ++ ": " ++ display v) :: displayPairs rest
end

end Data

end ScriptBundle

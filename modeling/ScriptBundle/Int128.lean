/-
# Integers of 128 bits

Every integer of a data tree lies in the signed 128-bit range.  The bounds belong to the type, so
no result has to mention them: arithmetic is done on plain integers, and `ofInt?` is the one place
where a result can turn out not to fit.
-/
import ScriptBundle.Text.Numeral

namespace ScriptBundle

/-- An integer from `-2^127` up to, but not including, `2^127`. -/
structure Int128 where
  val : Int
  le_val : -0x80000000000000000000000000000000 ≤ val
  val_lt : val < 0x80000000000000000000000000000000
deriving DecidableEq

namespace Int128

@[ext] theorem ext {a b : Int128} (h : a.val = b.val) : a = b := by
  cases a; cases b; cases h; rfl

/-- An integer, if it is in range. -/
def ofInt? (z : Int) : Option Int128 :=
  if h : -0x80000000000000000000000000000000 ≤ z ∧ z < 0x80000000000000000000000000000000 then
    some ⟨z, h.1, h.2⟩
  else
    none

@[simp] theorem ofInt?_val (n : Int128) : ofInt? n.val = some n :=
  dif_pos ⟨n.le_val, n.val_lt⟩

theorem ofInt?_eq_some_iff {z : Int} {n : Int128} : ofInt? z = some n ↔ z = n.val := by
  constructor
  · intro h
    unfold ofInt? at h
    split at h
    · cases h; rfl
    · cases h
  · rintro rfl
    exact ofInt?_val n

def zero : Int128 := ⟨0, by decide, by decide⟩

/-- A 64-bit number is always in range. -/
def ofUInt64 (n : UInt64) : Int128 :=
  ⟨n.toNat, by omega, by have := n.toNat_lt; omega⟩

/-- The 64-bit number that an integer is, if it is one. -/
def toUInt64? (n : Int128) : Option UInt64 :=
  if 0 ≤ n.val ∧ n.val < 0x10000000000000000 then some (UInt64.ofNat n.val.toNat) else none

@[simp] theorem toUInt64?_ofUInt64 (n : UInt64) : (ofUInt64 n).toUInt64? = some n := by
  have := n.toNat_lt
  have bound : (0 : Int) ≤ (ofUInt64 n).val ∧ (ofUInt64 n).val < 0x10000000000000000 := by
    simp only [ofUInt64]
    omega
  rw [toUInt64?, if_pos bound]
  simp [ofUInt64]

theorem eq_of_toUInt64? {n : Int128} {w : UInt64} (h : n.toUInt64? = some w) : n = ofUInt64 w := by
  unfold toUInt64? at h
  split at h
  · rename_i bound
    cases h
    apply ext
    have small : n.val.toNat < 0x10000000000000000 := by omega
    have back : (UInt64.ofNat n.val.toNat).toNat = n.val.toNat := UInt64.toNat_ofNat_of_lt' small
    simp only [ofUInt64, back]
    omega
  · cases h

/-! ## Text -/

/-- The decimal numeral of an integer. -/
def text (n : Int128) : String := String.ofList (Numeral.signedDigits n.val)

/-- The integer that a signed numeral denotes, if it is one and in range. -/
def ofChars? (cs : List Char) : Option Int128 := (Numeral.integer? cs).bind ofInt?

/-- An integer is read back from its own numeral. -/
@[simp] theorem ofChars?_text (n : Int128) : ofChars? n.text.toList = some n := by
  simp [ofChars?, text]

end Int128

end ScriptBundle

/-
# Byte strings

Everything this library hashes, stores or puts on a chain is a byte string, and everything it
proves about them is proved by induction, so a byte string is a plain list of bytes.

Two readings of a byte string are needed everywhere and are fixed here once.

* **As a number.**  Counts and widths are written least significant byte first
  (`littleEndian`), and `ofLittleEndian` reads such a number back: together they are inverse up to
  the width (`ofLittleEndian_littleEndian`).
* **As a text.**  A text is its UTF-8 form (`ofText`).  `toText?` accepts exactly the byte strings
  that are such a form, so a text and its bytes carry the same information
  (`toText?_eq_some_iff`).
-/

namespace ScriptBundle

/-- A finite sequence of bytes. -/
abbrev Bytes := List UInt8

namespace Bytes

/-! ## 1. Numbers, least significant byte first -/

/-- The low `width` bytes of `n`, least significant first. -/
def littleEndian : (width : Nat) → (n : Nat) → Bytes
  | 0, _ => []
  | width + 1, n => UInt8.ofNat n :: littleEndian width (n / 256)

/-- The number whose base-256 digits are the bytes, least significant first. -/
def ofLittleEndian : Bytes → Nat
  | [] => 0
  | b :: rest => b.toNat + 256 * ofLittleEndian rest

@[simp] theorem length_littleEndian (width n : Nat) : (littleEndian width n).length = width := by
  induction width generalizing n with
  | zero => rfl
  | succ width ih => simp [littleEndian, ih]

/-- Writing keeps the number modulo the width. -/
theorem ofLittleEndian_littleEndian (width n : Nat) :
    ofLittleEndian (littleEndian width n) = n % Nat.pow 256 width := by
  induction width generalizing n with
  | zero => simp [littleEndian, ofLittleEndian, Nat.mod_one]
  | succ width ih =>
    have low : (UInt8.ofNat n).toNat = n % 256 := UInt8.toNat_ofNat'
    have next : Nat.pow 256 (width + 1) = 256 * Nat.pow 256 width := Nat.pow_succ'
    rw [littleEndian, ofLittleEndian, ih, low, next, Nat.mod_mul]

/-- A number that fits the width survives. -/
theorem ofLittleEndian_littleEndian_of_lt {width n : Nat} (h : n < Nat.pow 256 width) :
    ofLittleEndian (littleEndian width n) = n := by
  rw [ofLittleEndian_littleEndian, Nat.mod_eq_of_lt h]

/-! ## 2. Texts -/

/-- The UTF-8 form of a text. -/
def ofText (s : String) : Bytes := s.toUTF8.data.toList

/-- The text a byte string is the UTF-8 form of, if there is one. -/
def toText? (bytes : Bytes) : Option String :=
  if h : (ByteArray.mk bytes.toArray).IsValidUTF8 then
    some (String.fromUTF8 (ByteArray.mk bytes.toArray) h)
  else
    none

/-- A text is read back from its own bytes. -/
@[simp] theorem toText?_ofText (s : String) : toText? (ofText s) = some s := by
  have h : (ByteArray.mk (ofText s).toArray) = s.toUTF8 := by simp [ofText]
  have hv : (ByteArray.mk (ofText s).toArray).IsValidUTF8 := h ▸ s.isValidUTF8
  simp only [toText?, hv, dite_true, Option.some.injEq]
  apply String.toByteArray_inj.1
  exact h

/-- Only the UTF-8 form of a text reads as that text. -/
theorem ofText_of_toText? {bytes : Bytes} {s : String} (h : toText? bytes = some s) :
    ofText s = bytes := by
  unfold toText? at h
  split at h
  · cases h
    simp [ofText, String.fromUTF8]
  · cases h

/-- Texts and their UTF-8 forms correspond one to one. -/
theorem toText?_eq_some_iff {bytes : Bytes} {s : String} :
    toText? bytes = some s ↔ bytes = ofText s :=
  ⟨fun h => (ofText_of_toText? h).symm, fun h => h ▸ toText?_ofText s⟩

/-- Different texts have different bytes. -/
theorem ofText_injective {s t : String} (h : ofText s = ofText t) : s = t := by
  have hs := toText?_ofText s
  rw [h, toText?_ofText] at hs
  exact (Option.some.inj hs).symm

/-- The bytes of a text are those of its characters in turn. -/
theorem ofText_ofList (cs : List Char) :
    ofText (String.ofList cs) = cs.flatMap String.utf8EncodeChar := by
  simp [ofText, List.utf8Encode]

end Bytes

end ScriptBundle

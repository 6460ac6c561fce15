/-
# Byte strings as hexadecimal text

Digests, programs and addresses are shown and stored as hexadecimal text: two digits a byte, high
half first, always in lower case when written (`encode`).  Reading admits both cases and nothing
else (`decode`).

The reader works on the bytes of the text, not on its characters, because its complaints count
bytes: a text of odd size is refused before any digit is looked at, and the first byte that is no
digit is named by its position.

What makes the pair useful is that reading undoes writing (`decode_encode`), and that a text which
reads well is, up to the case of its digits, the text that writing gives back.
-/
import ScriptBundle.Bytes

namespace ScriptBundle.Hex

/-! ## 1. One digit -/

/-- The digit of a number below sixteen, as a character code. -/
def digit (n : Nat) : UInt8 := if n < 10 then UInt8.ofNat (48 + n) else UInt8.ofNat (87 + n)

/-- The number a digit of either case stands for. -/
def digitValue? (c : UInt8) : Option Nat :=
  if 48 ≤ c ∧ c ≤ 57 then some (c.toNat - 48)
  else if 97 ≤ c ∧ c ≤ 102 then some (c.toNat - 87)
  else if 65 ≤ c ∧ c ≤ 70 then some (c.toNat - 55)
  else none

theorem digitValue?_digit {n : Nat} (h : n < 16) : digitValue? (digit n) = some n := by
  have all : ∀ k : Fin 16, digitValue? (digit k.val) = some k.val := by decide
  exact all ⟨n, h⟩

/-- A digit counts less than sixteen. -/
theorem digitValue?_lt {c : UInt8} {n : Nat} (h : digitValue? c = some n) : n < 16 := by
  unfold digitValue? at h
  simp only [UInt8.le_iff_toNat_le, UInt8.reduceToNat] at h
  split at h
  · cases h; omega
  · split at h
    · cases h; omega
    · split at h
      · cases h; omega
      · cases h

/-! ## 2. Whole byte strings -/

/-- Why a text is not the hexadecimal form of a byte string. -/
inductive Error
  /-- The text does not split into pairs. -/
  | oddLength
  /-- The byte at `position` is no digit. -/
  | notADigit (byte : UInt8) (position : Nat)
deriving DecidableEq, Repr

/-- The hexadecimal digits of a byte string, as character codes. -/
def digits : Bytes → Bytes
  | [] => []
  | b :: rest => digit (b.toNat / 16) :: digit (b.toNat % 16) :: digits rest

/-- The hexadecimal text of a byte string. -/
def encode (bytes : Bytes) : String :=
  String.ofList ((digits bytes).map fun c => Char.ofNat c.toNat)

/-- One digit at a known position. -/
def digitAt (position : Nat) (c : UInt8) : Except Error Nat :=
  match digitValue? c with
  | some n => .ok n
  | none => .error (.notADigit c position)

/-- The bytes whose digits start at `position`. -/
def pairs (position : Nat) : Bytes → Except Error Bytes
  | [] => .ok []
  | [_] => .error .oddLength
  | high :: low :: rest => do
    let h ← digitAt position high
    let l ← digitAt (position + 1) low
    let tail ← pairs (position + 2) rest
    return UInt8.ofNat (16 * h + l) :: tail

/-- The byte string that the codes of a hexadecimal text denote. -/
def decodeCodes (codes : Bytes) : Except Error Bytes :=
  if codes.length % 2 = 1 then .error .oddLength else pairs 0 codes

/-- The byte string that a hexadecimal text denotes. -/
def decode (text : String) : Except Error Bytes := decodeCodes (Bytes.ofText text)

/-- The byte string that a hexadecimal text denotes, if it is one. -/
def decode? (text : String) : Option Bytes := (decode text).toOption

/-! ## 3. The laws of the pair -/

@[simp] theorem length_digits (bytes : Bytes) : (digits bytes).length = 2 * bytes.length := by
  induction bytes with
  | nil => rfl
  | cons b rest ih => simp only [digits, List.length_cons, ih]; omega

/-- The digits of a byte string read back as it, wherever they start. -/
theorem pairs_digits (bytes : Bytes) (position : Nat) :
    pairs position (digits bytes) = .ok bytes := by
  induction bytes generalizing position with
  | nil => rfl
  | cons b rest ih =>
    have hb := b.toNat_lt
    have high : digitAt position (digit (b.toNat / 16)) = .ok (b.toNat / 16) := by
      simp [digitAt, digitValue?_digit (show b.toNat / 16 < 16 by omega)]
    have low : digitAt (position + 1) (digit (b.toNat % 16)) = .ok (b.toNat % 16) := by
      simp [digitAt, digitValue?_digit (show b.toNat % 16 < 16 by omega)]
    have whole : 16 * (b.toNat / 16) + b.toNat % 16 = b.toNat := by omega
    simp only [digits, pairs, high, low, ih, bind, Except.bind, pure, Except.pure, whole,
      UInt8.ofNat_toNat]

theorem decodeCodes_digits (bytes : Bytes) : decodeCodes (digits bytes) = .ok bytes := by
  have even : (digits bytes).length % 2 ≠ 1 := by rw [length_digits]; omega
  rw [decodeCodes, if_neg even, pairs_digits]

/-- A digit is an ASCII character, which is its own UTF-8 form. -/
theorem utf8EncodeChar_digit {n : Nat} (h : n < 16) :
    String.utf8EncodeChar (Char.ofNat (digit n).toNat) = [digit n] := by
  have all : ∀ k : Fin 16,
      String.utf8EncodeChar (Char.ofNat (digit k.val).toNat) = [digit k.val] := by decide
  exact all ⟨n, h⟩

/-- The codes of a hexadecimal text are its digits. -/
theorem ofText_encode (bytes : Bytes) : Bytes.ofText (encode bytes) = digits bytes := by
  rw [encode, Bytes.ofText_ofList, List.flatMap_map]
  induction bytes with
  | nil => rfl
  | cons b rest ih =>
    have hb := b.toNat_lt
    rw [digits, List.flatMap_cons, List.flatMap_cons, ih,
      utf8EncodeChar_digit (show b.toNat / 16 < 16 by omega),
      utf8EncodeChar_digit (show b.toNat % 16 < 16 by omega)]
    rfl

/-- Reading undoes writing. -/
@[simp] theorem decode_encode (bytes : Bytes) : decode (encode bytes) = .ok bytes := by
  rw [decode, ofText_encode, decodeCodes_digits]

@[simp] theorem decode?_encode (bytes : Bytes) : decode? (encode bytes) = some bytes := by
  rw [decode?, decode_encode]
  rfl

/-! ## 4. What is wrong, in words -/

/-- A lower-case hexadecimal number without leading zeros. -/
def numeral (n : Nat) : String := String.ofList (Nat.toDigits 16 n)

/-- A character in quotes, with the quote, the backslash and what cannot be seen written as
escapes.  It is needed for the characters below U+0100, which are the ones a byte can name. -/
def quoted (c : Char) : String :=
  let shown :=
    match c with
    | '\'' => "\\'"
    | '\\' => "\\\\"
    | '\n' => "\\n"
    | '\r' => "\\r"
    | '\t' => "\\t"
    | '\x00' => "\\0"
    | c =>
      if c.toNat < 0x20 ∨ (0x7f ≤ c.toNat ∧ c.toNat ≤ 0xa0) ∨ c.toNat = 0xad then
        "\\u\x7b" ++ numeral c.toNat ++ "\x7d"
      else
        String.singleton c
  "'" ++ shown ++ "'"

/-- The complaint in words: the offending byte is shown as the character of that code. -/
def Error.message : Error → String
  | .oddLength => "Odd number of digits"
  | .notADigit byte position =>
    "Invalid character " ++ quoted (Char.ofNat byte.toNat) ++ " at position " ++ toString position

end ScriptBundle.Hex

/-
# Content digests

A digest stands for the content it was computed from: it is the key of a build in a store and the
checksum of a stored entry.  It is sixteen bytes, and its text is 32 lower-case hexadecimal
digits.

What is hashed is often more than one byte string.  Section 2 says how a sequence of fields
becomes one byte string without two fields running together: whatever has no fixed width is
written after its own length, so the concatenation can be taken apart again from the front.
-/
import ScriptBundle.Bytes.Hex
import ScriptBundle.Digest.Xxh3

namespace ScriptBundle

/-! ## 1. Digests and their text -/

/-- Sixteen bytes that stand for a content. -/
structure Digest where
  bytes : Bytes
  length_bytes : bytes.length = 16
deriving DecidableEq

namespace Digest

/-- The digest of a byte string. -/
def ofContent (content : Bytes) : Digest :=
  ⟨Xxh3.digestBytes content, Xxh3.length_digestBytes content⟩

/-- The digest in full, as text. -/
def text (d : Digest) : String := Hex.encode d.bytes

/-- The digest shortened for a log line: its first two bytes. -/
def abbreviation (d : Digest) : String :=
  "ContentHash(" ++ Hex.encode (d.bytes.take 2) ++ "..)"

/-- A text that is not the text of a digest. -/
structure ParseError where
  input : String

/-- The complaint in words. -/
def ParseError.message (e : ParseError) : String :=
  "invalid content hash '" ++ e.input ++ "': expected 32 hex characters"

/-- Reads the full text of a digest; the digits may be of either case. -/
def parse (text : String) : Except ParseError Digest :=
  match Hex.decode? text with
  | some bytes => if h : bytes.length = 16 then .ok ⟨bytes, h⟩ else .error ⟨text⟩
  | none => .error ⟨text⟩

/-- A digest is read back from its own text. -/
theorem parse_text (d : Digest) : parse d.text = .ok d := by
  simp [parse, text, d.length_bytes]

end Digest

/-! ## 2. Fields that are hashed together -/

namespace Feed

/-- A byte string, after its length. -/
def bytes (content : Bytes) : Bytes := Bytes.littleEndian 8 content.length ++ content

/-- A text, after the length of its UTF-8 form. -/
def text (s : String) : Bytes := bytes (Bytes.ofText s)

/-- A truth value, as one byte. -/
def flag (b : Bool) : Bytes := [if b then 1 else 0]

/-- A 64-bit number. -/
def word (n : UInt64) : Bytes := Bytes.littleEndian 8 n.toNat

/-- A count of things that follow. -/
def count (n : Nat) : Bytes := Bytes.littleEndian 8 n

end Feed

end ScriptBundle

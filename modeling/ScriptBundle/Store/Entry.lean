/-
# The form of a stored entry

What is stored as a file of its own can come back shortened, overwritten or from elsewhere.  So an
entry's content is not stored bare: a header in front of it says what the file is and holds the
digest of the content, and whoever reads the file compares.

A file is four bytes with the length of the header, the header, and the content, which takes up
the rest.  The header is a mark, the version of this form, and the checksum.  A longer header than
that is taken too: what follows the checksum inside the stated length is skipped.
-/
import ScriptBundle.Digest
import ScriptBundle.Bytes.Varint

namespace ScriptBundle

/-! ## 1. The header -/

/-- What stands in front of an entry's content. -/
structure EntryHeader where
  mark : Bytes
  version : Nat
  checksum : Digest
deriving DecidableEq

namespace EntryHeader

/-- The mark of an entry: the letters `PLNC`. -/
def entryMark : Bytes := [0x50, 0x4c, 0x4e, 0x43]

/-- The version of the form that entries have now. -/
def currentVersion : Nat := 1

/-- The header that belongs in front of a content. -/
def ofContent (content : Bytes) : EntryHeader :=
  ⟨entryMark, currentVersion, Digest.ofContent content⟩

def toBytes (h : EntryHeader) : Bytes :=
  h.mark ++ Varint.encode h.version ++ h.checksum.bytes

/-- The header at the front of some bytes. -/
def ofBytes? (bytes : Bytes) : Option EntryHeader := do
  let mark := bytes.take 4
  let (version, rest) ← Varint.decode? 4 (bytes.drop 4)
  let checksum := rest.take 16
  if h : mark.length = 4 ∧ checksum.length = 16 then
    return ⟨mark, version, checksum, h.2⟩
  else
    none

end EntryHeader

/-! ## 2. Whole entries -/

namespace Entry

/-- What is wrong with the bytes of an entry. -/
inductive Defect
  /-- There are fewer than four bytes. -/
  | missingLength
  /-- The stated length of the header goes past the end. -/
  | truncatedHeader
  /-- The header's length does not hold a header. -/
  | undecodableHeader
  /-- It is no entry. -/
  | missingMark
  /-- It is an entry of another form. -/
  | otherVersion (version : Nat)
  /-- The content is not the one that was stored. -/
  | otherContent (stated actual : Digest)
deriving DecidableEq

/-- The bytes of an entry with some content. -/
def ofContent (content : Bytes) : Bytes :=
  let header := (EntryHeader.ofContent content).toBytes
  Bytes.littleEndian 4 header.length ++ header ++ content

/-- Refuses a header that does not belong in front of a content. -/
def checkHeader (header : EntryHeader) (content : Bytes) : Except Defect Unit := do
  if header.mark ≠ EntryHeader.entryMark then throw .missingMark
  if header.version ≠ EntryHeader.currentVersion then throw (.otherVersion header.version)
  let actual := Digest.ofContent content
  if actual ≠ header.checksum then throw (.otherContent header.checksum actual)

/-- The content of an entry. -/
def content (entry : Bytes) : Except Defect Bytes := do
  if entry.length < 4 then throw .missingLength
  let size := Bytes.ofLittleEndian (entry.take 4)
  let rest := entry.drop 4
  if rest.length < size then throw .truncatedHeader
  match EntryHeader.ofBytes? (rest.take size) with
  | none => throw .undecodableHeader
  | some header =>
    let content := rest.drop size
    checkHeader header content
    return content

end Entry

end ScriptBundle

/-
# Entries that are read back

An entry is its content behind a header of a stated length, so whatever the content looks like, none
of it is taken for a part of the header.  The header is of the form that is current, and the digest
in it is the content's own.  So the content of an entry that was just made is what it was made of
(`Entry.content_ofContent`).
-/
import ScriptBundle.Store.Entry

namespace ScriptBundle

theorem EntryHeader.length_toBytes_ofContent (content : Bytes) :
    (ofContent content).toBytes.length = 21 := by
  simp [ofContent, toBytes, entryMark, currentVersion, Varint.encode, Digest.length_bytes]

theorem EntryHeader.ofBytes?_toBytes (content : Bytes) :
    ofBytes? (ofContent content).toBytes = some (ofContent content) := by
  have hlength := (Digest.ofContent content).length_bytes
  have hbytes : (ofContent content).toBytes =
      entryMark ++ 1 :: (Digest.ofContent content).bytes := rfl
  have hmark : entryMark.length = 4 := rfl
  have hversion : Varint.decode? 4 (1 :: (Digest.ofContent content).bytes) =
      some (currentVersion, (Digest.ofContent content).bytes) := rfl
  have hchecksum : (Digest.ofContent content).bytes.take 16 = (Digest.ofContent content).bytes :=
    List.take_of_length_le (Nat.le_of_eq hlength)
  unfold ofBytes?
  simp only [hbytes, List.take_left' hmark, List.drop_left' hmark, hversion, Option.bind_eq_bind,
    Option.bind_some, hchecksum]
  rw [dif_pos ⟨hmark, hlength⟩]
  rfl

namespace Entry

theorem checkHeader_ofContent (content : Bytes) :
    checkHeader (.ofContent content) content = .ok () := by
  rw [checkHeader]
  simp only [EntryHeader.ofContent, ne_eq, not_true_eq_false, if_false]
  rfl

/-- **An entry that was made of a content** has that content. -/
theorem content_ofContent (content : Bytes) : Entry.content (ofContent content) = .ok content := by
  have hheader := EntryHeader.length_toBytes_ofContent content
  have hread := EntryHeader.ofBytes?_toBytes content
  have hcheck := checkHeader_ofContent content
  have hentry : ofContent content =
      Bytes.littleEndian 4 21 ++ ((EntryHeader.ofContent content).toBytes ++ content) := by
    rw [ofContent, hheader, List.append_assoc]
  have hsize : Bytes.ofLittleEndian (Bytes.littleEndian 4 21) = 21 :=
    Bytes.ofLittleEndian_littleEndian_of_lt (by decide)
  have hfour : (Bytes.littleEndian 4 21).length = 4 := rfl
  unfold Entry.content
  simp only [hentry, List.take_left' hfour, List.drop_left' hfour, hsize, List.length_append, hfour,
    hheader, List.take_left' hheader, List.drop_left' hheader, hread, hcheck]
  rw [if_neg (by omega), if_neg (by omega)]
  rfl

end Entry

end ScriptBundle

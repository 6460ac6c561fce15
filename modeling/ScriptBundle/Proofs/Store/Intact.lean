/-
# Intact entries

An entry's file is intact if it is a length of four bytes, a head of that length and the content,
and the head starts with the header that belongs in front of the content (`Entry.Intact`).  The
header may be written in any form that a reader of numbers takes, and anything may stand behind it
in the head.  Reading gives the content of an intact file, and nothing of any other
(`content_eq_ok_iff`).

What length a file states is up to the file.  It is compared with the bytes that are there before
any of them are taken (`taken_content`).

A file that was written and has lost bytes at its end, or won some, states the same length and has
the same head.  So it is intact only if the content that it has now has the digest of the content
that was written (`content_of_other_end`).
-/
import ScriptBundle.Proofs.Store.Damage

namespace ScriptBundle

/-! ## 1. Numbers in any form -/

namespace Varint

/-- The forms that a reader of numbers of some width takes. -/
inductive Form (width : Nat) : Nat → Bytes → Prop
  | short (b : UInt8) (h : b ≤ 250) : Form width b.toNat [b]
  | marked {marker : UInt8} {digits : Bytes} (hlarge : ¬ marker ≤ 250)
    (hmarker : markedWidth? marker = some digits.length) (hwidth : digits.length ≤ width) :
    Form width (Bytes.ofLittleEndian digits) (marker :: digits)

variable {width n : Nat} {bytes rest : Bytes}

theorem Form.decode? {form : Bytes} (h : Form width n form) (rest : Bytes) :
    Varint.decode? width (form ++ rest) = some (n, rest) := by
  cases h with
  | short b h => exact if_pos h
  | @marked marker digits hlarge hmarker hwidth =>
    rw [List.cons_append, Varint.decode?, if_neg hlarge, hmarker]
    simp only [Option.bind_eq_bind, Option.bind_some, List.length_append, List.take_left,
      List.drop_left]
    exact if_pos ⟨hwidth, Nat.le_add_right _ _⟩

/-- **A number is read** from each of its forms, whatever follows, and from nothing else. -/
theorem decode?_eq_some_iff :
    decode? width bytes = some (n, rest) ↔ ∃ form, Form width n form ∧ bytes = form ++ rest := by
  constructor
  · intro h
    cases bytes with
    | nil => cases h
    | cons first tail =>
      rw [decode?] at h
      split at h
      · rename_i hsmall
        cases h
        exact ⟨[first], .short first hsmall, rfl⟩
      · rename_i hlarge
        obtain ⟨size, hmarker, h⟩ := Option.bind_eq_some_iff.mp h
        split at h
        · rename_i hsize
          cases h
          have hlen : (tail.take size).length = size := List.length_take_of_le hsize.2
          refine ⟨first :: tail.take size, .marked hlarge (by rw [hlen, hmarker]) ?_, ?_⟩
          · exact hlen.trans_le hsize.1
          · rw [List.cons_append, List.take_append_drop]
        · cases h
  · rintro ⟨form, hform, rfl⟩
    exact hform.decode? rest

end Varint

/-! ## 2. Headers in any form -/

namespace EntryHeader

/-- A header written down, its version in any of the forms of a number of four bytes. -/
inductive Form (h : EntryHeader) : Bytes → Prop
  | intro {version : Bytes} (hmark : h.mark.length = 4)
    (hversion : Varint.Form 4 h.version version) :
    Form h (h.mark ++ (version ++ h.checksum.bytes))

variable {h : EntryHeader} {bytes : Bytes}

/-- **A header is read** from each of its forms, whatever follows, and from nothing else. -/
theorem ofBytes?_eq_some_iff :
    ofBytes? bytes = some h ↔ ∃ form rest, h.Form form ∧ bytes = form ++ rest := by
  constructor
  · intro hread
    obtain ⟨⟨version, rest⟩, hversion, hread⟩ := Option.bind_eq_some_iff.mp hread
    dsimp only at hread
    split at hread
    · rename_i hlength
      cases hread
      obtain ⟨form, hform, hrest⟩ := Varint.decode?_eq_some_iff.mp hversion
      refine ⟨_, rest.drop 16, .intro hlength.1 hform, ?_⟩
      calc bytes
        _ = bytes.take 4 ++ bytes.drop 4 := (List.take_append_drop 4 bytes).symm
        _ = bytes.take 4 ++ (form ++ (rest.take 16 ++ rest.drop 16)) := by
          rw [hrest, List.take_append_drop]
        _ = bytes.take 4 ++ (form ++ rest.take 16) ++ rest.drop 16 := by
          simp only [List.append_assoc]
    · cases hread
  · rintro ⟨_, rest, ⟨hmark, hversion⟩, rfl⟩
    have hchecksum := h.checksum.length_bytes
    unfold ofBytes?
    simp only [List.append_assoc, List.take_left' hmark, List.drop_left' hmark, hversion.decode?,
      Option.bind_eq_bind, Option.bind_some, List.take_left' hchecksum]
    exact dif_pos ⟨hmark, hchecksum⟩

end EntryHeader

/-! ## 3. Taking a file apart -/

namespace Entry

variable {raw p q r : Bytes}

/-- The length of the head that a file states. -/
def statedLength (raw : Bytes) : Nat := Bytes.ofLittleEndian (raw.take 4)

/-- The head of a file that is as long as it says. -/
def head (raw : Bytes) : Bytes := (raw.drop 4).take (statedLength raw)

/-- What is behind the head. -/
def tail (raw : Bytes) : Bytes := (raw.drop 4).drop (statedLength raw)

/-- How far reading a file comes, and what comes of it.  Only where the stated length fits into the
file is the head looked at, or what is behind it. -/
inductive Taken (raw : Bytes) : Except Defect Bytes → Prop
  | short (h : raw.length < 4) : Taken raw (.error .missingLength)
  | cut (hfour : 4 ≤ raw.length) (h : raw.length < 4 + statedLength raw) :
    Taken raw (.error .truncatedHeader)
  | undecodable (hlong : 4 + statedLength raw ≤ raw.length)
    (h : EntryHeader.ofBytes? (head raw) = none) : Taken raw (.error .undecodableHeader)
  | refused {header : EntryHeader} {cause : Defect} (hlong : 4 + statedLength raw ≤ raw.length)
    (hheader : EntryHeader.ofBytes? (head raw) = some header)
    (h : checkHeader header (tail raw) = .error cause) : Taken raw (.error cause)
  | intact (hlong : 4 + statedLength raw ≤ raw.length)
    (hheader : EntryHeader.ofBytes? (head raw) = some (.ofContent (tail raw))) :
    Taken raw (.ok (tail raw))

theorem checkHeader_of_ne {header : EntryHeader} (h : header ≠ .ofContent p) :
    ∃ cause, checkHeader header p = .error cause := by
  obtain ⟨mark, version, checksum⟩ := header
  by_cases hmark : mark = EntryHeader.entryMark
  · by_cases hversion : version = EntryHeader.currentVersion
    · have hchecksum : Digest.ofContent p ≠ checksum := by
        rintro rfl
        exact h (by rw [hmark, hversion]; rfl)
      exact ⟨_, (if_neg fun hne => hne hmark).trans
        ((if_neg fun hne => hne hversion).trans (if_pos hchecksum))⟩
    · exact ⟨_, (if_neg fun hne => hne hmark).trans (if_pos hversion)⟩
  · exact ⟨_, if_pos hmark⟩

theorem content_of_long (h : 4 + statedLength raw ≤ raw.length) :
    content raw =
      match EntryHeader.ofBytes? (head raw) with
      | none => .error .undecodableHeader
      | some header => checkHeader header (tail raw) >>= fun _ => .ok (tail raw) := by
  have hfour : ¬ raw.length < 4 := by omega
  have hlong : ¬ (raw.drop 4).length < statedLength raw := by
    rw [List.length_drop]
    omega
  exact (if_neg hfour).trans (if_neg hlong)

/-- **Every file is read in one of these ways.** -/
theorem taken_content (raw : Bytes) : Taken raw (content raw) := by
  by_cases hshort : raw.length < 4
  · have hcontent : content raw = .error .missingLength := if_pos hshort
    rw [hcontent]
    exact .short hshort
  by_cases hcut : raw.length < 4 + statedLength raw
  · have hrest : (raw.drop 4).length < statedLength raw := by
      rw [List.length_drop]
      omega
    have hcontent : content raw = .error .truncatedHeader := (if_neg hshort).trans (if_pos hrest)
    rw [hcontent]
    exact .cut (Nat.not_lt.mp hshort) hcut
  have hlong := Nat.not_lt.mp hcut
  rw [content_of_long hlong]
  cases hheader : EntryHeader.ofBytes? (head raw) with
  | none => exact .undecodable hlong hheader
  | some header =>
    dsimp only
    by_cases h : header = .ofContent (tail raw)
    · rw [h, checkHeader_ofContent]
      exact .intact hlong (h ▸ hheader)
    · obtain ⟨cause, hcause⟩ := checkHeader_of_ne h
      rw [hcause]
      exact .refused hlong hheader hcause

/-- A file that is put together of a length, a head of that length and something behind it is taken
apart into these. -/
theorem content_append {length front : Bytes} {header : EntryHeader} (hfour : length.length = 4)
    (hlength : Bytes.ofLittleEndian length = front.length)
    (hheader : EntryHeader.ofBytes? front = some header) (rest : Bytes) :
    content (length ++ (front ++ rest)) = checkHeader header rest >>= fun _ => .ok rest := by
  have hstated : statedLength (length ++ (front ++ rest)) = front.length := by
    rw [statedLength, List.take_left' hfour, hlength]
  have hhead : head (length ++ (front ++ rest)) = front := by
    rw [head, hstated, List.drop_left' hfour, List.take_left]
  have htail : tail (length ++ (front ++ rest)) = rest := by
    rw [tail, hstated, List.drop_left' hfour, List.drop_left]
  have hlong : 4 + statedLength (length ++ (front ++ rest)) ≤
      (length ++ (front ++ rest)).length := by
    rw [hstated, List.length_append, List.length_append, hfour]
    omega
  rw [content_of_long hlong, hhead, hheader, htail]

/-! ## 4. Intact files -/

/-- A file that is an intact entry of some content. -/
inductive Intact (content : Bytes) : Bytes → Prop
  | intro {length header rest : Bytes} (hfour : length.length = 4)
    (hlength : Bytes.ofLittleEndian length = (header ++ rest).length)
    (hheader : (EntryHeader.ofContent content).Form header) :
    Intact content (length ++ (header ++ rest ++ content))

/-- **Reading gives the content of an intact file**, and nothing of any other. -/
theorem content_eq_ok_iff : content raw = .ok p ↔ Intact p raw := by
  constructor
  · intro h
    have htaken := taken_content raw
    rw [h] at htaken
    cases htaken with
    | intact hlong hheader =>
      obtain ⟨form, rest, hform, hhead⟩ := EntryHeader.ofBytes?_eq_some_iff.mp hheader
      have hfour : (raw.take 4).length = 4 := List.length_take_of_le (by omega)
      have hstated : statedLength raw = (form ++ rest).length := by
        rw [← hhead, head, List.length_take_of_le]
        rw [List.length_drop]
        omega
      have hraw : raw.take 4 ++ (form ++ rest ++ tail raw) = raw := by
        rw [← hhead, head, tail, List.take_append_drop, List.take_append_drop]
      have hintact : Intact (tail raw) (raw.take 4 ++ (form ++ rest ++ tail raw)) :=
        .intro hfour hstated hform
      rwa [hraw] at hintact
  · rintro @⟨length, form, rest, hfour, hlength, hform⟩
    have hheader : EntryHeader.ofBytes? (form ++ rest) = some (.ofContent p) :=
      EntryHeader.ofBytes?_eq_some_iff.mpr ⟨form, rest, hform, rfl⟩
    rw [content_append hfour hlength hheader, checkHeader_ofContent]
    rfl

/-! ## 5. Files that were written -/

/-- What stands before the content in the file of an entry. -/
def front (content : Bytes) : Bytes :=
  let header := (EntryHeader.ofContent content).toBytes
  Bytes.littleEndian 4 header.length ++ header

/-- What is left of the content, or has become of it, is taken for the content only if it has the
digest that is in front of it. -/
theorem content_front_eq_ok_iff :
    content (front p ++ q) = .ok r ↔ r = q ∧ Digest.ofContent q = Digest.ofContent p := by
  have hlength : Bytes.ofLittleEndian
      (Bytes.littleEndian 4 (EntryHeader.ofContent p).toBytes.length) =
        (EntryHeader.ofContent p).toBytes.length := by
    rw [EntryHeader.length_toBytes_ofContent]
    exact Bytes.ofLittleEndian_littleEndian_of_lt (by decide)
  have hread := content_append (Bytes.length_littleEndian 4 _) hlength
    (EntryHeader.ofBytes?_toBytes p) q
  rw [front, List.append_assoc, hread]
  constructor
  · intro h
    obtain ⟨⟨⟩, hcheck, hq⟩ := bind_eq_ok_iff.mp h
    by_cases heq : EntryHeader.ofContent p = .ofContent q
    · exact ⟨(Except.ok.inj hq).symm, congrArg EntryHeader.checksum heq.symm⟩
    · obtain ⟨cause, hcause⟩ := checkHeader_of_ne heq
      rw [hcause] at hcheck
      cases hcheck
  · rintro ⟨rfl, hdigest⟩
    have heq : EntryHeader.ofContent p = .ofContent r := by
      rw [EntryHeader.ofContent, EntryHeader.ofContent, hdigest]
    rw [heq, checkHeader_ofContent]
    rfl

theorem length_front (p : Bytes) : (front p).length = 25 := by
  simp only [front, List.length_append, Bytes.length_littleEndian,
    EntryHeader.length_toBytes_ofContent]

/-- Of a part of the front, either the length is missing or it goes past the end. -/
theorem content_of_part_of_front (hpart : raw <+: front p) (hne : raw ≠ front p) :
    ∃ cause, content raw = .error cause := by
  cases hcontent : content raw with
  | error cause => exact ⟨cause, rfl⟩
  | ok q =>
    have htaken := taken_content raw
    rw [hcontent] at htaken
    cases htaken with
    | intact hlong _ =>
      have hlt : raw.length < 25 :=
        length_front p ▸
          Nat.lt_of_le_of_ne hpart.length_le fun hlen => hne (hpart.eq_of_length hlen)
      have htake : raw.take 4 = Bytes.littleEndian 4 21 := by
        obtain ⟨back, hback⟩ := hpart
        calc raw.take 4
          _ = (raw ++ back).take 4 := (List.take_append_of_le_length (by omega)).symm
          _ = (front p).take 4 := by rw [hback]
          _ = Bytes.littleEndian 4 21 := List.take_left' (Bytes.length_littleEndian 4 _)
      have hstated : statedLength raw = 21 := by
        rw [statedLength, htake]
        rfl
      omega

/-- **Bytes lost or won.**  A file that was written and ends elsewhere now is no intact entry,
unless the content that it has now has the digest of the one that it had. -/
theorem content_of_other_end (hend : raw <+: ofContent p ∨ ofContent p <+: raw)
    (hne : raw ≠ ofContent p)
    (hdigest : ∀ q ≠ p, raw = front p ++ q → Digest.ofContent q ≠ Digest.ofContent p) :
    ∃ cause, content raw = .error cause := by
  have hfront : front p <+: ofContent p := List.prefix_append _ _
  have hsides : raw <+: front p ∨ front p <+: raw := by
    rcases hend with hcut | hlonger
    · exact List.prefix_or_prefix_of_prefix hcut hfront
    · exact .inr (hfront.trans hlonger)
  by_cases hpart : raw <+: front p ∧ raw ≠ front p
  · exact content_of_part_of_front hpart.1 hpart.2
  have hbehind : front p <+: raw := by
    rcases hsides with hshort | hbehind
    · by_cases heq : raw = front p
      · exact heq ▸ List.prefix_rfl
      · exact absurd ⟨hshort, heq⟩ hpart
    · exact hbehind
  obtain ⟨q, rfl⟩ := hbehind
  have hq : q ≠ p := by
    rintro rfl
    exact hne rfl
  cases hcontent : content (front p ++ q) with
  | error cause => exact ⟨cause, rfl⟩
  | ok r => exact absurd (content_front_eq_ok_iff.mp hcontent).2 (hdigest q hq rfl)

end Entry

/-! ## 6. Entries in a folder -/

namespace FolderStore

variable {s s' : FolderStore} {key : String} {raw content : Bytes}

theorem read_of_content {p : Bytes} (hkept : s.kept? key = some raw)
    (h : Entry.content raw = .ok p) : s.read key = .ok (some p) := by
  unfold read
  simp only [kept?_eq_some_iff.mp hkept, h]

theorem read_of_defect {cause : Entry.Defect} (hkept : s.kept? key = some raw)
    (h : Entry.content raw = .error cause) :
    s.read key = .error (.defect (s.entryPath key) cause) := by
  unfold read
  simp only [kept?_eq_some_iff.mp hkept, h]

theorem read_eq_ok_iff (hkept : s.kept? key = some raw) {p : Bytes} :
    s.read key = .ok (some p) ↔ Entry.Intact p raw := by
  rw [← Entry.content_eq_ok_iff]
  cases hcontent : Entry.content raw with
  | ok content => simp [read_of_content hkept hcontent]
  | error cause => simp [read_of_defect hkept hcontent]

theorem get_eq_some_iff (hkept : s.kept? key = some raw) {p : Bytes} :
    Backend.get s key = some p ↔ Entry.Intact p raw := by
  rw [get_eq, hkept, Option.bind_some, ← Entry.content_eq_ok_iff]
  cases Entry.content raw <;> simp [Except.toOption]

/-- **Entry files.**  Reading the file under a key gives a content exactly if the file is an intact
entry of it.  Of any other file there is a complaint, the entry counts as absent, and nothing is
taken out of the file that is not in it, whatever length the file states.  In particular that is so
of a file that was written and then has lost bytes at its end or won some, if the digest of the
content that it would have now is not that of the content that it had. -/
theorem file_exact (hkept : s.kept? key = some raw) :
    (∀ p, s.read key = .ok (some p) ↔ Entry.Intact p raw) ∧
    (∀ p, Backend.get s key = some p ↔ Entry.Intact p raw) ∧
    ((∀ p, ¬ Entry.Intact p raw) → Backend.get s key = none ∧
      ∃ cause, s.read key = .error (.defect (s.entryPath key) cause)) ∧
    Entry.Taken raw (Entry.content raw) ∧
    ∀ (before after : FolderStore) (p : Bytes), before.write key p = (.ok (), after) →
      ∃ written, after.kept? key = some written ∧ Entry.Intact p written ∧
        ((raw <+: written ∨ written <+: raw) → raw ≠ written →
          (∀ q ≠ p, raw = Entry.front p ++ q → Digest.ofContent q ≠ Digest.ofContent p) →
            Backend.get s key = none ∧
              ∃ cause, s.read key = .error (.defect (s.entryPath key) cause)) := by
  have hmiss : ∀ {cause}, Entry.content raw = .error cause → Backend.get s key = none ∧
      ∃ cause, s.read key = .error (.defect (s.entryPath key) cause) := by
    intro cause hcause
    refine ⟨?_, cause, read_of_defect hkept hcause⟩
    rw [get_eq, hkept, Option.bind_some, hcause]
    rfl
  refine ⟨fun p => read_eq_ok_iff hkept, fun p => get_eq_some_iff hkept, fun hnone => ?_,
    Entry.taken_content raw, fun before after p hwrite => ?_⟩
  · cases hcontent : Entry.content raw with
    | error cause => exact hmiss hcontent
    | ok p => exact absurd (Entry.content_eq_ok_iff.mp hcontent) (hnone p)
  · refine ⟨_, kept?_of_write hwrite, Entry.content_eq_ok_iff.mp (Entry.content_ofContent p), ?_⟩
    intro hend hne hdigest
    obtain ⟨cause, hcause⟩ := Entry.content_of_other_end hend hne hdigest
    exact hmiss hcause

namespace Example

/-- The folder with one entry in it. -/
def written : FolderStore := (fresh.write "ab" [7]).2

/-- The file of the entry without its last byte. -/
def shortened : Bytes := (Entry.ofContent [7]).dropLast

/-- The folder with that file in the entry's place. -/
def cut : FolderStore :=
  ⟨written.tree.put ["builds", "cache", "ab.plc"] (.file shortened), written.folder⟩

/-- The entry is found as long as its file is whole. -/
theorem file_exact_cut :
    written.kept? "ab" = some (Entry.ofContent [7]) ∧ Backend.get written "ab" = some [7] ∧
      cut.kept? "ab" = some shortened ∧ Backend.get cut "ab" = none := by
  have hwrite : fresh.write "ab" [7] = (.ok (), written) := Prod.ext (by decide +kernel) rfl
  have hkept : written.kept? "ab" = some (Entry.ofContent [7]) := kept?_of_write hwrite
  have hcut : cut.kept? "ab" = some shortened := by decide +kernel
  have hshort : shortened <+: Entry.ofContent [7] := List.dropLast_prefix _
  have hne : shortened ≠ Entry.ofContent [7] := by decide +kernel
  have hother : Digest.ofContent [] ≠ Digest.ofContent [7] := by decide +kernel
  obtain ⟨-, hget, -⟩ := file_exact hkept
  obtain ⟨-, -, -, -, hends⟩ := file_exact hcut
  obtain ⟨bytes, hbytes, -, hmiss⟩ := hends fresh written [7] hwrite
  obtain rfl : Entry.ofContent [7] = bytes := Option.some.inj (hkept.symm.trans hbytes)
  refine ⟨hkept, (hget [7]).mpr (Entry.content_eq_ok_iff.mp (Entry.content_ofContent [7])), hcut,
    (hmiss (.inl hshort) hne fun q _ hq => ?_).1⟩
  have hempty : shortened = Entry.front [7] ++ [] := by decide +kernel
  obtain rfl : q = [] := List.append_cancel_left (hq.symm.trans hempty)
  exact hother

end Example

end FolderStore

end ScriptBundle

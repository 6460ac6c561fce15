/-
# The text of a digest

A text is a digest if it has 32 characters that are hexadecimal digits, of either case, and of no
other text is there a digest.  What the digest is shown as is that text in lower case
(`Digest.text_exact`).

Bytes are read from any even number of digits.  The digits are taken two at a time: two of them are
the digits of one byte, whatever their cases (`Hex.exists_of_isDigit`).

The text of a digest is the key of its build in a store and the name of the entry's file.  So no two
digests get one key, or entries at one path, and two paths of entries never lead to one place.
-/
import ScriptBundle.Proofs.Text
import ScriptBundle.Proofs.Store.Keyed

namespace ScriptBundle

/-! ## 1. Hexadecimal digits -/

namespace Hex

/-- A hexadecimal digit of either case. -/
def IsDigit (c : Char) : Prop :=
  ('0' ≤ c ∧ c ≤ '9') ∨ ('a' ≤ c ∧ c ≤ 'f') ∨ ('A' ≤ c ∧ c ≤ 'F')

instance (c : Char) : Decidable (IsDigit c) := inferInstanceAs (Decidable (_ ∨ _))

/-- A character whose lower case is a digit has an ASCII code. -/
theorem toNat_lt_of_toLower {c : Char} {n : Nat} (hn : n < 16)
    (h : c.toLower = Char.ofNat (digit n).toNat) : c.toNat < 128 := by
  have hcode : ∀ k : Fin 16, (Char.ofNat (digit k.val).toNat).toNat < 128 := by decide
  unfold Char.toLower at h
  split at h
  · rename_i hupper
    have hhigh : c.toNat ≤ 90 := UInt32.le_iff_toNat_le.mp hupper.2
    omega
  · exact h ▸ hcode ⟨n, hn⟩

theorem IsDigit.toNat_lt {c : Char} (h : IsDigit c) : c.toNat < 128 := by
  rcases h with ⟨-, h⟩ | ⟨-, h⟩ | ⟨-, h⟩ <;>
    exact Nat.lt_of_le_of_lt (UInt32.le_iff_toNat_le.mp h) (by decide)

theorem isDigit_iff_of_lt {c : Char} (hc : c.toNat < 128) :
    IsDigit c ↔ ∃ n < 16, c.toLower = Char.ofNat (digit n).toNat := by
  have hall : ∀ k : Fin 128, IsDigit (Char.ofNat k.val) ↔
      ∃ n < 16, (Char.ofNat k.val).toLower = Char.ofNat (digit n).toNat := by decide +kernel
  have h := hall ⟨c.toNat, hc⟩
  rwa [Char.ofNat_toNat] at h

/-- The digits of either case are the characters whose lower case is a written digit. -/
theorem isDigit_iff {c : Char} :
    IsDigit c ↔ ∃ n < 16, c.toLower = Char.ofNat (digit n).toNat :=
  ⟨fun h => (isDigit_iff_of_lt h.toNat_lt).mp h,
    fun ⟨n, hn, h⟩ => (isDigit_iff_of_lt (toNat_lt_of_toLower hn h)).mpr ⟨n, hn, h⟩⟩

/-! ## 2. Bytes for digits -/

/-- The characters of hexadecimal text. -/
def digitChars (bytes : Bytes) : List Char := (digits bytes).map fun c => Char.ofNat c.toNat

theorem toList_encode (bytes : Bytes) : (encode bytes).toList = digitChars bytes :=
  String.toList_ofList

theorem length_digitChars (bytes : Bytes) : (digitChars bytes).length = 2 * bytes.length := by
  rw [digitChars, List.length_map, length_digits]

/-- **Any two digits a byte.**  As many bytes as there are pairs of digits have these digits. -/
theorem exists_of_isDigit {size : Nat} {cs : List Char} (hlen : cs.length = 2 * size)
    (hcs : ∀ c ∈ cs, IsDigit c) :
    ∃ bytes : Bytes, bytes.length = size ∧ cs.map Char.toLower = digitChars bytes := by
  induction size generalizing cs with
  | zero =>
    obtain rfl := List.length_eq_zero_iff.mp hlen
    exact ⟨[], rfl, rfl⟩
  | succ size ih =>
    match cs, hlen with
    | c :: d :: cs, hlen =>
      simp only [List.forall_mem_cons] at hcs
      obtain ⟨hc, hd, hcs⟩ := hcs
      obtain ⟨high, hhigh, hc⟩ := isDigit_iff.mp hc
      obtain ⟨low, hlow, hd⟩ := isDigit_iff.mp hd
      simp only [List.length_cons] at hlen
      obtain ⟨bytes, hsize, hbytes⟩ := ih (by omega) hcs
      refine ⟨UInt8.ofNat (16 * high + low) :: bytes, by rw [List.length_cons, hsize], ?_⟩
      rw [digitChars, digits_cons_ofNat hhigh hlow, List.map_cons, List.map_cons, List.map_cons,
        List.map_cons, hc, hd, hbytes, digitChars]

/-- The lower case of a text is hexadecimal text of so many bytes exactly if it has two digits for
each of them. -/
theorem exists_toLower_eq_encode_iff {s : String} {size : Nat} :
    (∃ bytes : Bytes, bytes.length = size ∧ s.toLower = encode bytes) ↔
      s.toList.length = 2 * size ∧ ∀ c ∈ s.toList, IsDigit c := by
  have hchars : ∀ bytes,
      s.toLower = encode bytes ↔ s.toList.map Char.toLower = digitChars bytes := by
    intro bytes
    rw [← toList_encode, ← String.toList_map, String.toList_inj]
    rfl
  simp only [hchars]
  constructor
  · rintro ⟨bytes, rfl, hbytes⟩
    constructor
    · rw [← length_digitChars, ← hbytes, List.length_map]
    · intro c hc
      have hlower : c.toLower ∈ digitChars bytes := hbytes ▸ List.mem_map_of_mem hc
      obtain ⟨code, hcode, hdigit⟩ := List.mem_map.mp hlower
      obtain ⟨n, hn, rfl⟩ := exists_of_mem_digits hcode
      exact isDigit_iff.mpr ⟨n, hn, hdigit.symm⟩
  · rintro ⟨hlen, hcs⟩
    exact exists_of_isDigit hlen hcs

end Hex

/-! ## 3. Digests -/

namespace Digest

/-- A text is read as the digest that its lower case shows. -/
theorem parse_eq_ok_iff {s : String} {d : Digest} : parse s = .ok d ↔ s.toLower = d.text := by
  rw [text, ← Hex.decode_eq_ok_iff, parse, Hex.decode?]
  obtain ⟨bytes, hsize⟩ := d
  cases hread : Hex.decode s with
  | error e => simp only [Except.toOption, reduceCtorEq]
  | ok bytes' =>
    simp only [Except.toOption, Except.ok.injEq]
    split
    · simp only [Except.ok.injEq, Digest.mk.injEq]
    · rename_i hother
      constructor
      · rintro ⟨⟩
      · rintro rfl
        exact absurd hsize hother

/-- Which texts are read as digests. -/
theorem exists_parse_eq_ok_iff {s : String} :
    (∃ d, parse s = .ok d) ↔ s.toList.length = 32 ∧ ∀ c ∈ s.toList, Hex.IsDigit c := by
  rw [show 32 = 2 * 16 from rfl, ← Hex.exists_toLower_eq_encode_iff]
  simp only [parse_eq_ok_iff]
  constructor
  · rintro ⟨d, h⟩
    exact ⟨d.bytes, d.length_bytes, h⟩
  · rintro ⟨bytes, hsize, h⟩
    exact ⟨⟨bytes, hsize⟩, h⟩

theorem text_inj {d e : Digest} : d.text = e.text ↔ d = e := ⟨text_injective, fun h => h ▸ rfl⟩

/-- **The text of a digest.**  A text is read as a digest exactly if it is 32 hexadecimal digits of
either case, and the digest is shown as the text in lower case, from which it is read back.  So no
two digests have one key in a store, nor entries at one path or in one file. -/
theorem text_exact :
    (∀ s, (∃ d, parse s = .ok d) ↔ s.toList.length = 32 ∧ ∀ c ∈ s.toList, Hex.IsDigit c) ∧
    (∀ s d, parse s = .ok d ↔ s.toLower = d.text) ∧
    (∀ d, parse d.text = .ok d) ∧
    (∀ d e : Digest, d.text = e.text ↔ d = e) ∧
    (∀ (s : FolderStore) (d e : Digest), s.entryPath d.text = s.entryPath e.text ↔ d = e) ∧
    ∀ (s : FolderStore) (d e : Digest) p, s.tree.resolve (s.entryPath d.text) = .ok p →
      s.tree.resolve (s.entryPath e.text) = .ok p → d = e := by
  refine ⟨fun s => exists_parse_eq_ok_iff, fun s d => parse_eq_ok_iff, parse_text,
    fun d e => text_inj, fun s d e => ?_, fun s d e p hd he => ?_⟩
  · rw [FolderStore.entryPath_inj d.isHexKey_text e.isHexKey_text, text_inj]
  · exact text_inj.mp (FolderStore.key_eq_of_resolve d.isHexKey_text e.isHexKey_text hd he)

namespace Example

/-- A digest all of whose bytes are alike. -/
def uniform : Digest := ⟨List.replicate 16 0xcd, rfl⟩

/-- Its text, with some digits in upper case. -/
def mixed : String := "CDcdCDcdCDcdCDcdCDcdCDcdCDcdCDcd"

theorem text_exact_mixed :
    ∃ d, parse mixed = .ok d ∧
      (default : FolderStore).tree.resolve ((default : FolderStore).entryPath d.text) =
        .ok ["cdcdcdcdcdcdcdcdcdcdcdcdcdcdcdcd.plc"] ∧ d = uniform := by
  obtain ⟨hparse, hshown, -, -, -, hplace⟩ := text_exact
  obtain ⟨d, hd⟩ := (hparse mixed).mpr ⟨rfl, by simp [mixed, Hex.IsDigit]⟩
  have hlower : mixed.toLower = uniform.text := by decide +kernel
  have htext : d.text = uniform.text := ((hshown _ _).mp hd).symm.trans hlower
  have hthere : (default : FolderStore).tree.resolve
      ((default : FolderStore).entryPath uniform.text) =
        .ok ["cdcdcdcdcdcdcdcdcdcdcdcdcdcdcdcd.plc"] := by decide
  have hthere' := htext ▸ hthere
  exact ⟨d, hd, hthere', hplace default d uniform _ hthere' hthere⟩

end Example

end Digest

end ScriptBundle

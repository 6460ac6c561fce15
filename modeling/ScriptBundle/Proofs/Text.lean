/-
# Texts that denote the same

A reader of text is lenient: hexadecimal digits may be of either case, and an integer may have a
sign, leading zeros and white space around it.  So one byte string or integer has many texts.  Here
each kind of text is described by how it is written, and the reader is shown to find in every text
of a kind what the text denotes.

* `Hex.decode_eq_ok_iff`: hexadecimal text, in either case, and of nothing else are there bytes.
* `Int128.ofChars?_of_denotes`: decimal text of an integer.
-/
import Mathlib.Tactic.Ring
import ScriptBundle.Bytes.Hex
import ScriptBundle.Int128
import ScriptBundle.Proofs.Outcome
import ScriptBundle.Text.Blank

namespace ScriptBundle

/-! ## 1. White space and marks -/

namespace Text

/-- Characters with nothing but white space around them. -/
def Padded (core cs : List Char) : Prop :=
  ∃ front back, cs = front ++ (core ++ back) ∧
    (∀ c ∈ front, isBlank c = true) ∧ ∀ c ∈ back, isBlank c = true

theorem padded_self (cs : List Char) : Padded cs cs :=
  ⟨[], [], by simp, List.forall_mem_nil _, List.forall_mem_nil _⟩

theorem dropWhile_isBlank_append {core rest : List Char} (hcore : ∀ c ∈ core, isBlank c = false)
    (hne : core ≠ []) : (core ++ rest).dropWhile isBlank = core ++ rest := by
  obtain ⟨c, cs, rfl⟩ := List.exists_cons_of_ne_nil hne
  simp [hcore c List.mem_cons_self]

/-- Nothing but the white space is trimmed off what has none itself. -/
theorem trim_of_padded {core cs : List Char} (h : Padded core cs)
    (hcore : ∀ c ∈ core, isBlank c = false) (hne : core ≠ []) : trim cs = core := by
  obtain ⟨front, back, rfl, hfront, hback⟩ := h
  have hstart : (front ++ (core ++ back)).dropWhile isBlank = core ++ back := by
    rw [List.dropWhile_append_of_pos hfront, dropWhile_isBlank_append hcore hne]
  have hend : (back.reverse ++ core.reverse).dropWhile isBlank = core.reverse := by
    rw [List.dropWhile_append_of_pos fun c hc => hback c (List.mem_reverse.mp hc),
      ← List.append_nil core.reverse]
    exact dropWhile_isBlank_append (fun c hc => hcore c (List.mem_reverse.mp hc))
      (List.reverse_eq_nil_iff.not.mpr hne)
  rw [trim, hstart, List.reverse_append, hend, List.reverse_reverse]

/-- What is trimmed off is white space. -/
theorem padded_trim (cs : List Char) : Padded (trim cs) cs := by
  have hsplit : ∀ l : List Char, ∃ front, l = front ++ l.dropWhile isBlank ∧
      ∀ c ∈ front, isBlank c = true := fun l =>
    ⟨l.takeWhile isBlank, List.takeWhile_append_dropWhile.symm, fun c hc =>
      List.all_eq_true.mp List.all_takeWhile c hc⟩
  obtain ⟨front, hfront, hblank⟩ := hsplit cs
  obtain ⟨back, hback, hblank'⟩ := hsplit (cs.dropWhile isBlank).reverse
  refine ⟨front, back.reverse, ?_, hblank, fun c hc => hblank' c (List.mem_reverse.mp hc)⟩
  rw [trim, ← List.reverse_append, ← hback, List.reverse_reverse, ← hfront]

theorem splitAtFirst_eq_none {mark : Char} {cs : List Char} (h : mark ∉ cs) :
    splitAtFirst mark cs = none := by
  cases hs : splitAtFirst mark cs with
  | none => rfl
  | some parts =>
    obtain ⟨before, after⟩ := parts
    obtain rfl := eq_of_splitAtFirst hs
    exact absurd (List.mem_append_right before List.mem_cons_self) h

/-- The first mark is the one behind a part that has none. -/
theorem splitAtFirst_append {mark : Char} {before : List Char} (h : mark ∉ before)
    (after : List Char) : splitAtFirst mark (before ++ mark :: after) = some (before, after) := by
  induction before with
  | nil => simp [splitAtFirst]
  | cons c rest ih =>
    rw [List.mem_cons, not_or] at h
    simp [splitAtFirst, Ne.symm h.1, ih h.2]

end Text

/-! ## 2. Hexadecimal text -/

namespace Hex

/-- A digit in upper case stands for the same number. -/
theorem digitValue?_upper {n : Nat} (hn : n < 16) (hten : 10 ≤ n) :
    String.utf8EncodeChar (Char.ofNat ((digit n).toNat - 32)) = [digit n - 32] ∧
      digitValue? (digit n - 32) = some n := by
  have hall : ∀ k : Fin 16, 10 ≤ k.val →
      String.utf8EncodeChar (Char.ofNat ((digit k.val).toNat - 32)) = [digit k.val - 32] ∧
        digitValue? (digit k.val - 32) = some k.val := by decide
  exact hall ⟨n, hn⟩ hten

/-- The character of a digit has the code of the digit, and the letters come last. -/
theorem toNat_ofNat_digit {n : Nat} (hn : n < 16) :
    (Char.ofNat (digit n).toNat).toNat = (digit n).toNat ∧
      (96 < (digit n).toNat → 10 ≤ n) := by
  have hall : ∀ k : Fin 16, (Char.ofNat (digit k.val).toNat).toNat = (digit k.val).toNat ∧
      (96 < (digit k.val).toNat → 10 ≤ k.val) := by decide
  exact hall ⟨n, hn⟩

/-- Either case of a digit is one byte, and that byte is read as the digit. -/
theorem exists_digitValue?_of_toLower {c : Char} {n : Nat} (hn : n < 16)
    (h : c.toLower = Char.ofNat (digit n).toNat) :
    ∃ code, String.utf8EncodeChar c = [code] ∧ digitValue? code = some n := by
  obtain ⟨hcode, hletter⟩ := toNat_ofNat_digit hn
  unfold Char.toLower at h
  split at h
  · rename_i hupper
    have hlow : 65 ≤ c.toNat := UInt32.le_iff_toNat_le.mp hupper.1
    have hhigh : c.toNat ≤ 90 := UInt32.le_iff_toNat_le.mp hupper.2
    have hshift : c.toNat + 32 = (digit n).toNat := by
      rw [← hcode, ← h]
      change c.toNat + 32 = (c.val + 32).toNat
      rw [UInt32.toNat_add]
      exact (Nat.mod_eq_of_lt (show c.toNat + 32 < _ by omega)).symm
    have hten : 10 ≤ n := hletter (by omega)
    have hc : c = Char.ofNat ((digit n).toNat - 32) := by
      rw [← hshift, Nat.add_sub_cancel, Char.ofNat_toNat]
    obtain ⟨hbyte, hvalue⟩ := digitValue?_upper hn hten
    exact ⟨digit n - 32, hc ▸ hbyte, hvalue⟩
  · exact ⟨digit n, h ▸ utf8EncodeChar_digit hn, digitValue?_digit hn⟩

/-- The bytes of a text in either case are read pair by pair. -/
theorem pairs_of_toLower {bytes : Bytes} {cs : List Char}
    (h : cs.map Char.toLower = (digits bytes).map fun c => Char.ofNat c.toNat) (position : Nat) :
    pairs position (cs.flatMap String.utf8EncodeChar) = .ok bytes ∧
      (cs.flatMap String.utf8EncodeChar).length = 2 * bytes.length := by
  induction bytes generalizing cs position with
  | nil =>
    obtain rfl := List.map_eq_nil_iff.mp h
    exact ⟨rfl, rfl⟩
  | cons b rest ih =>
    have hb := b.toNat_lt
    obtain ⟨c, c', cs, rfl, hc, hc', hcs⟩ : ∃ c c' cs', cs = c :: c' :: cs' ∧
        c.toLower = Char.ofNat (digit (b.toNat / 16)).toNat ∧
        c'.toLower = Char.ofNat (digit (b.toNat % 16)).toNat ∧
        cs'.map Char.toLower = (digits rest).map fun c => Char.ofNat c.toNat := by
      obtain ⟨c, cs, rfl, hc, h⟩ := List.map_eq_cons_iff.mp h
      obtain ⟨c', cs, rfl, hc', h⟩ := List.map_eq_cons_iff.mp h
      exact ⟨c, c', cs, rfl, hc, hc', h⟩
    obtain ⟨high, hhigh, hvalue⟩ := exists_digitValue?_of_toLower (by omega) hc
    obtain ⟨low, hlow, hvalue'⟩ := exists_digitValue?_of_toLower (by omega) hc'
    obtain ⟨hpairs, hlen⟩ := ih hcs (position + 2)
    have hwhole : 16 * (b.toNat / 16) + b.toNat % 16 = b.toNat := by omega
    simp only [List.flatMap_cons, hhigh, hlow, List.cons_append, List.nil_append]
    constructor
    · simp only [pairs, digitAt, hvalue, hvalue', hpairs, bind, Except.bind, pure, Except.pure,
        hwhole, UInt8.ofNat_toNat]
    · simp only [List.length_cons, hlen]
      omega

/-- **Hexadecimal text is read in either case.** -/
theorem decode_of_toLower {s : String} {bytes : Bytes} (h : s.toLower = encode bytes) :
    decode s = .ok bytes := by
  have hcs : s.toList.map Char.toLower = (digits bytes).map fun c => Char.ofNat c.toNat := by
    rw [← String.toList_map]
    exact (congrArg String.toList h).trans String.toList_ofList
  obtain ⟨hpairs, hlen⟩ := pairs_of_toLower hcs 0
  have hcodes : Bytes.ofText s = s.toList.flatMap String.utf8EncodeChar := by
    rw [← Bytes.ofText_ofList, String.ofList_toList]
  rw [decode, hcodes, decodeCodes, if_neg (by omega), hpairs]

/-- A code that is read as a digit is that digit, in lower case or, if it is a letter, in upper
case. -/
theorem eq_of_digitValue? {c : UInt8} {n : Nat} (h : digitValue? c = some n) :
    c = digit n ∨ 10 ≤ n ∧ c = digit n - 32 := by
  have hall : ∀ k : Fin 256, (digitValue? (UInt8.ofNat k)).all
      (fun n => decide (UInt8.ofNat k = digit n ∨ 10 ≤ n ∧ UInt8.ofNat k = digit n - 32)) =
        true := by
    decide +kernel
  have hc := hall ⟨c.toNat, c.toNat_lt⟩
  rw [UInt8.ofNat_toNat, h] at hc
  exact of_decide_eq_true hc

/-- Lowering the case of a digit gives the digit in lower case. -/
theorem toLower_of_digitValue? {c : UInt8} {n : Nat} (h : digitValue? c = some n) :
    ∃ char, String.utf8EncodeChar char = [c] ∧ char.toLower = Char.ofNat (digit n).toNat := by
  have hn := digitValue?_lt h
  rcases eq_of_digitValue? h with rfl | ⟨hten, rfl⟩
  · have hall : ∀ k : Fin 16, (Char.ofNat (digit k.val).toNat).toLower =
        Char.ofNat (digit k.val).toNat := by decide
    exact ⟨_, utf8EncodeChar_digit hn, hall ⟨n, hn⟩⟩
  · have hall : ∀ k : Fin 16, 10 ≤ k.val → (Char.ofNat ((digit k.val).toNat - 32)).toLower =
        Char.ofNat (digit k.val).toNat := by decide
    exact ⟨_, (digitValue?_upper hn hten).1, hall ⟨n, hn⟩ hten⟩

theorem digitValue?_of_digitAt {position n : Nat} {c : UInt8} (h : digitAt position c = .ok n) :
    digitValue? c = some n := by
  unfold digitAt at h
  split at h
  · cases h
    assumption
  · cases h

/-- The digits of a byte are the two that it is made of. -/
theorem digits_cons_ofNat {high low : Nat} (hhigh : high < 16) (hlow : low < 16) (bytes : Bytes) :
    digits (UInt8.ofNat (16 * high + low) :: bytes) = digit high :: digit low :: digits bytes := by
  have hbyte : (UInt8.ofNat (16 * high + low)).toNat = 16 * high + low :=
    UInt8.toNat_ofNat_of_lt' (show _ < 256 by omega)
  rw [digits, hbyte, show (16 * high + low) / 16 = high by omega,
    show (16 * high + low) % 16 = low by omega]

/-- Pairs of digits that are read are those of the bytes, in either case. -/
theorem toLower_of_pairs {bytes codes : Bytes} {position : Nat}
    (h : pairs position codes = .ok bytes) :
    ∃ cs : List Char, codes = cs.flatMap String.utf8EncodeChar ∧
      cs.map Char.toLower = (digits bytes).map fun c => Char.ofNat c.toNat := by
  fun_induction pairs position codes generalizing bytes with
  | case1 =>
    cases h
    exact ⟨[], rfl, rfl⟩
  | case2 => cases h
  | case3 position high low rest ih =>
    simp only [bind_eq_ok_iff, pure_eq_ok_iff] at h
    obtain ⟨hi, hhigh, lo, hlow, tail, htail, rfl⟩ := h
    obtain ⟨cs, rfl, hcs⟩ := ih htail
    have hhigh := digitValue?_of_digitAt hhigh
    have hlow := digitValue?_of_digitAt hlow
    obtain ⟨c, hc, hc'⟩ := toLower_of_digitValue? hhigh
    obtain ⟨d, hd, hd'⟩ := toLower_of_digitValue? hlow
    refine ⟨c :: d :: cs, ?_, ?_⟩
    · rw [List.flatMap_cons, List.flatMap_cons, hc, hd]
      rfl
    · rw [digits_cons_ofNat (digitValue?_lt hhigh) (digitValue?_lt hlow)]
      simp only [List.map_cons, hc', hd', hcs]

/-- **Hexadecimal text is read in either case**, and nothing else is. -/
theorem decode_eq_ok_iff {s : String} {bytes : Bytes} :
    decode s = .ok bytes ↔ s.toLower = encode bytes := by
  refine ⟨fun h => ?_, decode_of_toLower⟩
  rw [decode, decodeCodes] at h
  split at h
  · cases h
  obtain ⟨cs, hcodes, hcs⟩ := toLower_of_pairs h
  obtain rfl : s = String.ofList cs := Bytes.ofText_injective (by rw [hcodes, Bytes.ofText_ofList])
  change (String.ofList cs).map Char.toLower = encode bytes
  rw [encode, ← hcs, ← String.toList_inj, String.toList_map, String.toList_ofList,
    String.toList_ofList]

theorem exists_of_mem_digits {bytes : Bytes} {code : UInt8} (h : code ∈ digits bytes) :
    ∃ n < 16, code = digit n := by
  induction bytes with
  | nil => cases h
  | cons b rest ih =>
    have hb := b.toNat_lt
    simp only [digits, List.mem_cons] at h
    rcases h with rfl | rfl | h
    · exact ⟨_, by omega, rfl⟩
    · exact ⟨_, by omega, rfl⟩
    · exact ih h

/-- Only digits occur in hexadecimal text. -/
theorem not_mem_of_toLower {s : String} {bytes : Bytes} (h : s.toLower = encode bytes)
    {mark : Char} (hmark : ∀ n < 16, Char.ofNat (digit n).toNat ≠ mark.toLower) :
    mark ∉ s.toList := by
  intro hmem
  have hlower : mark.toLower ∈ (encode bytes).toList := by
    rw [← h]
    change mark.toLower ∈ (s.map Char.toLower).toList
    rw [String.toList_map]
    exact List.mem_map_of_mem hmem
  rw [encode, String.toList_ofList] at hlower
  obtain ⟨code, hcode, heq⟩ := List.mem_map.mp hlower
  obtain ⟨n, hn, rfl⟩ := exists_of_mem_digits hcode
  exact hmark n hn heq

end Hex

/-! ## 3. Integers -/

namespace Numeral

/-- A body with an optional sign in front. -/
inductive Signed : (negative : Bool) → (body cs : List Char) → Prop
  | plain (body : List Char) : Signed false body body
  | plus (body : List Char) : Signed false body ('+' :: body)
  | minus (body : List Char) : Signed true body ('-' :: body)

/-- A magnitude with its sign. -/
def withSign (negative : Bool) (n : Nat) : Int := if negative then -(n : Int) else n

theorem withSign_mul (negative : Bool) (n k : Nat) :
    withSign negative (n * k) = withSign negative n * k := by
  cases negative <;> simp [withSign]

/-- The characters are an optional sign and the digits of an integer. -/
def Denotes (cs : List Char) (z : Int) : Prop :=
  ∃ negative ds, Signed negative ds cs ∧ isNumeral ds = true ∧ z = withSign negative (value ds)

theorem isNumeral_iff {cs : List Char} :
    isNumeral cs = true ↔ cs ≠ [] ∧ ∀ c ∈ cs, c.isDigit = true := by
  simp [isNumeral]

theorem integer?_of_denotes {cs : List Char} {z : Int} (h : Denotes cs z) :
    integer? cs = some z := by
  obtain ⟨negative, ds, hsign, hds, rfl⟩ := h
  cases hsign with
  | plain => exact integer?_of_isNumeral hds
  | plus => simp [integer?, hds, withSign]
  | minus => simp [integer?, hds, withSign]

/-- Neither a digit nor a sign nor a point is white space. -/
theorem isBlank_eq_false {c : Char} (h : c.isDigit = true ∨ c = '+' ∨ c = '-' ∨ c = '.') :
    Text.isBlank c = false := by
  have hblanks : Text.blanks.all
      (fun b => decide ¬(b.isDigit = true ∨ b = '+' ∨ b = '-' ∨ b = '.')) = true := by decide
  rw [Bool.eq_false_iff]
  intro hblank
  exact of_decide_eq_true (List.all_eq_true.mp hblanks c (List.contains_iff_mem.mp hblank)) h

/-- A signed body is as free of white space as the body is. -/
theorem Signed.isBlank_eq_false {negative : Bool} {body cs : List Char}
    (h : Signed negative body cs) (hbody : ∀ c ∈ body, Text.isBlank c = false) :
    ∀ c ∈ cs, Text.isBlank c = false := by
  cases h with
  | plain => exact hbody
  | plus => exact List.forall_mem_cons.mpr ⟨by decide, hbody⟩
  | minus => exact List.forall_mem_cons.mpr ⟨by decide, hbody⟩

theorem Signed.ne_nil {negative : Bool} {body cs : List Char} (h : Signed negative body cs)
    (hbody : body ≠ []) : cs ≠ [] := by
  cases h with
  | plain => exact hbody
  | plus => exact List.cons_ne_nil _ _
  | minus => exact List.cons_ne_nil _ _

end Numeral

open Numeral Text

/-- **Decimal text of an integer is read as the integer**, once the white space is gone. -/
theorem Int128.ofChars?_of_denotes {n : Int128} {core cs : List Char} (hcore : Denotes core n.val)
    (h : Padded core cs) : ofChars? (trim cs) = some n := by
  obtain ⟨negative, ds, hsign, hds, -⟩ := id hcore
  obtain ⟨hne, hdigits⟩ := isNumeral_iff.mp hds
  have hbody : ∀ c ∈ ds, isBlank c = false := fun c hc => isBlank_eq_false (.inl (hdigits c hc))
  rw [trim_of_padded h (hsign.isBlank_eq_false hbody) (hsign.ne_nil hne), ofChars?,
    integer?_of_denotes hcore, Option.bind_some, ofInt?_val]

end ScriptBundle

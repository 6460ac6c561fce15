/-
# Decimals and their texts

A text is read as a decimal if it writes a number, with white space around it or not, and the number
is in range.  `Real.Writes` says which number some characters write: an optional sign, digits, and
behind an optional point at most six more.  It knows of no range and of no reader, and the reader
refuses exactly what it has to (`Real.parse_exact`).

The reader works with numbers in range throughout.  It reads the digits on either side of the point
apart and puts them together in steps; that no step refuses a decimal in range is
`Real.ofParts?_eq_some_iff`.

Every decimal is written with all six places, and is read back from that text, the ones at both ends
of the range included.  So a decimal is told by its text (`Real.parse_text_exact`).
-/
import Mathlib.Algebra.Order.Field.Rat
import Mathlib.Data.Rat.Cast.CharZero
import Mathlib.Tactic.FieldSimp
import Mathlib.Tactic.Ring
import ScriptBundle.Codec.Encode
import ScriptBundle.Proofs.Text

namespace ScriptBundle

open Numeral Text

namespace Real

/-! ## 1. How a decimal is written -/

/-- Digits with an optional point: those before it and those behind it. -/
inductive Pointed : (body whole fraction : List Char) → Prop
  | without (whole : List Char) : Pointed whole whole []
  | point (whole fraction : List Char) : Pointed (whole ++ '.' :: fraction) whole fraction

/-- An optional sign, digits, and behind an optional point at most six more. -/
structure Spells (negative : Bool) (whole fraction cs : List Char) : Prop where
  form : ∃ body, Signed negative body cs ∧ Pointed body whole fraction
  isNumeral : isNumeral whole = true
  isDigit : ∀ c ∈ fraction, c.isDigit = true
  length_le : fraction.length ≤ places

/-- The characters are an optional sign, digits, and behind an optional point at most six more, and
the number that they denote is the decimal itself: all digits together are as many units of the
last place that is written. -/
def Denotes (cs : List Char) (r : Real) : Prop :=
  ∃ negative body whole fraction, Signed negative body cs ∧ Pointed body whole fraction ∧
    isNumeral whole = true ∧ (∀ c ∈ fraction, c.isDigit = true) ∧ fraction.length ≤ places ∧
    r.scaled.val * 10 ^ fraction.length = withSign negative (value (whole ++ fraction)) * scale

theorem denotes_iff {cs : List Char} {r : Real} : Denotes cs r ↔
    ∃ negative whole fraction, Spells negative whole fraction cs ∧
      r.scaled.val * 10 ^ fraction.length =
        withSign negative (value (whole ++ fraction)) * scale := by
  constructor
  · rintro ⟨negative, body, whole, fraction, hsign, hbody, hwhole, hfraction, hlen, heq⟩
    exact ⟨negative, whole, fraction, ⟨⟨body, hsign, hbody⟩, hwhole, hfraction, hlen⟩, heq⟩
  · rintro ⟨negative, whole, fraction, ⟨⟨body, hsign, hbody⟩, hwhole, hfraction, hlen⟩, heq⟩
    exact ⟨negative, body, whole, fraction, hsign, hbody, hwhole, hfraction, hlen, heq⟩

/-- The characters write a number: each digit behind the point counts a tenth of the one before. -/
def Writes (cs : List Char) (q : ℚ) : Prop :=
  ∃ negative whole fraction, Spells negative whole fraction cs ∧
    q = (if negative then -1 else 1) * (value whole + value fraction / 10 ^ fraction.length)

/-! ## 2. Millionths -/

theorem value_append (ds es : List Char) :
    value (ds ++ es) = value ds * 10 ^ es.length + value es := by
  rw [value, Nat.ofDigitChars_append, Nat.ofDigitChars_eq_ofDigitChars_zero, Nat.mul_comm]
  rfl

theorem value_replicate_zero (k : Nat) : value (List.replicate k '0') = 0 := by
  simp [value, Nat.ofDigitChars_replicate_zero]

/-- The places that are written and those that are not make up all of them. -/
theorem scale_eq {k : Nat} (h : k ≤ places) : scale = 10 ^ k * 10 ^ (places - k) := by
  rw [← Nat.pow_add, Nat.add_sub_cancel' h]
  rfl

/-- Places that are not written are zeros. -/
theorem millionths_eq (fraction : List Char) :
    millionths fraction = value fraction * 10 ^ (places - fraction.length) := by
  rw [millionths, value_append, value_replicate_zero, List.length_replicate, Nat.add_zero]

theorem value_lt {ds : List Char} (h : ∀ c ∈ ds, c.isDigit = true) :
    value ds < 10 ^ ds.length := by
  induction ds with
  | nil => decide
  | cons d ds ih =>
    obtain ⟨hd, hds⟩ := List.forall_mem_cons.mp h
    have hrest := ih hds
    have hdigit : value [d] ≤ 9 := by
      obtain ⟨-, hhigh⟩ := Char.isDigit_iff_toNat.mp hd
      change 10 * 0 + (d.toNat - '0'.toNat) ≤ 9
      have hzero : '0'.toNat = 48 := rfl
      have hnine : '9'.toNat = 57 := rfl
      omega
    have hsplit : value (d :: ds) = value [d] * 10 ^ ds.length + value ds := value_append [d] ds
    have hshare := Nat.mul_le_mul_right (10 ^ ds.length) hdigit
    rw [hsplit, List.length_cons, Nat.pow_succ]
    omega

theorem Spells.millionths_lt {negative : Bool} {whole fraction cs : List Char}
    (h : Spells negative whole fraction cs) : millionths fraction < scale := by
  rw [millionths_eq, scale_eq h.length_le]
  exact Nat.mul_lt_mul_of_pos_right (value_lt h.isDigit) (Nat.pow_pos (by decide))

/-- The number that all digits together denote, with its sign, by the parts. -/
theorem scaled_eq_iff {r : Real} {negative : Bool} {whole fraction : List Char}
    (hlen : fraction.length ≤ places) :
    r.scaled.val * 10 ^ fraction.length = withSign negative (value (whole ++ fraction)) * scale ↔
      r.scaled.val = withSign negative (value whole * scale + millionths fraction) := by
  have hpos : (10 : Int) ^ fraction.length ≠ 0 := pow_ne_zero _ (by decide)
  have hparts : value whole * scale + millionths fraction =
      value (whole ++ fraction) * 10 ^ (places - fraction.length) := by
    rw [value_append, millionths_eq, scale_eq hlen]
    ring
  have hshift : withSign negative (value (whole ++ fraction)) * scale =
      withSign negative (value whole * scale + millionths fraction) * 10 ^ fraction.length := by
    rw [hparts, withSign_mul, scale_eq hlen]
    push_cast
    ring
  rw [hshift, mul_left_inj' hpos]

/-! ## 3. Steps within the range -/

theorem exists_val_eq {z : Int} (hlow : -0x80000000000000000000000000000000 ≤ z)
    (hhigh : z < 0x80000000000000000000000000000000) : ∃ n : Int128, n.val = z :=
  ⟨⟨z, hlow, hhigh⟩, rfl⟩

/-- A decimal is put together in steps, each of which has a result in range. -/
theorem ofParts?_eq_some_iff_steps {negative : Bool} {whole behind : Nat} {r : Real} :
    ofParts? negative whole behind = some r ↔
      ∃ n b m : Int128, whole = n.val ∧ behind = b.val ∧ n.val * scale = m.val ∧
        if negative then ∃ k : Int128, -m.val = k.val ∧ k.val - b.val = r.scaled.val
        else m.val + b.val = r.scaled.val := by
  have hlast : ∀ o : Option Int128,
      (o.bind fun scaled => some (Real.mk scaled)) = some r ↔ o = some r.scaled := by
    rintro (_ | scaled)
    · exact ⟨fun h => (by cases h), fun h => (by cases h)⟩
    · exact ⟨fun h => (by cases h; rfl), fun h => (by cases h; rfl)⟩
  cases negative <;>
    simp [ofParts?, ofInt?, Option.bind_eq_some_iff, Int128.ofInt?_eq_some_iff, hlast]

/-- **No step refuses a decimal in range.**  Neither end of the range is a whole number, so the
whole part of a decimal in range is in range with either sign, and only the last step can leave
it. -/
theorem ofParts?_eq_some_iff {negative : Bool} {whole behind : Nat} (hbehind : behind < scale)
    {r : Real} : ofParts? negative whole behind = some r ↔
      r.scaled.val = withSign negative (whole * scale + behind) := by
  have hscale : scale = 1000000 := rfl
  rw [ofParts?_eq_some_iff_steps, withSign]
  rw [hscale] at hbehind ⊢
  constructor
  · rintro ⟨n, b, m, hn, hb, hm, hr⟩
    cases negative with
    | false =>
      rw [if_neg Bool.false_ne_true] at hr ⊢
      omega
    | true =>
      rw [if_pos rfl] at hr ⊢
      obtain ⟨k, hk, hr⟩ := hr
      omega
  · intro hr
    have hlow := r.scaled.le_val
    have hhigh := r.scaled.val_lt
    have hsize : whole * 1000000 + behind ≤ 0x80000000000000000000000000000000 := by
      split at hr <;> omega
    obtain ⟨n, hn⟩ := exists_val_eq (z := whole) (by omega) (by omega)
    obtain ⟨b, hb⟩ := exists_val_eq (z := behind) (by omega) (by omega)
    obtain ⟨m, hm⟩ := exists_val_eq (z := whole * 1000000) (by omega) (by omega)
    refine ⟨n, b, m, hn.symm, hb.symm, by omega, ?_⟩
    cases negative with
    | false =>
      rw [if_neg Bool.false_ne_true] at hr ⊢
      omega
    | true =>
      rw [if_pos rfl] at hr ⊢
      obtain ⟨k, hk⟩ := exists_val_eq (z := -(whole * 1000000)) (by omega) (by omega)
      exact ⟨k, by omega, by omega⟩

/-! ## 4. Taking a text apart -/

theorem splitAtFirst_of_pointed {body whole fraction : List Char} (h : Pointed body whole fraction)
    (hwhole : ∀ c ∈ whole, c.isDigit = true) :
    (splitAtFirst '.' body).getD (body, []) = (whole, fraction) := by
  have hpoint : '.' ∉ whole := fun hmem => absurd (hwhole _ hmem) (by decide)
  cases h with
  | without => rw [splitAtFirst_eq_none hpoint, Option.getD_none]
  | point => rw [splitAtFirst_append hpoint, Option.getD_some]

theorem pointed_of_splitAtFirst {body whole fraction : List Char}
    (h : (splitAtFirst '.' body).getD (body, []) = (whole, fraction)) :
    Pointed body whole fraction := by
  cases hsplit : splitAtFirst '.' body with
  | none =>
    rw [hsplit] at h
    cases h
    exact .without body
  | some parts =>
    rw [hsplit] at h
    cases h
    obtain rfl := eq_of_splitAtFirst hsplit
    exact .point whole fraction

/-- **The parts of a body** are the digits on either side of its point. -/
theorem parts?_eq_some_iff {body whole fraction : List Char} :
    parts? body = some (whole, fraction) ↔ Pointed body whole fraction ∧
      isNumeral whole = true ∧ (∀ c ∈ fraction, c.isDigit = true) ∧ fraction.length ≤ places := by
  unfold parts?
  constructor
  · intro h
    rcases hsplit : (splitAtFirst '.' body).getD (body, []) with ⟨w, f⟩
    rw [hsplit] at h
    dsimp only at h
    split at h
    · rename_i hdigits
      cases h
      simp only [Bool.and_eq_true, List.all_eq_true, decide_eq_true_eq] at hdigits
      exact ⟨pointed_of_splitAtFirst hsplit, hdigits.1.1, hdigits.1.2, hdigits.2⟩
    · cases h
  · rintro ⟨hbody, hwhole, hfraction, hlen⟩
    rw [splitAtFirst_of_pointed hbody (isNumeral_iff.mp hwhole).2]
    simp only [hwhole, List.all_eq_true.mpr hfraction, hlen, decide_true, Bool.and_self, if_true]

/-- Only digits and the point occur in the body, and there is a digit. -/
theorem Pointed.chars {body whole fraction : List Char} (h : Pointed body whole fraction)
    (hwhole : isNumeral whole = true) (hfraction : ∀ c ∈ fraction, c.isDigit = true) :
    body ≠ [] ∧ ∀ c ∈ body, c.isDigit = true ∨ c = '.' := by
  obtain ⟨hne, hdigits⟩ := isNumeral_iff.mp hwhole
  cases h with
  | without => exact ⟨hne, fun c hc => .inl (hdigits c hc)⟩
  | point =>
    refine ⟨List.append_ne_nil_of_left_ne_nil hne _, fun c hc => ?_⟩
    rcases List.mem_append.mp hc with hc | hc
    · exact .inl (hdigits c hc)
    rcases List.mem_cons.mp hc with rfl | hc
    · exact .inr rfl
    · exact .inl (hfraction c hc)

theorem takeSign_of_signed {negative : Bool} {body cs : List Char} (h : Signed negative body cs)
    (hbody : ∀ c ∈ body, c.isDigit = true ∨ c = '.') : takeSign cs = (negative, body) := by
  cases h with
  | plain =>
    unfold takeSign
    split
    · exact absurd (hbody '-' List.mem_cons_self) (by decide)
    · exact absurd (hbody '+' List.mem_cons_self) (by decide)
    · rfl
  | plus => rfl
  | minus => rfl

theorem signed_of_takeSign {negative : Bool} {body cs : List Char}
    (h : takeSign cs = (negative, body)) : Signed negative body cs := by
  unfold takeSign at h
  split at h <;> cases h
  · exact .minus body
  · exact .plus body
  · exact .plain body

/-- What spells a decimal is found inside the white space, and put together from its parts. -/
theorem ofChars?_of_spells {negative : Bool} {whole fraction core cs : List Char}
    (h : Spells negative whole fraction core) (hpadded : Padded core cs) :
    ofChars? cs = ofParts? negative (value whole) (millionths fraction) := by
  obtain ⟨⟨body, hsign, hbody⟩, hwhole, hfraction, hlen⟩ := h
  obtain ⟨hne, hchars⟩ := hbody.chars hwhole hfraction
  have hblank : ∀ c ∈ body, isBlank c = false := fun c hc =>
    isBlank_eq_false ((hchars c hc).imp id fun h => .inr (.inr h))
  have htrim : trim cs = core :=
    trim_of_padded hpadded (hsign.isBlank_eq_false hblank) (hsign.ne_nil hne)
  have htake : takeSign (trim cs) = (negative, body) := htrim ▸ takeSign_of_signed hsign hchars
  have hparts := parts?_eq_some_iff.mpr ⟨hbody, hwhole, hfraction, hlen⟩
  rw [ofChars?, htake]
  dsimp only [Option.bind_eq_bind]
  rw [hparts, Option.bind_some]

/-- What is read spells a decimal. -/
theorem exists_spells_of_ofChars? {cs : List Char} {r : Real} (h : ofChars? cs = some r) :
    ∃ core negative whole fraction, Padded core cs ∧ Spells negative whole fraction core := by
  rcases hsign : takeSign (trim cs) with ⟨negative, body⟩
  simp only [ofChars?, hsign, Option.bind_eq_bind, Option.bind_eq_some_iff] at h
  obtain ⟨⟨whole, fraction⟩, hparts, -⟩ := h
  obtain ⟨hbody, hdigits⟩ := parts?_eq_some_iff.mp hparts
  exact ⟨trim cs, negative, whole, fraction, padded_trim cs,
    ⟨body, signed_of_takeSign hsign, hbody⟩, hdigits.1, hdigits.2.1, hdigits.2.2⟩

/-! ## 5. What is read -/

theorem ofChars?_eq_some_iff_of_spells {negative : Bool} {whole fraction core cs : List Char}
    (h : Spells negative whole fraction core) (hpadded : Padded core cs) {r : Real} :
    ofChars? cs = some r ↔
      r.scaled.val = withSign negative (value whole * scale + millionths fraction) := by
  rw [ofChars?_of_spells h hpadded, ofParts?_eq_some_iff h.millionths_lt]

/-- **Decimal text is read exactly**, and nothing else is read. -/
theorem ofChars?_eq_some_iff {cs : List Char} {r : Real} :
    ofChars? cs = some r ↔ ∃ core, Padded core cs ∧ Denotes core r := by
  constructor
  · intro h
    obtain ⟨core, negative, whole, fraction, hpadded, hspells⟩ := exists_spells_of_ofChars? h
    have hscaled := (ofChars?_eq_some_iff_of_spells hspells hpadded).mp h
    exact ⟨core, hpadded, denotes_iff.mpr ⟨negative, whole, fraction, hspells,
      (scaled_eq_iff hspells.length_le).mpr hscaled⟩⟩
  · rintro ⟨core, hpadded, hdenotes⟩
    obtain ⟨negative, whole, fraction, hspells, heq⟩ := denotes_iff.mp hdenotes
    exact (ofChars?_eq_some_iff_of_spells hspells hpadded).mpr
      ((scaled_eq_iff hspells.length_le).mp heq)

/-- The number that is written, in millionths. -/
theorem Spells.mul_scale {negative : Bool} {whole fraction cs : List Char}
    (h : Spells negative whole fraction cs) :
    (if negative then -1 else 1) * (value whole + value fraction / 10 ^ fraction.length : ℚ)
        * 10 ^ 6 = (withSign negative (value whole * scale + millionths fraction) : ℤ) := by
  have hscale : (10 : ℚ) ^ 6 = scale := by norm_num [scale, places]
  have hpos : (10 : ℚ) ^ fraction.length ≠ 0 := pow_ne_zero _ (by decide)
  have hsize : (value whole + value fraction / 10 ^ fraction.length : ℚ) * scale =
      (value whole * scale + millionths fraction : ℕ) := by
    rw [millionths_eq, scale_eq h.length_le]
    push_cast
    field_simp
  rw [hscale, mul_assoc, hsize]
  cases negative <;> simp [withSign]

/-- The range, as one of rational numbers. -/
theorem inRange_iff {z : ℤ} : (-2 ^ 127 ≤ (z : ℚ) ∧ (z : ℚ) < 2 ^ 127) ↔
    -0x80000000000000000000000000000000 ≤ z ∧ z < 0x80000000000000000000000000000000 := by
  have hlow : (-2 ^ 127 : ℚ) = (-0x80000000000000000000000000000000 : ℤ) := by norm_num
  have hhigh : (2 ^ 127 : ℚ) = (0x80000000000000000000000000000000 : ℤ) := by norm_num
  rw [hlow, hhigh, Int.cast_le, Int.cast_lt]

/-- The millionths of a number that is written are whole. -/
theorem Writes.exists_int {cs : List Char} {q : ℚ} (h : Writes cs q) :
    ∃ z : ℤ, (z : ℚ) = q * 10 ^ 6 := by
  obtain ⟨negative, whole, fraction, hspells, rfl⟩ := h
  exact ⟨_, hspells.mul_scale.symm⟩

theorem parse_eq_ok_iff {s : String} {r : Real} : parse s = .ok r ↔ ofChars? s.toList = some r := by
  unfold parse
  split
  · rename_i found hfound
    rw [hfound]
    exact ⟨fun h => congrArg some (Except.ok.inj h),
      fun h => congrArg Except.ok (Option.some.inj h)⟩
  · rename_i hnone
    rw [hnone]
    exact ⟨fun h => (by cases h), fun h => (by cases h)⟩

/-- A text that writes a number is read as the decimal that is the number. -/
theorem parse_eq_ok_iff_of_writes {s : String} {core : List Char} {q : ℚ} {r : Real}
    (hpadded : Padded core s.toList) (h : Writes core q) :
    parse s = .ok r ↔ (r.scaled.val : ℚ) = q * 10 ^ 6 := by
  obtain ⟨negative, whole, fraction, hspells, rfl⟩ := h
  rw [parse_eq_ok_iff, ofChars?_eq_some_iff_of_spells hspells hpadded, hspells.mul_scale,
    Int.cast_inj]

/-- **Decimals are read exactly.**  A text is read if it writes a number, with white space around it
or not, whose millionths are in range, and not otherwise.  It is read as that number, and if it is
refused, the complaint shows it. -/
theorem parse_exact (s : String) :
    ((∃ r, parse s = .ok r) ↔ ∃ core q, Padded core s.toList ∧ Writes core q ∧
      -2 ^ 127 ≤ q * 10 ^ 6 ∧ q * 10 ^ 6 < 2 ^ 127) ∧
    (∀ core q, Padded core s.toList → Writes core q →
      ∀ r, parse s = .ok r ↔ (r.scaled.val : ℚ) = q * 10 ^ 6) ∧
    ∀ e, parse s = .error e → e.input = s := by
  refine ⟨⟨?_, ?_⟩, fun core q hpadded hwrites r => parse_eq_ok_iff_of_writes hpadded hwrites, ?_⟩
  · rintro ⟨r, hr⟩
    obtain ⟨core, negative, whole, fraction, hpadded, hspells⟩ :=
      exists_spells_of_ofChars? (parse_eq_ok_iff.mp hr)
    have hwrites : Writes core _ := ⟨negative, whole, fraction, hspells, rfl⟩
    refine ⟨core, _, hpadded, hwrites, ?_⟩
    rw [← (parse_eq_ok_iff_of_writes hpadded hwrites).mp hr]
    exact inRange_iff.mpr ⟨r.scaled.le_val, r.scaled.val_lt⟩
  · rintro ⟨core, q, hpadded, hwrites, hrange⟩
    obtain ⟨z, hz⟩ := hwrites.exists_int
    rw [← hz] at hrange
    obtain ⟨hlow, hhigh⟩ := inRange_iff.mp hrange
    obtain ⟨n, rfl⟩ := exists_val_eq hlow hhigh
    exact ⟨⟨n⟩, (parse_eq_ok_iff_of_writes hpadded hwrites).mpr hz⟩
  · intro e he
    unfold parse at he
    split at he <;> cases he
    rfl

/-- The range reaches one millionth further below zero than above. -/
example : (parse "-170141183460469231731687303715884.105728").toOption.isSome ∧
    (parse "+170141183460469231731687303715884.105728").toOption = none := by decide +kernel

end Real

/-! ## 6. The text of a decimal -/

namespace Numeral

theorem value_padded (width n : Nat) : value (padded width n) = n := by
  rw [padded, Real.value_append, Real.value_replicate_zero, Nat.zero_mul, Nat.zero_add,
    value_digits]

theorem isDigit_of_mem_padded {width n : Nat} {c : Char} (h : c ∈ padded width n) :
    c.isDigit = true := by
  rcases List.mem_append.mp h with h | h
  · rw [List.eq_of_mem_replicate h]
    rfl
  · exact isDigit_of_mem_digits h

/-- A number of fewer digits is filled up to the width. -/
theorem length_padded {width n : Nat} (hpos : 0 < width) (h : n < 10 ^ width) :
    (padded width n).length = width := by
  have hlen : (digits n).length ≤ width := (Nat.length_toDigits_le_iff (by decide) hpos).mpr h
  rw [padded, List.length_append, List.length_replicate, Nat.sub_add_cancel hlen]

end Numeral

namespace Real

/-- A decimal is spelled by its sign, its whole part, and all six places. -/
theorem spells_chars (r : Real) :
    Spells (r.scaled.val < 0) (digits (r.scaled.val.natAbs / scale))
      (padded places (r.scaled.val.natAbs % scale)) r.chars where
  form := by
    refine ⟨_, ?_, .point _ _⟩
    unfold chars
    by_cases h : r.scaled.val < 0
    · rw [if_pos h, decide_eq_true h]
      exact .minus _
    · rw [if_neg h, decide_eq_false h]
      exact .plain _
  isNumeral := isNumeral_digits _
  isDigit _ := isDigit_of_mem_padded
  length_le := (length_padded (by decide) (Nat.mod_lt _ (by decide))).le

/-- **Round trip.**  A decimal is read back from its text. -/
theorem parse_text (r : Real) : parse r.text = .ok r := by
  have hpadded : Padded r.chars r.text.toList := by
    rw [text, String.toList_ofList]
    exact padded_self r.chars
  refine parse_eq_ok_iff.mpr ((ofChars?_eq_some_iff_of_spells r.spells_chars hpadded).mpr ?_)
  -- All six places are there, so the digits behind the point are as many millionths as they say.
  have hlen : (padded places (r.scaled.val.natAbs % scale)).length = places :=
    length_padded (by decide) (Nat.mod_lt _ (by decide))
  have hsize := Nat.div_add_mod' r.scaled.val.natAbs scale
  rw [millionths_eq, hlen, value_padded, value_digits, Nat.sub_self, Nat.pow_zero, Nat.mul_one,
    hsize, withSign]
  by_cases h : r.scaled.val < 0
  · rw [decide_eq_true h, if_pos rfl]
    omega
  · rw [decide_eq_false h, if_neg Bool.false_ne_true]
    omega

/-- **Texts of decimals.**  Every decimal is read back from its text, and the text is encoded as the
decimal is.  So no two decimals have the same text. -/
theorem parse_text_exact (n : Int128) :
    parse (text ⟨n⟩) = .ok ⟨n⟩ ∧
    (∀ network, Codec.encode network (.primitive .real) (.text (text ⟨n⟩)) = .ok (.int n)) ∧
    ∀ m, text ⟨m⟩ = text ⟨n⟩ ↔ m = n := by
  refine ⟨parse_text ⟨n⟩, fun network => ?_, fun m => ⟨fun h => ?_, fun h => h ▸ rfl⟩⟩
  · change Primitive.encode network .top .real (.text (text ⟨n⟩)) = _
    rw [Primitive.encode, Codec.realOf, parse_text]
    rfl
  · have hsame := parse_text ⟨m⟩
    rw [h, parse_text ⟨n⟩] at hsame
    cases hsame
    rfl

end Real

end ScriptBundle

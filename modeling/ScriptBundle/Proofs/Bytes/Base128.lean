/-
# Numbers in groups of seven bits are read exactly

A group is the digits of one number: its last byte is the only one below `0x80`.  The reader takes a
group off the front of its bytes and gives the number that the group denotes, if that is below
`2 ^ 64`, and there is no other case in which it gives one (`Base128.decode_exact`).

The reader keeps the number that the digits so far make up, and asks before each digit whether there
is room for it.  What carries the proof is how much that number weighs in the end: with as many
digits still to come as the group has, it is multiplied by 128 that many times
(`decodeFrom_eq_ok_iff`).  Nothing is ever taken back, so a number that has no room at some digit
has none in the end.

Superfluous zeros in front are the only liberty there is (`decode_eq_ok_iff`), so of all the groups
that denote a number the written one is the shortest.
-/
import ScriptBundle.Bytes.Base128

namespace ScriptBundle.Base128

/-! ## 1. Taking in digits -/

/-- A digit that another one follows is taken in, as long as the number has room for it. -/
theorem decodeFrom_more {high n : Nat} {rest : Bytes} (hn : n < 128)
    (hroom : high * 128 < 0x10000000000000000) :
    decodeFrom high (UInt8.ofNat (128 + n) :: rest) = decodeFrom (high * 128 + n) rest := by
  have hcode : (UInt8.ofNat (128 + n)).toNat = 128 + n :=
    UInt8.toNat_ofNat_of_lt' (show _ < 256 by omega)
  have hmore : ¬UInt8.ofNat (128 + n) < 128 := by
    rw [UInt8.lt_iff_toNat_lt, hcode]
    exact Nat.not_lt.mpr (Nat.le_add_right 128 n)
  rw [decodeFrom, if_neg (by omega)]
  simp only [hmore, if_false, hcode]
  congr 2
  omega

theorem decodeFrom_last {high n : Nat} {rest : Bytes} (hn : n < 128)
    (hroom : high * 128 < 0x10000000000000000) :
    decodeFrom high (UInt8.ofNat n :: rest) = .ok (UInt64.ofNat (high * 128 + n), rest) := by
  have hcode : (UInt8.ofNat n).toNat = n := UInt8.toNat_ofNat_of_lt' (show _ < 256 by omega)
  have hlast : UInt8.ofNat n < 128 := by
    rw [UInt8.lt_iff_toNat_lt, hcode]
    exact hn
  rw [decodeFrom, if_neg (by omega)]
  simp only [hlast, if_true, hcode, Nat.mod_eq_of_lt hn]

/-- The leading digits of a number leave the reader at that number. -/
theorem decodeFrom_leading (n : Nat) (hn : n < 0x10000000000000000) (rest : Bytes) :
    decodeFrom 0 (leading n ++ rest) = decodeFrom n rest := by
  induction n using Nat.strongRecOn generalizing rest with
  | ind n ih =>
    rw [leading]
    split
    · rename_i hzero
      rw [hzero, List.nil_append]
    · rename_i hpos
      have hsmaller : n / 128 < n := Nat.div_lt_self (by omega) (by decide)
      rw [List.append_assoc, ih (n / 128) hsmaller (by omega), List.singleton_append,
        decodeFrom_more (by omega) (by omega), Nat.div_add_mod']

/-- **A number is read back**, and what follows it is left. -/
theorem decode_encode_append (n : UInt64) (rest : Bytes) :
    decode (encode n ++ rest) = .ok (n, rest) := by
  have hn := n.toNat_lt
  rw [decode, encode, List.append_assoc, decodeFrom_leading _ (by omega), List.singleton_append,
    decodeFrom_last (by omega) (by omega), Nat.div_add_mod', UInt64.ofNat_toNat]

/-! ## 2. Superfluous zeros -/

/-- A number with superfluous zeros in front. -/
def padded (zeros : Nat) (n : UInt64) : Bytes := List.replicate zeros 0x80 ++ encode n

theorem decodeFrom_zeros (zeros : Nat) (rest : Bytes) :
    decodeFrom 0 (List.replicate zeros 0x80 ++ rest) = decodeFrom 0 rest := by
  induction zeros with
  | zero => rfl
  | succ zeros ih =>
    rw [List.replicate_succ, List.cons_append, ← ih]
    exact @decodeFrom_more 0 0 _ (by decide) (by decide)

/-- The last of the leading digits of a number is its lowest. -/
theorem leading_digit {high n : Nat} (hn : n < 128) (hpos : high * 128 + n ≠ 0) :
    leading (high * 128 + n) = leading high ++ [UInt8.ofNat (128 + n)] := by
  rw [leading, if_neg hpos, show (high * 128 + n) / 128 = high by omega,
    show (high * 128 + n) % 128 = n by omega]

/-- A byte is a last digit, or one that another digit follows. -/
theorem digit_cases (digit : UInt8) :
    ∃ n < 128, digit = UInt8.ofNat n ∨ digit = UInt8.ofNat (128 + n) := by
  have hdigit := digit.toNat_lt
  refine ⟨digit.toNat % 128, Nat.mod_lt _ (by decide), ?_⟩
  rcases Nat.lt_or_ge digit.toNat 128 with hlast | hmore
  · rw [Nat.mod_eq_of_lt hlast]
    exact .inl UInt8.ofNat_toNat.symm
  · rw [show 128 + digit.toNat % 128 = digit.toNat by omega]
    exact .inr UInt8.ofNat_toNat.symm

/-- What is read as a number is its digits from some point on, and zeros where it has none. -/
theorem exists_of_decodeFrom {high : Nat} {b rest : Bytes} {n : UInt64}
    (h : decodeFrom high b = .ok (n, rest)) :
    ∃ zeros group, b = group ++ rest ∧
      leading high ++ group = List.replicate zeros 0x80 ++ encode n := by
  induction b generalizing high with
  | nil => cases h
  | cons digit tail ih =>
    by_cases hroom : high * 128 < 0x10000000000000000
    · obtain ⟨low, hlow, rfl | rfl⟩ := digit_cases digit
      · -- the last digit
        rw [decodeFrom_last hlow hroom] at h
        cases h
        have hback : (UInt64.ofNat (high * 128 + low)).toNat = high * 128 + low :=
          UInt64.toNat_ofNat_of_lt' (show _ < 18446744073709551616 by omega)
        refine ⟨0, [UInt8.ofNat low], rfl, ?_⟩
        rw [encode, hback, show (high * 128 + low) / 128 = high by omega,
          show (high * 128 + low) % 128 = low by omega]
        rfl
      · rw [decodeFrom_more hlow hroom] at h
        obtain ⟨zeros, group, rfl, hgroup⟩ := ih h
        by_cases hzero : high * 128 + low = 0
        · -- nothing but zeros so far, and one more
          obtain ⟨rfl, rfl⟩ : high = 0 ∧ low = 0 := by omega
          refine ⟨zeros + 1, _ :: group, rfl, ?_⟩
          rw [List.replicate_succ, List.cons_append, ← hgroup, Nat.zero_mul, Nat.add_zero, leading,
            if_pos rfl]
          rfl
        · refine ⟨zeros, _ :: group, rfl, ?_⟩
          rw [← hgroup, leading_digit hlow hzero, List.append_assoc]
          rfl
    · rw [decodeFrom, if_pos (by omega)] at h
      cases h

/-- **Which bytes start with a number.**  Those that its shortest form starts, with any number of
zeros in front. -/
theorem decode_eq_ok_iff {b rest : Bytes} {n : UInt64} :
    decode b = .ok (n, rest) ↔ ∃ zeros, b = padded zeros n ++ rest := by
  constructor
  · intro h
    obtain ⟨zeros, group, rfl, hgroup⟩ := exists_of_decodeFrom h
    rw [leading, if_pos rfl, List.nil_append] at hgroup
    exact ⟨zeros, by rw [padded, hgroup]⟩
  · rintro ⟨zeros, rfl⟩
    rw [padded, List.append_assoc, decode, decodeFrom_zeros]
    exact decode_encode_append n rest

/-! ## 3. Groups -/

/-- The digits of one number: the last one is the only byte below `0x80`. -/
def IsGroup (g : Bytes) : Prop :=
  ∃ front last, g = front ++ [last] ∧ (∀ b ∈ front, 128 ≤ b) ∧ last < 128

/-- The number that digits denote, the most significant first. -/
def value : Bytes → Nat
  | [] => 0
  | b :: rest => b.toNat % 128 * Nat.pow 128 rest.length + value rest

theorem not_isGroup_nil : ¬IsGroup [] := by
  rintro ⟨front, last, hnil, -⟩
  simp at hnil

theorem isGroup_cons_of_last {b : UInt8} {g : Bytes} (hb : b < 128) :
    IsGroup (b :: g) ↔ g = [] := by
  constructor
  · rintro ⟨front, last, heq, hfront, -⟩
    cases front with
    | nil => exact (List.cons.inj heq).2
    | cons c front =>
      obtain ⟨rfl, -⟩ := List.cons.inj heq
      exact absurd hb (UInt8.not_lt.mpr (hfront b List.mem_cons_self))
  · rintro rfl
    exact ⟨[], b, rfl, List.forall_mem_nil _, hb⟩

theorem isGroup_cons_of_more {b : UInt8} {g : Bytes} (hb : ¬b < 128) :
    IsGroup (b :: g) ↔ IsGroup g := by
  constructor
  · rintro ⟨front, last, heq, hfront, hlast⟩
    cases front with
    | nil =>
      obtain ⟨rfl, -⟩ := List.cons.inj heq
      exact absurd hlast hb
    | cons c front =>
      exact ⟨front, last, (List.cons.inj heq).2, (List.forall_mem_cons.mp hfront).2, hlast⟩
  · rintro ⟨front, last, rfl, hfront, hlast⟩
    exact ⟨b :: front, last, rfl, List.forall_mem_cons.mpr ⟨UInt8.not_lt.mp hb, hfront⟩, hlast⟩

theorem weight_nil (high : Nat) : high * Nat.pow 128 ([] : Bytes).length + value [] = high := by
  simp [value]

/-- A digit that is taken in weighs what it does at the front of the group. -/
theorem weight_cons (high : Nat) (b : UInt8) (g : Bytes) :
    high * Nat.pow 128 (b :: g).length + value (b :: g) =
      (high * 128 + b.toNat % 128) * Nat.pow 128 g.length + value g := by
  have hpow : Nat.pow 128 (b :: g).length = 128 * Nat.pow 128 g.length := by
    rw [List.length_cons, Nat.pow_eq, Nat.pow_succ, Nat.mul_comm]
    rfl
  rw [value, hpow, ← Nat.mul_assoc, ← Nat.add_assoc, ← Nat.add_mul]

/-- A group at the front is the first byte and the rest of the group. -/
theorem exists_group_cons {digit : UInt8} {tail rest : Bytes} {P : Bytes → Prop} :
    (∃ g, digit :: tail = g ++ rest ∧ IsGroup g ∧ P g) ↔
      ∃ g, tail = g ++ rest ∧ IsGroup (digit :: g) ∧ P (digit :: g) := by
  constructor
  · rintro ⟨g, heq, hgroup, hP⟩
    rcases List.cons_eq_append_iff.mp heq with ⟨rfl, -⟩ | ⟨g, rfl, rfl⟩
    · exact absurd hgroup not_isGroup_nil
    · exact ⟨g, rfl, hgroup, hP⟩
  · rintro ⟨g, rfl, hgroup, hP⟩
    exact ⟨digit :: g, rfl, hgroup, hP⟩

/-- **What the reader takes off.**  With `high` made up by the digits before, it takes a group off
the front, and gives the number that `high` and the group make up together. -/
theorem decodeFrom_eq_ok_iff {high : Nat} {b rest : Bytes} {n : UInt64} :
    decodeFrom high b = .ok (n, rest) ↔
      ∃ g, b = g ++ rest ∧ IsGroup g ∧ high * Nat.pow 128 g.length + value g = n.toNat := by
  have hn : n.toNat < 0x10000000000000000 := n.toNat_lt
  induction b generalizing high with
  | nil =>
    refine iff_of_false nofun ?_
    rintro ⟨g, heq, hgroup, -⟩
    exact not_isGroup_nil ((List.append_eq_nil_iff.mp heq.symm).1 ▸ hgroup)
  | cons digit tail ih =>
    rw [exists_group_cons]
    simp only [weight_cons]
    rw [decodeFrom]
    by_cases hroom : 0x10000000000000000 ≤ high * 128
    · -- no room now, and none in the end
      rw [if_pos hroom]
      refine iff_of_false nofun ?_
      rintro ⟨g, -, -, hvalue⟩
      have hpow : 1 ≤ Nat.pow 128 g.length := Nat.pow_pos (by decide)
      have hweight := Nat.le_mul_of_pos_right (high * 128 + digit.toNat % 128) hpow
      omega
    · rw [if_neg hroom]
      have hlow : digit.toNat % 128 < 128 := Nat.mod_lt _ (by decide)
      have hback : (UInt64.ofNat (high * 128 + digit.toNat % 128)).toNat =
          high * 128 + digit.toNat % 128 :=
        UInt64.toNat_ofNat_of_lt' (show _ < 18446744073709551616 by omega)
      by_cases hlast : digit < 128
      · simp only [hlast, if_true, isGroup_cons_of_last hlast]
        constructor
        · rintro ⟨rfl, rfl⟩
          exact ⟨[], rfl, rfl, (weight_nil _).trans hback.symm⟩
        · rintro ⟨_, rfl, rfl, hvalue⟩
          have hnumber : UInt64.ofNat (high * 128 + digit.toNat % 128) = n :=
            UInt64.toNat_inj.mp (hback.trans ((weight_nil _).symm.trans hvalue))
          rw [hnumber, List.nil_append]
      · simp only [hlast, if_false, isGroup_cons_of_more hlast]
        exact ih

/-- The number at the front is that of the group there. -/
theorem decode_eq_ok_iff_group {b rest : Bytes} {n : UInt64} :
    decode b = .ok (n, rest) ↔ ∃ g, b = g ++ rest ∧ IsGroup g ∧ value g = n.toNat := by
  have hread := @decodeFrom_eq_ok_iff 0 b rest n
  simp only [Nat.zero_mul, Nat.zero_add] at hread
  exact hread

/-- The reader fails if no group at the front denotes a number that there is room for, and only
then. -/
theorem exists_decode_eq_error_iff {b : Bytes} : (∃ e, decode b = .error e) ↔
    ¬∃ g rest, b = g ++ rest ∧ IsGroup g ∧ value g < 0x10000000000000000 := by
  cases hread : decode b with
  | ok result =>
    obtain ⟨n, rest⟩ := result
    obtain ⟨g, heq, hgroup, hvalue⟩ := decode_eq_ok_iff_group.mp hread
    exact iff_of_false nofun (not_not_intro ⟨g, rest, heq, hgroup, hvalue ▸ n.toNat_lt⟩)
  | error e =>
    refine iff_of_true ⟨e, rfl⟩ ?_
    rintro ⟨g, rest, heq, hgroup, hroom⟩
    have hback : value g = (UInt64.ofNat (value g)).toNat := (UInt64.toNat_ofNat_of_lt' hroom).symm
    rw [decode_eq_ok_iff_group.mpr ⟨g, heq, hgroup, hback⟩] at hread
    cases hread

/-! ## 4. The shortest group of a number -/

/-- The written digits are a group of the number. -/
theorem isGroup_encode (n : UInt64) : IsGroup (encode n) ∧ value (encode n) = n.toNat := by
  obtain ⟨g, heq, hgroup⟩ := decode_eq_ok_iff_group.mp (decode_encode_append n [])
  rw [List.append_cancel_right heq]
  exact hgroup

/-- Every group of a number is its written digits with zeros in front. -/
theorem eq_padded_of_value {g : Bytes} {n : UInt64} (hgroup : IsGroup g)
    (hvalue : value g = n.toNat) :
    ∃ zeros, g = padded zeros n := by
  obtain ⟨zeros, heq⟩ := decode_eq_ok_iff.mp
    (decode_eq_ok_iff_group.mpr ⟨g, (List.append_nil g).symm, hgroup, hvalue⟩)
  exact ⟨zeros, by simpa using heq⟩

/-- A group of a number than which none of its groups is shorter. -/
def IsShortest (g : Bytes) (n : UInt64) : Prop :=
  (IsGroup g ∧ value g = n.toNat) ∧
    ∀ g', IsGroup g' ∧ value g' = n.toNat → g.length ≤ g'.length

theorem length_padded (zeros : Nat) (n : UInt64) :
    (padded zeros n).length = zeros + (encode n).length := by
  rw [padded, List.length_append, List.length_replicate]

/-- The written digits are the only shortest group of a number. -/
theorem isShortest_iff {g : Bytes} {n : UInt64} : IsShortest g n ↔ g = encode n := by
  constructor
  · rintro ⟨⟨hgroup, hvalue⟩, hshortest⟩
    obtain ⟨zeros, rfl⟩ := eq_padded_of_value hgroup hvalue
    have hle := hshortest (encode n) (isGroup_encode n)
    rw [length_padded] at hle
    obtain rfl : zeros = 0 := by omega
    rfl
  · rintro rfl
    refine ⟨isGroup_encode n, ?_⟩
    rintro g' ⟨hgroup, hvalue⟩
    obtain ⟨zeros, rfl⟩ := eq_padded_of_value hgroup hvalue
    rw [length_padded]
    exact Nat.le_add_left _ _

/-- **Numbers are read exactly.**  What is read is a group at the front, with the number that it
denotes and what follows it.  The reader fails if no group at the front denotes a number below
`2 ^ 64`, and only then.  The written digits are the one shortest group of their number, and they
are read back whatever follows them. -/
theorem decode_exact :
    (∀ b n rest, decode b = .ok (n, rest) ↔
      ∃ g, b = g ++ rest ∧ IsGroup g ∧ value g = n.toNat) ∧
    (∀ b, (∃ e, decode b = .error e) ↔
      ¬∃ g rest, b = g ++ rest ∧ IsGroup g ∧ value g < 0x10000000000000000) ∧
    (∀ n g, IsShortest g n ↔ g = encode n) ∧
    ∀ n rest, decode (encode n ++ rest) = .ok (n, rest) :=
  ⟨fun _ _ _ => decode_eq_ok_iff_group, fun _ => exists_decode_eq_error_iff,
    fun _ _ => isShortest_iff, decode_encode_append⟩

/-- A superfluous zero in front, and a byte that follows. -/
example : decode [0x80, 0x81, 0x00, 0xff] = .ok (128, [0xff]) := by rfl

end ScriptBundle.Base128

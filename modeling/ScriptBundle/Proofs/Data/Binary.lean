/-
# Data trees as bytes do not run together

A number in its shortest form shows its own end (`Varint.decode?_encode`), so the binary forms of
two trees are told apart, whatever follows them (`Data.separates_toBinary`).  Counts and lengths
have to fit sixteen bytes, which they do when the binary form as a whole is shorter than that.

A tree holds lists of trees and of pairs of trees.  `Data.induct` is the induction that proofs
about trees use.
-/
import ScriptBundle.Data.Binary
import ScriptBundle.Proofs.Separation

namespace ScriptBundle

/-! ## 1. Numbers -/

namespace Varint

/-- The least number that has no shortest form, `2 ^ 128`. -/
def limit : Nat := 0x100000000000000000000000000000000

theorem decode?_marked {marker : UInt8} {size n : Nat} (hmarker : markedWidth? marker = some size)
    (hlarge : ¬ marker ≤ 250) (hsize : size ≤ 16) (hn : n < Nat.pow 256 size) (rest : Bytes) :
    decode? 16 (marker :: Bytes.littleEndian size n ++ rest) = some (n, rest) := by
  have hlen := Bytes.length_littleEndian size n
  rw [List.cons_append, decode?, if_neg hlarge, hmarker]
  simp only [Option.bind_eq_bind, Option.bind_some, List.length_append, hlen]
  rw [if_pos ⟨hsize, Nat.le_add_right _ _⟩, List.take_left' hlen, List.drop_left' hlen,
    Bytes.ofLittleEndian_littleEndian_of_lt hn]

/-- **The shortest form is read back**, whatever follows it. -/
theorem decode?_encode {n : Nat} (hn : n < limit) (rest : Bytes) :
    decode? 16 (encode n ++ rest) = some (n, rest) := by
  unfold encode
  split
  · rename_i hle
    have hbyte : n < UInt8.size := Nat.lt_of_le_of_lt hle (by decide)
    have hback : (UInt8.ofNat n).toNat = n := UInt8.toNat_ofNat_of_lt' hbyte
    have hsmall : UInt8.ofNat n ≤ 250 := by
      rw [UInt8.le_iff_toNat_le, hback]
      exact hle
    rw [List.cons_append, decode?, if_pos hsmall, hback]
    rfl
  split
  · exact decode?_marked rfl (by decide) (by decide) (by assumption) rest
  split
  · exact decode?_marked rfl (by decide) (by decide) (by assumption) rest
  split
  · exact decode?_marked rfl (by decide) (by decide) (by assumption) rest
  · exact decode?_marked rfl (by decide) (by decide) hn rest

theorem separates_encode {m n : Nat} (hm : m < limit) (hn : n < limit) :
    Separates (encode m) (encode n) (m = n) :=
  .of_read (decode? 16) (decode?_encode hm) (decode?_encode hn)

theorem length_encode_pos (n : Nat) : 0 < (encode n).length := by
  unfold encode
  split
  · exact Nat.zero_lt_one
  repeat (split; · exact Nat.succ_pos _)
  exact Nat.succ_pos _

end Varint

namespace Data

/-! ## 2. Induction over a tree -/

/-- **Induction over a tree**, with a hypothesis for every tree directly inside it. -/
@[elab_as_elim]
theorem induct {motive : Data → Prop}
    (int : ∀ n, motive (.int n))
    (bytes : ∀ b, motive (.bytes b))
    (list : ∀ items, (∀ d ∈ items, motive d) → motive (.list items))
    (map : ∀ pairs, (∀ p ∈ pairs, motive p.1 ∧ motive p.2) → motive (.map pairs))
    (constr : ∀ tag fields, (∀ d ∈ fields, motive d) → motive (.constr tag fields)) (d : Data) :
    motive d := by
  have ih : ∀ e, sizeOf e < sizeOf d → motive e := fun e _ => induct int bytes list map constr e
  cases d with
  | int n => exact int n
  | bytes b => exact bytes b
  | list items =>
    simp only [Data.list.sizeOf_spec] at ih
    refine list items fun e he => ih e ?_
    have hlt := List.sizeOf_lt_of_mem he
    omega
  | map pairs =>
    simp only [Data.map.sizeOf_spec] at ih
    have hlt : ∀ p ∈ pairs, sizeOf p.1 < 1 + sizeOf pairs ∧ sizeOf p.2 < 1 + sizeOf pairs := by
      intro p hp
      have hpair := List.sizeOf_lt_of_mem hp
      cases p
      simp only [Prod.mk.sizeOf_spec] at hpair ⊢
      omega
    exact map pairs fun p hp => ⟨ih p.1 (hlt p hp).1, ih p.2 (hlt p hp).2⟩
  | constr tag fields =>
    simp only [Data.constr.sizeOf_spec] at ih
    refine constr tag fields fun e he => ih e ?_
    have hlt := List.sizeOf_lt_of_mem he
    omega
termination_by sizeOf d

/-! ## 3. Trees -/

/-- The binary form of a pair: the key before the value. -/
def binaryPair (p : Data × Data) : Bytes := toBinary p.1 ++ toBinary p.2

theorem binaryAll_eq_flatMap (items : List Data) : binaryAll items = items.flatMap toBinary := by
  induction items with
  | nil => rfl
  | cons d rest ih => rw [binaryAll, ih, List.flatMap_cons]

theorem binaryPairs_eq_flatMap (pairs : List (Data × Data)) :
    binaryPairs pairs = pairs.flatMap binaryPair := by
  induction pairs with
  | nil => rfl
  | cons p rest ih => rw [binaryPairs, ih, List.flatMap_cons, binaryPair]

/-- The number that stands for the kind of a node. -/
def kindNumber : Data → Nat
  | .int _ => 0
  | .bytes _ => 1
  | .list _ => 2
  | .map _ => 3
  | .constr _ _ => 4

/-- What follows the number of the kind. -/
def content : Data → Bytes
  | .int n => Varint.encode (Varint.zigZag n.val)
  | .bytes b => Varint.encode b.length ++ b
  | .list items => Varint.encode items.length ++ items.flatMap toBinary
  | .map pairs => Varint.encode pairs.length ++ pairs.flatMap binaryPair
  | .constr tag fields =>
    Varint.encode tag.toNat ++ (Varint.encode fields.length ++ fields.flatMap toBinary)

theorem toBinary_eq (d : Data) : d.toBinary = Varint.encode d.kindNumber ++ d.content := by
  cases d <;>
    simp [toBinary, kindNumber, content, binaryAll_eq_flatMap, binaryPairs_eq_flatMap,
      List.append_assoc]

theorem length_toBinary_pos (d : Data) : 0 < d.toBinary.length := by
  rw [toBinary_eq, List.length_append]
  exact Nat.add_pos_left (Varint.length_encode_pos _) _

section Items

variable {α : Type} {write : α → Bytes}

theorem length_le_of_mem {a : α} {as : List α} (h : a ∈ as) :
    (write a).length ≤ (as.flatMap write).length := by
  induction as with
  | nil => cases h
  | cons b rest ih =>
    rw [List.flatMap_cons, List.length_append]
    rcases List.mem_cons.mp h with rfl | h
    · exact Nat.le_add_right _ _
    · exact Nat.le_trans (ih h) (Nat.le_add_left _ _)

theorem length_le_length_flatMap (hpos : ∀ a, 0 < (write a).length) (as : List α) :
    as.length ≤ (as.flatMap write).length := by
  induction as with
  | nil => exact Nat.zero_le _
  | cons a as ih =>
    have ha := hpos a
    rw [List.flatMap_cons, List.length_append, List.length_cons]
    omega

/-- Items are told apart in a list if they are by themselves.  Neither the count nor an item is
longer than what is written of the list. -/
theorem separates_items {as bs : List α} (hpos : ∀ a, 0 < (write a).length)
    (ha : (as.flatMap write).length < Varint.limit) (hb : (bs.flatMap write).length < Varint.limit)
    (h : ∀ a ∈ as, ∀ b ∈ bs, (write a).length < Varint.limit → (write b).length < Varint.limit →
      Separates (write a) (write b) (a = b)) :
    Separates (Varint.encode as.length ++ as.flatMap write)
      (Varint.encode bs.length ++ bs.flatMap write) (as = bs) := by
  have hcount := Varint.separates_encode (Nat.lt_of_le_of_lt (length_le_length_flatMap hpos as) ha)
    (Nat.lt_of_le_of_lt (length_le_length_flatMap hpos bs) hb)
  refine (Separates.counted hcount fun a hma b hmb => h a hma b hmb ?_ ?_).imp fun heq => ?_
  · exact Nat.lt_of_le_of_lt (length_le_of_mem hma) ha
  · exact Nat.lt_of_le_of_lt (length_le_of_mem hmb) hb
  · rwa [List.forall₂_eq_eq_eq] at heq

end Items

theorem zigZag_lt_limit (n : Int128) : Varint.zigZag n.val < Varint.limit := by
  have hle := n.le_val
  have hlt := n.val_lt
  rw [Varint.limit]
  cases h : n.val with
  | ofNat k =>
    rw [h, Int.ofNat_eq_natCast] at hlt
    simp only [Varint.zigZag]
    omega
  | negSucc k =>
    rw [h] at hle
    simp only [Varint.zigZag]
    omega

theorem tag_lt_limit (tag : UInt64) : tag.toNat < Varint.limit :=
  Nat.lt_trans tag.toNat_lt (by decide)

/-- What a binary form ends with is no longer than the form. -/
theorem suffix_lt_limit {d : Data} {front back : Bytes} (h : d.toBinary.length < Varint.limit)
    (hcontent : d.content = front ++ back) : back.length < Varint.limit := by
  rw [toBinary_eq, hcontent, List.length_append, List.length_append] at h
  omega

theorem length_binaryPair_pos (p : Data × Data) : 0 < (binaryPair p).length := by
  rw [binaryPair, List.length_append]
  exact Nat.add_pos_left (length_toBinary_pos p.1) _

/-- It is enough to tell apart what follows the kinds, for trees of one kind. -/
theorem separates_of_content {a b : Data}
    (h : a.kindNumber = b.kindNumber → Separates a.content b.content (a = b)) :
    Separates a.toBinary b.toBinary (a = b) := by
  have hsmall : ∀ d : Data, d.kindNumber < Varint.limit := by
    intro d
    cases d <;> simp [kindNumber, Varint.limit]
  rw [toBinary_eq, toBinary_eq]
  exact ((Varint.separates_encode (hsmall a) (hsmall b)).append h).imp And.right

/-- **Trees do not run together.**  Their binary forms are told apart if they are not too long. -/
theorem separates_toBinary (a b : Data) (ha : a.toBinary.length < Varint.limit)
    (hb : b.toBinary.length < Varint.limit) : Separates a.toBinary b.toBinary (a = b) := by
  induction a using Data.induct generalizing b with
  | int n =>
    refine separates_of_content fun hkind => ?_
    cases b with
    | int m =>
      refine (Varint.separates_encode (zigZag_lt_limit n) (zigZag_lt_limit m)).imp fun heq => ?_
      rw [Int128.ext (Varint.zigZag_injective heq)]
    | _ => cases hkind
  | bytes x =>
    refine separates_of_content fun hkind => ?_
    cases b with
    | bytes y =>
      have hlen := Varint.separates_encode (suffix_lt_limit ha rfl) (suffix_lt_limit hb rfl)
      refine (hlen.append Separates.of_length_eq).imp fun ⟨_, heq⟩ => ?_
      rw [heq]
    | _ => cases hkind
  | list items ih =>
    refine separates_of_content fun hkind => ?_
    cases b with
    | list items' =>
      refine (separates_items length_toBinary_pos (suffix_lt_limit ha rfl) (suffix_lt_limit hb rfl)
        fun d hd e _ hdl hel => ih d hd e hdl hel).imp fun heq => ?_
      rw [heq]
    | _ => cases hkind
  | map pairs ih =>
    refine separates_of_content fun hkind => ?_
    cases b with
    | map pairs' =>
      refine (separates_items length_binaryPair_pos (suffix_lt_limit ha rfl)
        (suffix_lt_limit hb rfl) fun p hp q _ hpl hql => ?_).imp fun heq => ?_
      · obtain ⟨ihkey, ihvalue⟩ := ih p hp
        rw [binaryPair, List.length_append] at hpl hql
        have hkey := ihkey q.1 (by omega) (by omega)
        have hvalue := ihvalue q.2 (by omega) (by omega)
        exact (hkey.append fun _ => hvalue).imp fun ⟨hk, hv⟩ => Prod.ext hk hv
      · rw [heq]
    | _ => cases hkind
  | constr tag fields ih =>
    refine separates_of_content fun hkind => ?_
    cases b with
    | constr tag' fields' =>
      have htag := Varint.separates_encode (tag_lt_limit tag) (tag_lt_limit tag')
      have hfields := separates_items length_toBinary_pos
        (suffix_lt_limit ha (List.append_assoc _ _ _).symm)
        (suffix_lt_limit hb (List.append_assoc _ _ _).symm)
        fun d hd e _ hdl hel => ih d hd e hdl hel
      refine (htag.append fun _ => hfields).imp fun ⟨ht, hf⟩ => ?_
      rw [UInt64.toNat_inj.mp ht, hf]
    | _ => cases hkind

end Data

end ScriptBundle

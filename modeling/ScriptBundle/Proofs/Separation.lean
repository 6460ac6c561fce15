/-
# Strings that do not run together

What is hashed is one string put together from many, and it is worth hashing only if it can be
taken apart again.  The notion for this is `Separates`: two strings are told apart as far as some
fact `r`, and whatever is written behind them is left.  It is about one pair of strings, because
most writers here tell only those items apart whose sizes fit the width of their counts.

Strings that are separated one after another are separated together (`Separates.append`), and so
are counted lists (`Separates.counted`).  The fields of a hashed content are treated in section 2.
-/
import Mathlib.Data.List.Forall2
import ScriptBundle.Digest

namespace ScriptBundle

variable {α β : Type}

/-! ## 1. Separation -/

/-- Whatever follows the two strings, if the whole is the same then `r` holds, and the same
follows. -/
def Separates (s t : List β) (r : Prop) : Prop := ∀ u v, s ++ u = t ++ v → r ∧ u = v

namespace Separates

variable {s t s' t' : List β} {r r' : Prop}

theorem of_eq (h : Separates s t r) (heq : s = t) : r := (h [] [] (by rw [heq])).1

theorem imp (h : Separates s t r) (himp : r → r') : Separates s t r' := by
  intro u v heq
  obtain ⟨hr, hrest⟩ := h u v heq
  exact ⟨himp hr, hrest⟩

/-- What is separated one after the other is separated together. -/
theorem append (h : Separates s t r) (h' : r → Separates s' t' r') :
    Separates (s ++ s') (t ++ t') (r ∧ r') := by
  intro u v heq
  rw [List.append_assoc, List.append_assoc] at heq
  obtain ⟨hr, heq⟩ := h _ _ heq
  obtain ⟨hr', hrest⟩ := h' hr u v heq
  exact ⟨⟨hr, hr'⟩, hrest⟩

theorem of_length_eq (hlen : s.length = t.length) : Separates s t (s = t) :=
  fun _ _ heq => List.append_inj heq hlen

/-- What a reader gets back, whatever follows, is told apart. -/
theorem of_read {a b : α} (read : List β → Option (α × List β))
    (hs : ∀ u, read (s ++ u) = some (a, u)) (ht : ∀ v, read (t ++ v) = some (b, v)) :
    Separates s t (a = b) := by
  intro u v heq
  have hread := hs u
  rw [heq, ht v] at hread
  exact (Prod.mk.inj (Option.some.inj hread)).imp Eq.symm Eq.symm

/-- Lists of one length are separated item by item. -/
theorem flatMap {write : α → List β} {R : α → α → Prop} {as bs : List α}
    (hlen : as.length = bs.length)
    (h : ∀ a ∈ as, ∀ b ∈ bs, Separates (write a) (write b) (R a b)) :
    Separates (as.flatMap write) (bs.flatMap write) (List.Forall₂ R as bs) := by
  induction as generalizing bs with
  | nil =>
    cases bs with
    | nil => exact fun _ _ heq => ⟨.nil, heq⟩
    | cons => cases hlen
  | cons a as ih =>
    cases bs with
    | nil => cases hlen
    | cons b bs =>
      obtain ⟨ha, has⟩ := List.forall_mem_cons.mp h
      have hhead := ha b List.mem_cons_self
      have htail := ih (Nat.succ.inj hlen) fun a ha b hb => has a ha b (List.mem_cons_of_mem _ hb)
      exact (hhead.append fun _ => htail).imp fun ⟨hab, hrest⟩ => .cons hab hrest

/-- **Counted lists.**  If the counts are separated and the items are, then so are the lists. -/
theorem counted {count : Nat → List β} {write : α → List β} {R : α → α → Prop} {as bs : List α}
    (hcount : Separates (count as.length) (count bs.length) (as.length = bs.length))
    (h : ∀ a ∈ as, ∀ b ∈ bs, Separates (write a) (write b) (R a b)) :
    Separates (count as.length ++ as.flatMap write) (count bs.length ++ bs.flatMap write)
      (List.Forall₂ R as bs) :=
  (hcount.append fun hlen => flatMap hlen h).imp And.right

end Separates

/-! ## 2. Fields that are hashed together -/

namespace Feed

/-- The least length that does not fit in front of a field, `2 ^ 64`. -/
def limit : Nat := 0x10000000000000000

theorem separates_count {m n : Nat} (hm : m < limit) (hn : n < limit) :
    Separates (count m) (count n) (m = n) := by
  have hread : ∀ k, k < limit → Bytes.ofLittleEndian (count k) = k :=
    fun k hk => Bytes.ofLittleEndian_littleEndian_of_lt hk
  refine (Separates.of_length_eq ?_).imp fun heq => ?_
  · rw [count, count, Bytes.length_littleEndian, Bytes.length_littleEndian]
  · rw [← hread m hm, heq, hread n hn]

theorem separates_bytes {a b : Bytes} (ha : a.length < limit) (hb : b.length < limit) :
    Separates (bytes a) (bytes b) (a = b) :=
  ((separates_count ha hb).append Separates.of_length_eq).imp And.right

theorem separates_text {a b : String} (ha : (Bytes.ofText a).length < limit)
    (hb : (Bytes.ofText b).length < limit) : Separates (text a) (text b) (a = b) :=
  (separates_bytes ha hb).imp Bytes.ofText_injective

theorem separates_flag (a b : Bool) : Separates (flag a) (flag b) (a = b) := by
  have hlen : (flag a).length = (flag b).length := rfl
  refine (Separates.of_length_eq hlen).imp fun heq => ?_
  cases a <;> cases b <;> first | rfl | cases heq

end Feed

end ScriptBundle

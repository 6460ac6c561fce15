/-
# What the readers of data nodes accept

Each reader of `Codec/Node.lean` asks for one shape of node.  This file says of each that it
succeeds on exactly that shape and gives exactly what the node holds (`asConstr_eq_ok_iff` and its
siblings).  The place that a reader is told matters for its complaints only, so it occurs on
neither right-hand side.

Walking over a list is treated in section 3: if one conversion undoes another on every item, then
it does on the whole list (`each_of_each`), and if two lists are converted alike item by item, then
they are as a whole (`each_of_forall₂`).
-/
import Mathlib.Data.List.Forall2
import ScriptBundle.Codec.Node
import ScriptBundle.Proofs.Outcome

namespace ScriptBundle.Codec

variable {path : Path} {d : Data}

/-! ## 1. One kind -/

theorem asInt_eq_ok_iff {n : Int128} : asInt path d = .ok n ↔ d = .int n := by
  cases d <;> simp [asInt]

theorem asBytes_eq_ok_iff {b : Bytes} : asBytes path d = .ok b ↔ d = .bytes b := by
  cases d <;> simp [asBytes]

theorem asList_eq_ok_iff {items : List Data} : asList path d = .ok items ↔ d = .list items := by
  cases d <;> simp [asList]

theorem asMap_eq_ok_iff {pairs : List (Data × Data)} :
    asMap path d = .ok pairs ↔ d = .map pairs := by
  cases d <;> simp [asMap]

/-! ## 2. Kind and size -/

theorem asListOf_eq_ok_iff {count : Nat} {items : List Data} :
    asListOf path count d = .ok items ↔ d = .list items ∧ items.length = count := by
  simp only [asListOf, bind_eq_ok_iff, asList_eq_ok_iff]
  constructor
  · rintro ⟨ds, rfl, h⟩
    split at h
    · cases h
    · rename_i hlen
      cases h
      exact ⟨rfl, Decidable.not_not.mp hlen⟩
  · rintro ⟨rfl, rfl⟩
    exact ⟨items, rfl, if_neg (fun h => h rfl)⟩

/-- **Tags and arities together.**  The tag has to be a position among the arities, and the arity
at that position has to be the number of fields. -/
theorem asConstr_eq_ok_iff {arities : List Nat} {tag : UInt64} {fields : List Data} :
    asConstr path arities d = .ok (tag, fields) ↔
      d = .constr tag fields ∧ arities[tag.toNat]? = some fields.length := by
  cases d with
  | constr t ds =>
    simp only [asConstr, Data.constr.injEq]
    cases hcount : arities[t.toNat]? with
    | none =>
      refine ⟨fun h => (by cases h), ?_⟩
      rintro ⟨⟨rfl, rfl⟩, hlen⟩
      rw [hcount] at hlen
      cases hlen
    | some count =>
      dsimp only
      constructor
      · intro h
        split at h
        · cases h
        · rename_i hne
          cases h
          exact ⟨⟨rfl, rfl⟩, by rw [hcount, Decidable.not_not.mp hne]⟩
      · rintro ⟨⟨rfl, rfl⟩, hlen⟩
        rw [hcount] at hlen
        exact if_neg (fun h => h (Option.some.inj hlen).symm)
  | _ => simp [asConstr]

/-- With one arity the tag is 0. -/
theorem asConstr_one_eq_ok_iff {arity : Nat} {tag : UInt64} {fields : List Data} :
    asConstr path [arity] d = .ok (tag, fields) ↔
      tag = 0 ∧ d = .constr 0 fields ∧ fields.length = arity := by
  rw [asConstr_eq_ok_iff]
  constructor
  · rintro ⟨rfl, hlen⟩
    obtain ⟨hlt, -⟩ := List.getElem?_eq_some_iff.mp hlen
    obtain rfl : tag = 0 := by
      simp only [← UInt64.toNat_inj]
      simp at hlt ⊢
      omega
    exact ⟨rfl, rfl, (Option.some.inj hlen).symm⟩
  · rintro ⟨rfl, rfl, rfl⟩
    exact ⟨rfl, rfl⟩

/-- With two arities the tag is 0 or 1. -/
theorem asConstr_two_eq_ok_iff {first second : Nat} {tag : UInt64} {fields : List Data} :
    asConstr path [first, second] d = .ok (tag, fields) ↔
      (tag = 0 ∧ d = .constr 0 fields ∧ fields.length = first) ∨
        (tag = 1 ∧ d = .constr 1 fields ∧ fields.length = second) := by
  rw [asConstr_eq_ok_iff]
  constructor
  · rintro ⟨rfl, hlen⟩
    obtain ⟨hlt, -⟩ := List.getElem?_eq_some_iff.mp hlen
    have htag : tag = 0 ∨ tag = 1 := by
      simp only [← UInt64.toNat_inj]
      simp at hlt ⊢
      omega
    rcases htag with rfl | rfl
    · exact Or.inl ⟨rfl, rfl, (Option.some.inj hlen).symm⟩
    · exact Or.inr ⟨rfl, rfl, (Option.some.inj hlen).symm⟩
  · rintro (⟨rfl, rfl, rfl⟩ | ⟨rfl, rfl, rfl⟩) <;> exact ⟨rfl, rfl⟩

theorem sized_eq_ok_iff {p : Primitive} {size : Nat} {b c : Bytes} :
    sized path p size b = .ok c ↔ b = c ∧ c.length = size := by
  rw [sized]
  constructor
  · intro h
    split at h
    · cases h
    · rename_i hlen
      cases h
      exact ⟨rfl, Decidable.not_not.mp hlen⟩
  · rintro ⟨rfl, hlen⟩
    exact if_neg (fun h => h hlen)

theorem asSizedBytes_eq_ok_iff {p : Primitive} {size : Nat} {b : Bytes} :
    asSizedBytes path p size d = .ok b ↔ d = .bytes b ∧ b.length = size := by
  simp only [asSizedBytes, bind_eq_ok_iff, asBytes_eq_ok_iff, sized_eq_ok_iff]
  constructor
  · rintro ⟨c, rfl, rfl, hlen⟩
    exact ⟨rfl, hlen⟩
  · rintro ⟨rfl, hlen⟩
    exact ⟨b, rfl, rfl, hlen⟩

theorem asWord_eq_ok_iff {w : UInt64} : asWord path d = .ok w ↔ d = .int (.ofUInt64 w) := by
  simp only [asWord, bind_eq_ok_iff, asInt_eq_ok_iff]
  constructor
  · rintro ⟨n, rfl, h⟩
    cases hw : n.toUInt64? with
    | none => rw [hw] at h; cases h
    | some w' =>
      rw [hw] at h
      cases h
      rw [Int128.eq_of_toUInt64? hw]
  · rintro rfl
    exact ⟨_, rfl, by rw [Int128.toUInt64?_ofUInt64]⟩

/-- The two arities of an option leave two shapes, and they are the ones that are written. -/
theorem asOptional_eq_ok_iff {o : Option Data} : asOptional path d = .ok o ↔ d = optional o := by
  constructor
  · intro h
    simp only [asOptional, bind_eq_ok_iff, Prod.exists, asConstr_two_eq_ok_iff] at h
    obtain ⟨tag, fields, (⟨-, rfl, hlen⟩ | ⟨-, rfl, hlen⟩), h⟩ := h
    · obtain ⟨x, rfl⟩ := List.length_eq_one_iff.mp hlen
      obtain rfl := pure_eq_ok_iff.mp h
      rfl
    · obtain rfl := List.eq_nil_of_length_eq_zero hlen
      obtain rfl := pure_eq_ok_iff.mp h
      rfl
  · rintro rfl
    exact asOptional_optional path o

/-! ## 3. Walking over lists -/

section Walking

variable {α β : Type}

theorem eachFrom_of_eachFrom {f : Path → α → Result β} {g : Path → β → Result α} {path' : Path} :
    ∀ {items : List α} {bs : List β} (index index' : Nat),
      (∀ a ∈ items, ∀ p p' b, f p a = .ok b → g p' b = .ok a) →
      eachFrom f path index items = .ok bs → eachFrom g path' index' bs = .ok items
  | [], bs, _, _, _, h => by cases h; rfl
  | a :: rest, bs, index, index', hinv, h => by
    simp only [eachFrom, bind_eq_ok_iff, pure_eq_ok_iff] at h
    obtain ⟨b, hb, bs', hbs, rfl⟩ := h
    simp only [eachFrom, bind_eq_ok_iff, pure_eq_ok_iff]
    have hrest : eachFrom g path' (index' + 1) bs' = .ok rest :=
      eachFrom_of_eachFrom (index + 1) (index' + 1)
        (fun x hx => hinv x (List.mem_cons_of_mem _ hx)) hbs
    exact ⟨a, hinv a List.mem_cons_self _ _ b hb, rest, hrest, rfl⟩

/-- **Item by item is enough.**  A conversion that undoes another one on every item of a list
undoes it on the list. -/
theorem each_of_each {f : Path → α → Result β} {g : Path → β → Result α} {items : List α}
    {bs : List β} {path' : Path}
    (hinv : ∀ a ∈ items, ∀ p p' b, f p a = .ok b → g p' b = .ok a)
    (h : each f path items = .ok bs) : each g path' bs = .ok items :=
  eachFrom_of_eachFrom 0 0 hinv h

theorem eachFrom_of_forall₂ {γ : Type} {f : Path → β → Result α} {g : Path → γ → Result α}
    {bs : List β} {cs : List γ} {as : List α} {path' : Path} (index index' : Nat)
    (h : List.Forall₂ (fun b c => ∀ p p' a, f p b = .ok a → g p' c = .ok a) bs cs)
    (has : eachFrom f path index bs = .ok as) : eachFrom g path' index' cs = .ok as := by
  induction h generalizing as index index' with
  | nil => exact has
  | cons hhead _ ih =>
    simp only [eachFrom, bind_eq_ok_iff, pure_eq_ok_iff] at has ⊢
    obtain ⟨a, ha, rest, hrest, rfl⟩ := has
    exact ⟨a, hhead _ _ a ha, rest, ih _ _ hrest, rfl⟩

/-- Lists that are converted alike item by item are converted alike, wherever either happens. -/
theorem each_of_forall₂ {γ : Type} {f : Path → β → Result α} {g : Path → γ → Result α}
    {bs : List β} {cs : List γ} {as : List α} {path' : Path}
    (h : List.Forall₂ (fun b c => ∀ p p' a, f p b = .ok a → g p' c = .ok a) bs cs)
    (has : each f path bs = .ok as) : each g path' cs = .ok as :=
  eachFrom_of_forall₂ 0 0 h has

theorem forall_of_eachFrom {f : Path → α → Result β} {P : β → Prop} :
    ∀ {items : List α} {bs : List β} (index : Nat),
      (∀ a ∈ items, ∀ p b, f p a = .ok b → P b) → eachFrom f path index items = .ok bs →
      ∀ b ∈ bs, P b
  | [], _, _, _, h => by cases h; exact List.forall_mem_nil _
  | a :: rest, _, index, hP, h => by
    simp only [eachFrom, bind_eq_ok_iff, pure_eq_ok_iff] at h
    obtain ⟨b, hb, bs, hbs, rfl⟩ := h
    have hrest : ∀ b ∈ bs, P b :=
      forall_of_eachFrom (index + 1) (fun x hx => hP x (List.mem_cons_of_mem _ hx)) hbs
    exact List.forall_mem_cons.mpr ⟨hP a List.mem_cons_self _ b hb, hrest⟩

/-- What holds of the outcome for every item holds of all that comes out. -/
theorem forall_of_each {f : Path → α → Result β} {P : β → Prop} {items : List α} {bs : List β}
    (hP : ∀ a ∈ items, ∀ p b, f p a = .ok b → P b) (h : each f path items = .ok bs) :
    ∀ b ∈ bs, P b :=
  forall_of_eachFrom 0 hP h

end Walking

end ScriptBundle.Codec

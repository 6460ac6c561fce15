/-
# What a successful check says about a schema

`Schema.check` walks fields and variants with the names it has seen so far.  Here the walk is
turned into what it establishes when it succeeds: names are distinct, tags are positions, and
every schema inside is well formed as well (`checkFields_eq_ok_iff`, `checkVariants_eq_ok_iff`).

A schema holds lists of schemas, of fields and of variants of fields, so the recursor of the type
speaks of five types at once.  `Schema.induct` is the induction that proofs about schemas use: its
hypotheses speak of the members of these lists.  `Schema.induct_check` is the same induction for
proofs about well-formed schemas.
-/
import ScriptBundle.Schema.WellFormed
import ScriptBundle.Proofs.Outcome

namespace ScriptBundle.Schema

/-! ## 1. Induction over a schema -/

theorem sizeOf_type_lt (f : Field Schema) : sizeOf f.type < sizeOf f := by
  cases f
  simp only [Field.mk.sizeOf_spec]
  omega

theorem sizeOf_fields_lt (v : Variant Schema) : sizeOf v.fields < sizeOf v := by
  cases v
  simp only [Variant.mk.sizeOf_spec]
  omega

/-- **Induction over a schema**, with a hypothesis for every schema directly inside it. -/
@[elab_as_elim]
theorem induct {motive : Schema → Prop}
    (primitive : ∀ p, motive (.primitive p))
    (list : ∀ item, motive item → motive (.list item))
    (map : ∀ key value, motive key → motive value → motive (.map key value))
    (option : ∀ inner, motive inner → motive (.option inner))
    (tuple : ∀ items, (∀ s ∈ items, motive s) → motive (.tuple items))
    (record : ∀ fields, (∀ f ∈ fields, motive f.type) → motive (.record fields))
    (enum : ∀ variants, (∀ v ∈ variants, ∀ f ∈ v.fields, motive f.type) →
      motive (.enum variants)) (s : Schema) : motive s := by
  have ih : ∀ t, sizeOf t < sizeOf s → motive t := fun t _ =>
    induct primitive list map option tuple record enum t
  cases s with
  | primitive p => exact primitive p
  | list item => exact list item (ih item (by simp only [Schema.list.sizeOf_spec]; omega))
  | map key value =>
    simp only [Schema.map.sizeOf_spec] at ih
    exact map key value (ih key (by omega)) (ih value (by omega))
  | option inner => exact option inner (ih inner (by simp only [Schema.option.sizeOf_spec]; omega))
  | tuple items =>
    simp only [Schema.tuple.sizeOf_spec] at ih
    refine tuple items fun t ht => ih t ?_
    have hlt := List.sizeOf_lt_of_mem ht
    omega
  | record fields =>
    simp only [Schema.record.sizeOf_spec] at ih
    refine record fields fun f hf => ih f.type ?_
    have hlt := List.sizeOf_lt_of_mem hf
    have htype := sizeOf_type_lt f
    omega
  | enum variants =>
    simp only [Schema.enum.sizeOf_spec] at ih
    refine enum variants fun v hv f hf => ih f.type ?_
    have hlt := List.sizeOf_lt_of_mem hv
    have hlt' := List.sizeOf_lt_of_mem hf
    have hfields := sizeOf_fields_lt v
    have htype := sizeOf_type_lt f
    omega
termination_by sizeOf s

/-! ## 2. Fields and variants -/

theorem checkAll_eq_ok_iff {items : List Schema} :
    checkAll items = .ok () ↔ ∀ s ∈ items, s.check = .ok () := by
  induction items with
  | nil => simp [checkAll]
  | cons s rest ih =>
    simp only [checkAll, bind_eq_ok_iff, ih, List.forall_mem_cons]
    exact ⟨fun ⟨_, h, hrest⟩ => ⟨h, hrest⟩, fun ⟨h, hrest⟩ => ⟨(), h, hrest⟩⟩

/-- The names are distinct, none of them was seen before, and every type is well formed. -/
theorem checkFields_eq_ok_iff {seen : List String} {fields : List (Field Schema)} :
    checkFields seen fields = .ok () ↔
      (fields.map (·.name)).Nodup ∧ (∀ f ∈ fields, f.name ∉ seen) ∧
        ∀ f ∈ fields, f.type.check = .ok () := by
  induction fields generalizing seen with
  | nil => simp [checkFields]
  | cons f rest ih =>
    obtain ⟨name, s⟩ := f
    simp only [checkFields, List.map_cons, List.nodup_cons, List.mem_map, List.forall_mem_cons]
    split
    · rename_i hseen
      refine ⟨fun h => (by cases h), ?_⟩
      rintro ⟨-, ⟨hnot, -⟩, -⟩
      exact absurd hseen hnot
    · rename_i hnot
      simp only [bind_eq_ok_iff, ih, List.mem_cons, not_or]
      constructor
      · rintro ⟨⟨⟩, hs, hnd, hrest, htypes⟩
        refine ⟨⟨?_, hnd⟩, ⟨hnot, fun f hf => (hrest f hf).2⟩, hs, htypes⟩
        rintro ⟨f, hf, heq⟩
        exact (hrest f hf).1 heq
      · rintro ⟨⟨hfresh, hnd⟩, ⟨-, hrest⟩, hs, htypes⟩
        exact ⟨(), hs, hnd, fun f hf => ⟨fun heq => hfresh ⟨f, hf, heq⟩, hrest f hf⟩, htypes⟩

/-- The names are distinct, none of them was seen before, every tag is the position that it stands
at, and the fields of every variant pass their own check. -/
theorem checkVariants_eq_ok_iff {seen : List String} {position : Nat}
    {variants : List (Variant Schema)} :
    checkVariants seen position variants = .ok () ↔
      (variants.map (·.name)).Nodup ∧ (∀ v ∈ variants, v.name ∉ seen) ∧
        (∀ i v, variants[i]? = some v → v.tag.toNat = position + i) ∧
        ∀ v ∈ variants, checkFields [] v.fields = .ok () := by
  induction variants generalizing seen position with
  | nil => simp [checkVariants]
  | cons v rest ih =>
    obtain ⟨name, tag, fields⟩ := v
    simp only [checkVariants, List.map_cons, List.nodup_cons, List.mem_map, List.forall_mem_cons]
    split
    · rename_i hseen
      refine ⟨fun h => (by cases h), ?_⟩
      rintro ⟨-, ⟨hnot, -⟩, -⟩
      exact absurd hseen hnot
    · rename_i hnot
      split
      · rename_i htag
        refine ⟨fun h => (by cases h), ?_⟩
        rintro ⟨-, -, htags, -⟩
        exact absurd (htags 0 _ rfl) htag
      · rename_i htag
        have htag : tag.toNat = position := Decidable.not_not.mp htag
        simp only [bind_eq_ok_iff, ih, List.mem_cons, not_or]
        constructor
        · rintro ⟨⟨⟩, hs, hnd, hrest, htags, hfields⟩
          refine ⟨⟨?_, hnd⟩, ⟨hnot, fun v hv => (hrest v hv).2⟩, ?_, hs, hfields⟩
          · rintro ⟨v, hv, heq⟩
            exact (hrest v hv).1 heq
          · intro i v hi
            cases i with
            | zero => cases hi; exact htag
            | succ i =>
              rw [htags i v hi]
              omega
        · rintro ⟨⟨hfresh, hnd⟩, ⟨-, hrest⟩, htags, hs, hfields⟩
          refine ⟨(), hs, hnd, fun v hv => ⟨fun heq => hfresh ⟨v, hv, heq⟩, hrest v hv⟩, ?_,
            hfields⟩
          intro i v hi
          rw [htags (i + 1) v hi]
          omega

/-- **Induction over a well-formed schema.**  What is inside a well-formed schema is well formed, so
the hypotheses are about well-formed schemas only; of the names and tags they say what the check of
fields and variants says. -/
@[elab_as_elim]
theorem induct_check {motive : Schema → Prop}
    (primitive : ∀ p, motive (.primitive p))
    (list : ∀ item, motive item → motive (.list item))
    (map : ∀ key value, motive key → motive value → motive (.map key value))
    (option : ∀ inner, motive inner → motive (.option inner))
    (tuple : ∀ items, (∀ s ∈ items, motive s) → motive (.tuple items))
    (record : ∀ fields, (fields.map (·.name)).Nodup → (∀ f ∈ fields, motive f.type) →
      motive (.record fields))
    (enum : ∀ variants, checkVariants [] 0 variants = .ok () →
      (∀ v ∈ variants, ∀ f ∈ v.fields, motive f.type) → motive (.enum variants))
    (s : Schema) (hs : s.check = .ok ()) : motive s := by
  induction s using Schema.induct with
  | primitive p => exact primitive p
  | list item ih => exact list item (ih hs)
  | map key value ihkey ihvalue =>
    obtain ⟨⟨⟩, hkey, hvalue⟩ := bind_eq_ok_iff.mp hs
    exact map key value (ihkey hkey) (ihvalue hvalue)
  | option inner ih => exact option inner (ih hs)
  | tuple items ih =>
    exact tuple items fun s hmem => ih s hmem (checkAll_eq_ok_iff.mp hs s hmem)
  | record fields ih =>
    obtain ⟨hnd, -, htypes⟩ := checkFields_eq_ok_iff.mp hs
    exact record fields hnd fun f hf => ih f hf (htypes f hf)
  | enum variants ih =>
    obtain ⟨-, -, -, hfields⟩ := checkVariants_eq_ok_iff.mp hs
    refine enum variants hs fun v hv f hf => ?_
    obtain ⟨-, -, htypes⟩ := checkFields_eq_ok_iff.mp (hfields v hv)
    exact ih v hv f hf (htypes f hf)

end ScriptBundle.Schema

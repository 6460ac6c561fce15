/-
# Which defect is reported

A schema is well formed exactly if there is nothing wrong with any schema inside it, at whatever
depth and in whatever part (`check_eq_ok_iff`).  Otherwise the complaint is about the first defect
on the way, and the way is said here once: `Schema.stops` lists what is looked at, in order, as if
nothing were ever wrong.  A stop holds what it is compared with, so each of them can be judged by
itself, and the check is the judgement of all of them in turn (`check_eq_forM_stops`).

Tags are the one thing that a schema cannot get wrong if nobody writes them down.  A schema that
leaves the numbering of its variants to `Schema.enumeration` may repeat names, but its tags are
positions (`check_exact`).
-/
import Mathlib.Logic.Relation
import ScriptBundle.Proofs.Schema.Document
import ScriptBundle.Proofs.Schema.WellFormed

namespace ScriptBundle.Schema

/-! ## 1. Everywhere in a schema -/

/-- **Induction over the schemas directly inside**, whatever holds them. -/
@[elab_as_elim]
theorem induct_children {motive : Schema → Prop}
    (step : ∀ s, (∀ t ∈ s.children, motive t) → motive s) (s : Schema) : motive s := by
  induction s using Schema.induct with
  | primitive p => exact step _ (List.forall_mem_nil _)
  | list item ih => exact step _ (List.forall_mem_singleton.mpr ih)
  | map key value ihkey ihvalue =>
    exact step _ (List.forall_mem_cons.mpr ⟨ihkey, List.forall_mem_singleton.mpr ihvalue⟩)
  | option inner ih => exact step _ (List.forall_mem_singleton.mpr ih)
  | tuple items ih => exact step _ ih
  | record fields ih => exact step _ (List.forall_mem_map.mpr ih)
  | enum variants ih =>
    refine step _ fun t ht => ?_
    obtain ⟨v, hv, ht⟩ := List.mem_flatMap.mp ht
    exact List.forall_mem_map.mpr (ih v hv) t ht

/-- One schema stands somewhere in another, or is that schema. -/
def Inside : Schema → Schema → Prop := Relation.ReflTransGen fun t s => t ∈ s.children

/-- Nothing is wrong with a schema as far as it can be told without looking at those inside it: the
fields of one record or variant have different names, the variants of one enumeration do, and the
tag of every variant is its position. -/
def IsProper : Schema → Prop
  | .record fields => (fields.map (·.name)).Nodup
  | .enum variants => (variants.map (·.name)).Nodup ∧
      (∀ i (v : Variant Schema), variants[i]? = some v → v.tag.toNat = i) ∧
      ∀ v ∈ variants, (v.fields.map (·.name)).Nodup
  | _ => True

/-- A schema is well formed if nothing is wrong with it by itself and those directly inside it are
well formed. -/
theorem check_eq_ok_iff_children {s : Schema} :
    s.check = .ok () ↔ s.IsProper ∧ ∀ t ∈ s.children, t.check = .ok () := by
  cases s with
  | primitive p => simp [check, IsProper, children]
  | list item => simp [check, IsProper, children]
  | map key value =>
    simp only [check, IsProper, children, bind_eq_ok_iff, List.forall_mem_cons, List.not_mem_nil,
      IsEmpty.forall_iff, implies_true, and_true, true_and]
    constructor
    · rintro ⟨_, hkey, hvalue⟩
      exact ⟨hkey, hvalue⟩
    · rintro ⟨hkey, hvalue⟩
      exact ⟨(), hkey, hvalue⟩
  | option inner => simp [check, IsProper, children]
  | tuple items => simp [check, IsProper, children, checkAll_eq_ok_iff]
  | record fields => simp [check, IsProper, children, checkFields_eq_ok_iff]
  | enum variants =>
    simp only [check, IsProper, children, checkVariants_eq_ok_iff, checkFields_eq_ok_iff,
      List.mem_flatMap, List.not_mem_nil, not_false_eq_true, implies_true, true_and, Nat.zero_add]
    constructor
    · rintro ⟨hnames, htags, hfields⟩
      refine ⟨⟨hnames, htags, fun v hv => (hfields v hv).1⟩, ?_⟩
      rintro t ⟨v, hv, ht⟩
      obtain ⟨f, hf, rfl⟩ := List.mem_map.mp ht
      exact (hfields v hv).2 f hf
    · rintro ⟨⟨hnames, htags, hfields⟩, hchildren⟩
      exact ⟨hnames, htags, fun v hv =>
        ⟨hfields v hv, fun f hf => hchildren f.type ⟨v, hv, List.mem_map_of_mem hf⟩⟩⟩

/-- What stands in a well-formed schema is well formed. -/
theorem check_of_inside {s t : Schema} (h : Inside t s) (hs : s.check = .ok ()) :
    t.check = .ok () := by
  induction h using Relation.ReflTransGen.head_induction_on with
  | refl => exact hs
  | head hchild _ ih => exact (check_eq_ok_iff_children.mp ih).2 _ hchild

/-- **Well formed.**  The check passes exactly if nothing is wrong anywhere in the schema. -/
theorem check_eq_ok_iff {s : Schema} : s.check = .ok () ↔ ∀ t, Inside t s → t.IsProper := by
  constructor
  · exact fun hs t ht => (check_eq_ok_iff_children.mp (check_of_inside ht hs)).1
  · intro h
    induction s using induct_children with
    | step s ih =>
      refine check_eq_ok_iff_children.mpr ⟨h s .refl, fun t ht => ih t ht fun u hu => ?_⟩
      exact h u (hu.tail ht)

/-! ## 2. The way through a schema -/

/-- What is looked at on the way through a schema. -/
inductive Stop
  /-- The name of a field, behind fields of other names. -/
  | fieldName (before : List String) (name : String)
  /-- The name of a variant, behind variants of other names. -/
  | variantName (before : List String) (name : String)
  /-- The tag of the variant at a position. -/
  | tag (position : Nat) (variant : String) (actual : UInt64)

/-- Refuses a name that came before, and a tag that is not the position. -/
def Stop.check : Stop → Except Defect Unit
  | .fieldName before name => if name ∈ before then .error (.duplicateField name) else .ok ()
  | .variantName before name => if name ∈ before then .error (.duplicateVariant name) else .ok ()
  | .tag position variant actual =>
    if actual.toNat = position then .ok ()
    else .error (.tagMismatch variant (UInt64.ofNat position) actual)

mutual
/-- The way through a schema, from left to right and depth first. -/
def stops : Schema → List Stop
  | .primitive _ => []
  | .list item => stops item
  | .map key value => stops key ++ stops value
  | .option inner => stops inner
  | .tuple items => itemStops items
  | .record fields => fieldStops [] fields
  | .enum variants => variantStops [] variants

def itemStops : List Schema → List Stop
  | [] => []
  | s :: rest => stops s ++ itemStops rest

/-- A field is its name and then the way through its schema. -/
def fieldStops (before : List String) : List (Field Schema) → List Stop
  | [] => []
  | ⟨name, s⟩ :: rest => .fieldName before name :: (stops s ++ fieldStops (before ++ [name]) rest)

/-- A variant is its name, its tag, and then its fields. -/
def variantStops (before : List String) : List (Variant Schema) → List Stop
  | [] => []
  | ⟨name, tag, fields⟩ :: rest =>
    .variantName before name :: .tag before.length name tag ::
      (fieldStops [] fields ++ variantStops (before ++ [name]) rest)
end

/-- The first stop that refuses what it finds does so for this defect. -/
def FirstDefect (s : Schema) (e : Defect) : Prop :=
  ∃ before stop after, s.stops = before ++ stop :: after ∧
    (∀ earlier ∈ before, earlier.check = .ok ()) ∧ stop.check = .error e

/-- Nothing but a tag is refused as one. -/
theorem Stop.eq_tag_of_check {stop : Stop} {variant : String} {expected actual : UInt64}
    (h : stop.check = .error (.tagMismatch variant expected actual)) :
    ∃ position, stop = .tag position variant actual ∧ actual.toNat ≠ position := by
  cases stop with
  | fieldName before name =>
    simp only [Stop.check] at h
    split at h <;> cases h
  | variantName before name =>
    simp only [Stop.check] at h
    split at h <;> cases h
  | tag position name found =>
    simp only [Stop.check] at h
    split at h
    · cases h
    · rename_i hne
      cases h
      exact ⟨position, rfl, hne⟩

/-! ## 3. The check goes this way -/

theorem checkAll_eq_forM_itemStops {items : List Schema}
    (h : ∀ s ∈ items, s.check = forM s.stops Stop.check) :
    checkAll items = forM (itemStops items) Stop.check := by
  induction items with
  | nil => rfl
  | cons s rest ih =>
    obtain ⟨hs, hrest⟩ := List.forall_mem_cons.mp h
    rw [checkAll, itemStops, List.forM_append, hs, ih hrest]

/-- The names that were seen are those of the fields before, in whatever order they are kept. -/
theorem checkFields_eq_forM_fieldStops {fields : List (Field Schema)} {seen before : List String}
    (h : ∀ f ∈ fields, f.type.check = forM f.type.stops Stop.check)
    (hseen : ∀ name, name ∈ seen ↔ name ∈ before) :
    checkFields seen fields = forM (fieldStops before fields) Stop.check := by
  induction fields generalizing seen before with
  | nil => rfl
  | cons f rest ih =>
    obtain ⟨name, s⟩ := f
    obtain ⟨hs, hrest⟩ := List.forall_mem_cons.mp h
    have hnext : ∀ n, n ∈ name :: seen ↔ n ∈ before ++ [name] := by
      intro n
      simp [hseen, or_comm]
    rw [checkFields, fieldStops, List.forM_cons, List.forM_append, ih hrest hnext, ← hs, Stop.check]
    simp only [hseen]
    split <;> rfl

theorem checkVariants_eq_forM_variantStops {variants : List (Variant Schema)}
    {seen before : List String}
    (h : ∀ v ∈ variants, ∀ f ∈ v.fields, f.type.check = forM f.type.stops Stop.check)
    (hseen : ∀ name, name ∈ seen ↔ name ∈ before) :
    checkVariants seen before.length variants = forM (variantStops before variants) Stop.check := by
  induction variants generalizing seen before with
  | nil => rfl
  | cons v rest ih =>
    obtain ⟨name, tag, fields⟩ := v
    obtain ⟨hv, hrest⟩ := List.forall_mem_cons.mp h
    have hnext : ∀ n, n ∈ name :: seen ↔ n ∈ before ++ [name] := by
      intro n
      simp [hseen, or_comm]
    have hfields := checkFields_eq_forM_fieldStops hv fun n => Iff.refl (n ∈ [])
    have hlater := ih hrest hnext
    rw [List.length_append, List.length_singleton] at hlater
    rw [checkVariants, variantStops, List.forM_cons, List.forM_cons, List.forM_append, hfields,
      hlater, Stop.check, Stop.check]
    simp only [hseen]
    split
    · rfl
    by_cases htag : tag.toNat = before.length
    · rw [if_neg (not_not_intro htag), if_pos htag]
      rfl
    · rw [if_pos htag, if_neg htag]
      rfl

/-- **The way of the check.**  It judges one stop after the other, up to the first that is
refused. -/
theorem check_eq_forM_stops (s : Schema) : s.check = forM s.stops Stop.check := by
  induction s using Schema.induct with
  | primitive p => rfl
  | list item ih => exact ih
  | map key value ihkey ihvalue => rw [check, stops, List.forM_append, ihkey, ihvalue]
  | option inner ih => exact ih
  | tuple items ih => exact checkAll_eq_forM_itemStops ih
  | record fields ih => exact checkFields_eq_forM_fieldStops ih fun _ => Iff.rfl
  | enum variants ih => exact checkVariants_eq_forM_variantStops ih fun _ => Iff.rfl

/-- **The complaint** is about the first defect on the way. -/
theorem check_eq_error_iff {s : Schema} {e : Defect} : s.check = .error e ↔ s.FirstDefect e := by
  rw [check_eq_forM_stops]
  exact forM_eq_error_iff

/-! ## 4. Schemas without written tags -/

/-- Put together without a tag being written down: an enumeration numbers its variants itself, and
there are no more of them than tags. -/
inductive Built : Schema → Prop
  | primitive (p : Primitive) : Built (.primitive p)
  | list {item : Schema} (hitem : Built item) : Built (.list item)
  | map {key value : Schema} (hkey : Built key) (hvalue : Built value) : Built (.map key value)
  | option {inner : Schema} (hinner : Built inner) : Built (.option inner)
  | tuple {items : List Schema} (hitems : ∀ s ∈ items, Built s) : Built (.tuple items)
  | record {fields : List (Field Schema)} (hfields : ∀ f ∈ fields, Built f.type) :
    Built (.record fields)
  | enumeration {variants : List (String × List (Field Schema))}
    (hcount : variants.length ≤ 0x10000000000000000)
    (hfields : ∀ v ∈ variants, ∀ f ∈ v.2, Built f.type) : Built (enumeration variants)

variable {position : Nat} {variant : String} {tag : UInt64}

theorem tag_mem_itemStops {items : List Schema} (h : .tag position variant tag ∈ itemStops items) :
    ∃ s ∈ items, .tag position variant tag ∈ s.stops := by
  induction items with
  | nil => cases h
  | cons s rest ih =>
    rw [itemStops, List.mem_append] at h
    rcases h with h | h
    · exact ⟨s, List.mem_cons_self, h⟩
    · obtain ⟨t, ht, htag⟩ := ih h
      exact ⟨t, List.mem_cons_of_mem _ ht, htag⟩

/-- A tag among the stops of fields is one inside their schemas. -/
theorem tag_mem_fieldStops {fields : List (Field Schema)} {before : List String}
    (h : .tag position variant tag ∈ fieldStops before fields) :
    ∃ f ∈ fields, .tag position variant tag ∈ f.type.stops := by
  induction fields generalizing before with
  | nil => cases h
  | cons f rest ih =>
    obtain ⟨name, s⟩ := f
    simp only [fieldStops, List.mem_cons, List.mem_append, reduceCtorEq, false_or] at h
    rcases h with h | h
    · exact ⟨_, List.mem_cons_self, h⟩
    · obtain ⟨f, hf, htag⟩ := ih h
      exact ⟨f, List.mem_cons_of_mem _ hf, htag⟩

/-- A tag among the stops of variants is that of one of them, or one inside their fields. -/
theorem tag_mem_variantStops_tagged {variants : List (String × List (Field Schema))}
    {before : List String}
    (h : .tag position variant tag ∈ variantStops before (tagged before.length variants)) :
    (position < before.length + variants.length ∧ tag = UInt64.ofNat position) ∨
      ∃ v ∈ variants, ∃ f ∈ v.2, .tag position variant tag ∈ f.type.stops := by
  induction variants generalizing before with
  | nil => cases h
  | cons v rest ih =>
    obtain ⟨name, fields⟩ := v
    simp only [tagged, variantStops, List.mem_cons, List.mem_append, reduceCtorEq, false_or,
      Stop.tag.injEq] at h
    rcases h with ⟨rfl, -, rfl⟩ | h | h
    · exact .inl ⟨Nat.lt_add_of_pos_right (Nat.succ_pos _), rfl⟩
    · obtain ⟨f, hf, htag⟩ := tag_mem_fieldStops h
      exact .inr ⟨_, List.mem_cons_self, f, hf, htag⟩
    · have hnext : before.length + 1 = (before ++ [name]).length := by simp
      rw [hnext] at h
      rcases ih h with ⟨hlt, htag⟩ | ⟨v, hv, hfield⟩
      · refine .inl ⟨?_, htag⟩
        rw [List.length_cons]
        omega
      · exact .inr ⟨v, List.mem_cons_of_mem _ hv, hfield⟩

/-- **Tags that nobody wrote** are positions, wherever they stand. -/
theorem Built.tag_eq_position {s : Schema} (hs : Built s)
    (h : .tag position variant tag ∈ s.stops) : tag.toNat = position := by
  induction hs with
  | primitive p => cases h
  | list _ ih => exact ih h
  | map _ _ ihkey ihvalue => exact (List.mem_append.mp h).elim ihkey ihvalue
  | option _ ih => exact ih h
  | tuple _ ih =>
    obtain ⟨s, hs, htag⟩ := tag_mem_itemStops h
    exact ih s hs htag
  | record _ ih =>
    obtain ⟨f, hf, htag⟩ := tag_mem_fieldStops h
    exact ih f hf htag
  | enumeration hcount _ ih =>
    have hnumbered := @tag_mem_variantStops_tagged position variant tag _ [] h
    rcases hnumbered with ⟨hlt, rfl⟩ | ⟨v, hv, f, hf, htag⟩
    · rw [List.length_nil, Nat.zero_add] at hlt
      exact UInt64.toNat_ofNat_of_lt' (Nat.lt_of_lt_of_le hlt hcount)
    · exact ih v hv f hf htag

/-- **Which defect is reported.**  A schema passes exactly if in every record, every variant and
every enumeration in it, however deep, the names are distinct and the tags are the positions.
Otherwise the complaint is about the first defect on the way from left to right and outside in.  It
is never about a tag if no tag was written down. -/
theorem check_exact (s : Schema) :
    (s.check = .ok () ↔ ∀ t, Inside t s → t.IsProper) ∧
    (∀ e, s.check = .error e ↔ s.FirstDefect e) ∧
    (Built s → ∀ variant expected actual,
      s.check ≠ .error (.tagMismatch variant expected actual)) := by
  refine ⟨check_eq_ok_iff, fun _ => check_eq_error_iff, fun hs variant expected actual h => ?_⟩
  obtain ⟨before, stop, after, hstops, -, hstop⟩ := check_eq_error_iff.mp h
  obtain ⟨position, rfl, hne⟩ := Stop.eq_tag_of_check hstop
  have hmem : .tag position variant actual ∈ s.stops := by
    rw [hstops]
    exact List.mem_append_right _ List.mem_cons_self
  exact hne (hs.tag_eq_position hmem)

namespace Example

/-- An option of a map to an enumeration whose second variant has two fields of one name.  The
enumeration numbers its variants itself. -/
def doubled : Schema :=
  .option (.map (.primitive .int)
    (enumeration [("None", []),
      ("Both", [⟨"x", .list (.primitive .int)⟩, ⟨"x", .primitive .int⟩])]))

theorem check_exact_doubled :
    Built doubled ∧ doubled.FirstDefect (.duplicateField "x") ∧
      (∃ t, Inside t doubled ∧ ¬t.IsProper) ∧
      ∀ variant expected actual, doubled.check ≠ .error (.tagMismatch variant expected actual) := by
  obtain ⟨hok, herror, htag⟩ := check_exact doubled
  have hcheck : doubled.check = .error (.duplicateField "x") := rfl
  have hbuilt : Built doubled := by
    refine .option (.map (.primitive _) (.enumeration (by decide) ?_))
    simp only [List.forall_mem_cons, List.not_mem_nil, IsEmpty.forall_iff, implies_true, and_true,
      true_and]
    exact ⟨.list (.primitive _), .primitive _⟩
  refine ⟨hbuilt, (herror _).mp hcheck, ?_, htag hbuilt⟩
  by_contra hnone
  have hsound : doubled.check = .ok () :=
    hok.mpr fun t ht => by_contra fun hproper => hnone ⟨t, ht, hproper⟩
  rw [hcheck] at hsound
  cases hsound

end Example

end ScriptBundle.Schema

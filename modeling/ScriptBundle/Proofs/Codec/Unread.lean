/-
# What encoding drops

Encoding does not refuse everything that it cannot use.  Which entries of a value it drops is what
`Schema.prune` leaves out, and the main statement is that it is nothing else (`prune_exact`): a
value that is encoded supplies nothing but entries of use exactly if there is nothing to prune from
it, and what pruning leaves is always such a value, of the same data.

Two walks over the schema meet here.  If nothing is pruned from a value, nothing is from its parts
(`settled_of_part`), so one look at the whole value tells of all places in it.  The other way round,
parts that are left as they are make up a value that is (`whole_of_check`).
-/
import ScriptBundle.Proofs.Codec.Prune

namespace ScriptBundle

open Codec Value

/-! ## 1. Primitives -/

namespace Primitive

variable {p : Primitive} {v : Value}

/-- If nothing is pruned, all entries are of use. -/
theorem exact_of_prune {u : Supplied} (h : p.prune v = v) (hu : u ∈ p.supplied? v) : u.Exact := by
  unfold supplied? at hu
  split at hu
  · cases hu
    exact kept_eq_self_iff.mp (Value.record.inj h)
  · cases hu
    exact kept_eq_self_iff.mp (Value.record.inj h)
  · cases hu
    exact kept_eq_self_iff.mp (Value.record.inj h)
  · cases hu
    exact kept_eq_self_iff.mp (Value.variant.inj h).2
  · cases hu
    exact kept_eq_self_iff.mp (Value.variant.inj h).2
  · split at hu
    · cases hu
      rw [← (Value.variant.inj h).2, exact_mapEntries_iff]
      exact exact_kept _ _
    · cases hu
      exact kept_eq_self_iff.mp (Value.variant.inj h).2
    · cases hu
  · cases hu

theorem pruneHash_of_exact
    (h : ∀ name entries, v = .variant name entries → Supplied.Exact ⟨["hash"], entries⟩) :
    pruneHash v = v := by
  cases v with
  | variant name entries => exact congrArg _ (kept_eq_self_iff.mpr (h name entries rfl))
  | _ => rfl

/-- If all entries are of use, nothing is pruned.  The hash of a staking credential has entries of
its own. -/
theorem prune_of_exact (h : ∀ u ∈ p.supplied? v, u.Exact)
    (hhash : ∀ entries w, p = .stakingCredential → v = .variant "Hash" entries →
      entry? "hash" entries = some w → ∀ u ∈ Primitive.stakingHash.supplied? w, u.Exact) :
    p.prune v = v := by
  unfold prune
  split
  · exact congrArg _ (kept_eq_self_iff.mpr (h _ rfl))
  · exact congrArg _ (kept_eq_self_iff.mpr (h _ rfl))
  · exact congrArg _ (kept_eq_self_iff.mpr (h _ rfl))
  · refine pruneHash_of_exact fun name entries hv => ?_
    subst hv
    exact h _ rfl
  · refine pruneHash_of_exact fun name entries hv => ?_
    subst hv
    exact h _ rfl
  · rename_i name entries
    split
    · obtain ⟨hnd, hdeclared⟩ : Supplied.Exact ⟨["hash"], entries⟩ := h _ rfl
      rw [kept_eq_self_iff.mpr ⟨hnd, hdeclared⟩]
      refine congrArg _ (mapEntries_eq_self_iff.mpr fun e he => ?_)
      have hname : e.1 = "hash" := List.mem_singleton.mp (hdeclared e he)
      have hfound : entry? "hash" entries = some e.2 := entry?_of_mem hnd (hname ▸ he)
      refine pruneHash_of_exact fun name inner hv => ?_
      exact hhash entries e.2 rfl rfl hfound _ (by rw [hv]; rfl)
    · exact congrArg _ (kept_eq_self_iff.mpr (h _ rfl))
    · rfl
  · rfl

end Primitive

namespace Codec

variable {v w : Value}

/-! ## 2. Nothing is pruned from what is of use -/

theorem zipApply_eq_self_iff {gs : List (Value → Value)} {values : List Value} :
    zipApply gs values = values ↔ ∀ p ∈ gs.zip values, p.1 p.2 = p.2 := by
  induction gs generalizing values with
  | nil => simp [zipApply]
  | cons g gs ih =>
    cases values with
    | nil => simp [zipApply]
    | cons v values => simp [zipApply, ih]

/-- If nothing is pruned from a source, nothing is from what it holds for a field. -/
theorem prune_of_holds {fields : List (Field Schema)} {source : Source} {f : Field Schema}
    (hnd : (fields.map (·.name)).Nodup)
    (h : pruneSource (fields.map (Field.map Schema.prune)) source = source)
    (hw : source.Holds fields f w) : f.type.prune w = w := by
  cases hw with
  | named hf hw =>
    have hfound := congrArg (Value.entry? f.name) (Source.named.inj h)
    rw [entry?_pruneNamed, hw, Option.map_some, pruneField_of_mem hnd hf] at hfound
    exact Option.some.inj hfound
  | positional hw =>
    have hall := zipApply_eq_self_iff.mp (Source.positional.inj h)
    rw [List.map_map, List.zip_map_left, List.forall_mem_map] at hall
    exact hall (f, w) hw

/-- And the other way round, if the entries are of use. -/
theorem pruneSource_of_holds {fields : List (Field Schema)} {source : Source}
    (hnd : (fields.map (·.name)).Nodup)
    (hexact : ∀ entries, source = .named entries → Supplied.Exact ⟨fields.map (·.name), entries⟩)
    (h : ∀ f w, source.Holds fields f w → f.type.prune w = w) :
    pruneSource (fields.map (Field.map Schema.prune)) source = source := by
  cases source with
  | named entries =>
    obtain ⟨hentries, hdeclared⟩ := hexact entries rfl
    rw [pruneSource, pruneNamed, firsts_of_nodup hentries, mapEntries_eq_self_iff.mpr]
    intro e he
    obtain ⟨f, hf, hname⟩ := List.mem_map.mp (hdeclared e he)
    have hfound : entry? f.name entries = some e.2 := entry?_of_mem hentries (hname ▸ he)
    rw [← hname, pruneField_of_mem hnd hf, h f e.2 (.named hf hfound)]
  | positional values =>
    rw [pruneSource, zipApply_eq_self_iff.mpr]
    rw [List.map_map, List.zip_map_left, List.forall_mem_map]
    exact fun p hp => h p.1 p.2 (.positional hp)

/-- A record is left as it is exactly if its parts are. -/
theorem pruneRecord_eq_self_iff {fields : List (Field (Value → Value))} {source : Source}
    (hsource : v.asRecord? = some source) :
    pruneRecord fields v = v ↔ pruneSource fields source = source := by
  cases v with
  | record entries =>
    cases hsource
    rw [pruneRecord, Value.record.injEq, pruneSource, Source.named.injEq]
  | list values =>
    cases hsource
    rw [pruneRecord, Value.list.injEq, pruneSource, Source.positional.injEq]
  | _ => cases hsource

/-- And so is a variant. -/
theorem pruneVariant_eq_self_iff {fields : List (Field (Value → Value))} {name : String}
    {source : Source} (hsource : v.asVariant? = some (name, source)) :
    pruneVariant fields v = v ↔ pruneSource fields source = source := by
  unfold asVariant? at hsource
  split at hsource
  · cases hsource
    simp [pruneVariant, pruneSource]
  · cases hsource
    simp [pruneVariant, pruneSource, pruneNamed, firsts, mapEntries]
  · cases hsource
    simp [pruneVariant, pruneSource, pruneRecord]
  · cases hsource
    simp [pruneVariant, pruneSource, pruneRecord]
  · cases hsource

/-- The schema is well formed, and nothing is pruned from the value under it. -/
structure Settled (p : Place) : Prop where
  check : p.schema.check = .ok ()
  prune : p.schema.prune p.value = p.value

theorem Source.Holds.mem {fields : List (Field Schema)} {source : Source} {f : Field Schema}
    (h : source.Holds fields f w) : f ∈ fields := by
  cases h with
  | named hf => exact hf
  | positional hw => exact (List.of_mem_zip hw).1

theorem prune_of_listed {key value : Value → Value} {items : List Value} {k : Value}
    (h : pruneMap key value (.list items) = .list items) (hmem : .list [k, w] ∈ items) :
    key k = k ∧ value w = w := by
  have hpair := map_eq_self_iff.mp (Value.list.inj h) _ hmem
  simpa [pruneListed] using hpair

/-- **If nothing is pruned from a value, nothing is from its parts.** -/
theorem settled_of_part {p q : Place} (h : Part p q) (hp : Settled p) : Settled q := by
  obtain ⟨hcheck, hprune⟩ := hp
  cases h with
  | item hmem => exact ⟨hcheck, map_eq_self_iff.mp (Value.list.inj hprune) _ hmem⟩
  | key hmem =>
    obtain ⟨⟨⟩, hkey, -⟩ := bind_eq_ok_iff.mp hcheck
    have hpair := map_eq_self_iff.mp (Value.map.inj hprune) _ hmem
    exact ⟨hkey, congrArg Prod.fst hpair⟩
  | mapped hmem =>
    obtain ⟨⟨⟩, -, hvalue⟩ := bind_eq_ok_iff.mp hcheck
    have hpair := map_eq_self_iff.mp (Value.map.inj hprune) _ hmem
    exact ⟨hvalue, congrArg Prod.snd hpair⟩
  | listedKey hmem =>
    obtain ⟨⟨⟩, hkey, -⟩ := bind_eq_ok_iff.mp hcheck
    exact ⟨hkey, (prune_of_listed hprune hmem).1⟩
  | listedMapped hmem =>
    obtain ⟨⟨⟩, -, hvalue⟩ := bind_eq_ok_iff.mp hcheck
    exact ⟨hvalue, (prune_of_listed hprune hmem).2⟩
  | namedKey hmem =>
    obtain ⟨⟨⟩, hkey, -⟩ := bind_eq_ok_iff.mp hcheck
    exact ⟨hkey, Schema.prune_text _ _⟩
  | namedMapped hmem =>
    obtain ⟨⟨⟩, -, hvalue⟩ := bind_eq_ok_iff.mp hcheck
    exact ⟨hvalue, mapEntries_eq_self_iff.mp (Value.record.inj hprune) _ hmem⟩
  | present => exact ⟨hcheck, Value.present.inj hprune⟩
  | bare hw => exact ⟨hcheck, (pruneOption_of_bare hw).symm.trans hprune⟩
  | slot hmem =>
    simp only [Schema.prune, Schema.pruneItems_eq] at hprune
    have hall := zipApply_eq_self_iff.mp (Value.list.inj hprune)
    rw [List.zip_map_left, List.forall_mem_map] at hall
    exact ⟨Schema.checkAll_eq_ok_iff.mp hcheck _ (List.of_mem_zip hmem).1, hall _ hmem⟩
  | field hsource hholds =>
    obtain ⟨hnd, -, htypes⟩ := Schema.checkFields_eq_ok_iff.mp hcheck
    simp only [Schema.prune, Schema.pruneFields_eq, pruneRecord_eq_self_iff hsource] at hprune
    exact ⟨htypes _ hholds.mem, prune_of_holds hnd hprune hholds⟩
  | variantField hsource hvariant hholds =>
    obtain ⟨-, -, -, hchecks⟩ := Schema.checkVariants_eq_ok_iff.mp hcheck
    obtain ⟨hnd, -, htypes⟩ :=
      Schema.checkFields_eq_ok_iff.mp (hchecks _ (List.mem_of_find?_eq_some hvariant))
    dsimp only at hprune
    rw [prune_enum hsource hvariant, pruneVariant_eq_self_iff hsource] at hprune
    exact ⟨htypes _ hholds.mem, prune_of_holds hnd hprune hholds⟩
  | stakingHash hentry =>
    have hentries := (Value.variant.inj hprune).2
    have hfound := congrArg (Value.entry? "hash") hentries
    rw [entry?_mapEntries, entry?_kept (List.mem_singleton_self _), hentry] at hfound
    exact ⟨rfl, Option.some.inj hfound⟩

theorem settled_of_within {p q : Place} (h : Within p q) (hp : Settled p) : Settled q := by
  induction h with
  | refl => exact hp
  | tail _ hpart ih => exact settled_of_part hpart ih

/-- Where nothing is pruned and no name is undeclared, all entries are of use. -/
theorem exact_of_settled {p : Place} (hp : Settled p) (hstrict : p.Strict) : p.Exact := by
  obtain ⟨s, v⟩ := p
  obtain ⟨-, hprune⟩ := hp
  intro u hu
  cases s with
  | primitive q => exact Primitive.exact_of_prune hprune hu
  | record fields =>
    refine ⟨?_, hstrict (by rintro _ ⟨⟩) u hu⟩
    simp only [Place.supplied?] at hu
    split at hu
    · rename_i entries hsource
      cases hu
      simp only [Schema.prune, pruneRecord_eq_self_iff hsource] at hprune
      rw [← Source.named.inj hprune]
      exact nodup_pruneNamed _ _
    · cases hu
  | enum variants =>
    refine ⟨?_, hstrict (by rintro _ ⟨⟩) u hu⟩
    simp only [Place.supplied?] at hu
    split at hu
    · rename_i name entries hsource
      obtain ⟨variant, hvariant, rfl⟩ := Option.map_eq_some_iff.mp hu
      dsimp only at hprune
      rw [prune_enum hsource hvariant, pruneVariant_eq_self_iff hsource] at hprune
      rw [← Source.named.inj hprune]
      exact nodup_pruneNamed _ _
    · cases hu
  | _ => cases hu

/-- All entries that a value supplies under a schema, at any depth, are of use. -/
def AllExact (s : Schema) (v : Value) : Prop := ∀ q, Within ⟨s, v⟩ q → q.Exact

theorem AllExact.of_part {s t : Schema} (h : AllExact s v) (hpart : Part ⟨s, v⟩ ⟨t, w⟩) :
    AllExact t w :=
  fun q hq => h q (Relation.ReflTransGen.head hpart hq)

/-- A value that supplies nothing but entries of use is whole after pruning. -/
def Whole (s : Schema) : Prop := ∀ v, AllExact s v → s.prune v = v

theorem whole_primitive (p : Primitive) : Whole (.primitive p) := by
  intro v hv
  refine Primitive.prune_of_exact (hv _ Relation.ReflTransGen.refl) ?_
  rintro entries w rfl rfl hentry
  exact hv _ (Relation.ReflTransGen.single (.stakingHash hentry))

theorem whole_list {item : Schema} (hitem : Whole item) : Whole (.list item) := by
  intro v hv
  cases v with
  | list items =>
    refine congrArg Value.list (map_eq_self_iff.mpr fun w hw => ?_)
    exact hitem w (hv.of_part (.item hw))
  | _ => rfl

theorem whole_map {key value : Schema} (hkey : Whole key) (hvalue : Whole value) :
    Whole (.map key value) := by
  intro v hv
  cases v with
  | map pairs =>
    refine congrArg Value.map (map_eq_self_iff.mpr fun p hp => ?_)
    have hfirst : key.prune p.1 = p.1 := hkey p.1 (hv.of_part (.key hp))
    have hsecond : value.prune p.2 = p.2 := hvalue p.2 (hv.of_part (.mapped hp))
    exact Prod.ext hfirst hsecond
  | list items =>
    refine congrArg Value.list (map_eq_self_iff.mpr fun w hw => ?_)
    unfold pruneListed
    split
    · rw [hkey _ (hv.of_part (.listedKey hw)), hvalue _ (hv.of_part (.listedMapped hw))]
    · rfl
  | record entries =>
    refine congrArg Value.record (mapEntries_eq_self_iff.mpr fun e he => ?_)
    exact hvalue e.2 (hv.of_part (.namedMapped he))
  | _ => rfl

theorem whole_option {inner : Schema} (hinner : Whole inner) : Whole (.option inner) := by
  intro v hv
  by_cases hbare : v.Bare
  · rw [Schema.prune, pruneOption_of_bare hbare]
    exact hinner v (hv.of_part (.bare hbare))
  · cases v with
    | absent | data _ => rfl
    | present w => exact congrArg Value.present (hinner w (hv.of_part .present))
    | _ => exact absurd trivial hbare

theorem whole_tuple {items : List Schema} (hitems : ∀ s ∈ items, Whole s) :
    Whole (.tuple items) := by
  intro v hv
  cases v with
  | list values =>
    rw [Schema.prune, Schema.pruneItems_eq, pruneTuple, zipApply_eq_self_iff.mpr]
    rw [List.zip_map_left, List.forall_mem_map]
    intro p hp
    exact hitems p.1 (List.of_mem_zip hp).1 p.2 (hv.of_part (.slot hp))
  | _ => rfl

theorem whole_record {fields : List (Field Schema)} (hnd : (fields.map (·.name)).Nodup)
    (hfields : ∀ f ∈ fields, Whole f.type) : Whole (.record fields) := by
  intro v hv
  cases hsource : v.asRecord? with
  | none => rw [Schema.prune, pruneRecord_of_none hsource]
  | some source =>
    rw [Schema.prune, Schema.pruneFields_eq, pruneRecord_eq_self_iff hsource]
    refine pruneSource_of_holds hnd ?_ fun f w hw => ?_
    · rintro entries rfl
      exact hv _ Relation.ReflTransGen.refl _ (by simp [Place.supplied?, hsource])
    · exact hfields f hw.mem w (hv.of_part (.field hsource hw))

theorem whole_enum {variants : List (Variant Schema)}
    (hcheck : Schema.checkVariants [] 0 variants = .ok ())
    (hfields : ∀ v ∈ variants, ∀ f ∈ v.fields, Whole f.type) : Whole (.enum variants) := by
  intro v hv
  rcases prune_enum_cases variants v with ⟨name, source, variant, hsource, hvariant⟩ | hprune
  · have hmem : variant ∈ variants := List.mem_of_find?_eq_some hvariant
    obtain ⟨-, -, -, hchecks⟩ := Schema.checkVariants_eq_ok_iff.mp hcheck
    obtain ⟨hnd, -, -⟩ := Schema.checkFields_eq_ok_iff.mp (hchecks variant hmem)
    rw [prune_enum hsource hvariant, pruneVariant_eq_self_iff hsource]
    refine pruneSource_of_holds hnd ?_ fun f w hw => ?_
    · rintro entries rfl
      exact hv _ Relation.ReflTransGen.refl _ (by simp [Place.supplied?, hsource, hvariant])
    · exact hfields variant hmem f hw.mem w (hv.of_part (.variantField hsource hvariant hw))
  · exact hprune

/-- **Nothing is pruned where all entries are of use.** -/
theorem whole_of_check (s : Schema) (hs : s.check = .ok ()) : Whole s :=
  Schema.induct_check whole_primitive (fun _ => whole_list) (fun _ _ => whole_map)
    (fun _ => whole_option) (fun _ => whole_tuple) (fun _ => whole_record) (fun _ => whole_enum)
    s hs

end Codec

/-! ## 3. What is left is of use -/

namespace Value

variable {fields : List (Field (Value → Value))}

theorem zipApply_zipApply {gs : List (Value → Value)} (h : ∀ g ∈ gs, ∀ v, g (g v) = g v)
    (values : List Value) : zipApply gs (zipApply gs values) = zipApply gs values := by
  induction gs generalizing values with
  | nil => cases values <;> rfl
  | cons g gs ih =>
    cases values with
    | nil => rfl
    | cons v values =>
      rw [List.forall_mem_cons] at h
      rw [zipApply, zipApply, h.1, ih h.2]

theorem map_pruned {α : Type} {g : α → α} (h : ∀ a, g (g a) = g a) (l : List α) :
    (l.map g).map g = l.map g := by
  rw [map_eq_self_iff, List.forall_mem_map]
  exact fun a _ => h a

theorem pruneListed_pruneListed {key value : Value → Value} (hkey : ∀ v, key (key v) = key v)
    (hvalue : ∀ v, value (value v) = value v) (v : Value) :
    pruneListed key value (pruneListed key value v) = pruneListed key value v := by
  by_cases hpair : ∃ k w, v = .list [k, w]
  · obtain ⟨k, w, rfl⟩ := hpair
    simp only [pruneListed, hkey, hvalue]
  · have hsame : pruneListed key value v = v := by
      unfold pruneListed
      split
      · exact absurd ⟨_, _, rfl⟩ hpair
      · rfl
    rw [hsame, hsame]

section Fields

variable (h : ∀ f ∈ fields, ∀ v, f.type (f.type v) = f.type v)
include h

theorem pruneField_pruneField (name : String) (v : Value) :
    pruneField fields name (pruneField fields name v) = pruneField fields name v := by
  unfold pruneField
  cases hfound : fields.find? (·.name = name) with
  | none => rfl
  | some f => exact h f (List.mem_of_find?_eq_some hfound) v

theorem pruneNamed_pruneNamed (entries : List (String × Value)) :
    pruneNamed fields (pruneNamed fields entries) = pruneNamed fields entries := by
  rw [pruneNamed, firsts_of_nodup (nodup_pruneNamed fields entries), pruneNamed]
  exact mapEntries_mapEntries (pruneField_pruneField h) _

theorem pruneSource_pruneSource (source : Source) :
    pruneSource fields (pruneSource fields source) = pruneSource fields source := by
  cases source with
  | named entries => rw [pruneSource, pruneSource, pruneNamed_pruneNamed h]
  | positional values =>
    rw [pruneSource, pruneSource, zipApply_zipApply]
    exact List.forall_mem_map.mpr h

end Fields

end Value

theorem Primitive.prune_prune (p : Primitive) (v : Value) : p.prune (p.prune v) = p.prune v := by
  have hkept : ∀ declared entries, kept declared (kept declared entries) = kept declared entries :=
    fun declared entries => kept_eq_self_iff.mpr (exact_kept declared entries)
  have hhash : ∀ v, pruneHash (pruneHash v) = pruneHash v := by
    intro v
    cases v with
    | variant name entries => rw [pruneHash, pruneHash, hkept]
    | _ => rfl
  cases p with
  | txOutputId | assetClass | ratio =>
    cases v with
    | record entries => simp only [prune, hkept]
    | _ => rfl
  | credential | stakingHash => exact hhash v
  | stakingCredential =>
    cases v with
    | variant name entries =>
      by_cases hash : name = "Hash"
      · subst hash
        have hexact := exact_kept ["hash"] entries
        simp only [prune, kept_eq_self_iff.mpr (exact_mapEntries_iff.mpr hexact)]
        rw [mapEntries_mapEntries fun _ => hhash]
      by_cases hpointer : name = "Pointer"
      · subst hpointer
        simp only [prune, hkept]
      have hother : prune .stakingCredential (.variant name entries) = .variant name entries := by
        simp only [prune]
      rw [hother, hother]
    | _ => rfl
  | _ => rfl

namespace Schema

/-- **What is pruned once has nothing left to prune.** -/
theorem prune_prune (s : Schema) (v : Value) : s.prune (s.prune v) = s.prune v := by
  induction s using Schema.induct generalizing v with
  | primitive p => exact p.prune_prune v
  | list item ih =>
    cases v with
    | list items => exact congrArg Value.list (map_pruned ih items)
    | _ => rfl
  | map key value ihkey ihvalue =>
    cases v with
    | map pairs =>
      exact congrArg Value.map (map_pruned (fun p => Prod.ext (ihkey p.1) (ihvalue p.2)) pairs)
    | list items =>
      exact congrArg Value.list (map_pruned (pruneListed_pruneListed ihkey ihvalue) items)
    | record entries =>
      exact congrArg Value.record (mapEntries_mapEntries (fun _ => ihvalue) entries)
    | _ => rfl
  | option inner ih =>
    by_cases hv : v.Bare
    · rw [prune, pruneOption_of_bare hv, pruneOption_of_bare (inner.bare_prune hv), ih]
    · cases v with
      | absent | data _ => rfl
      | present w => exact congrArg Value.present (ih w)
      | _ => exact absurd trivial hv
  | tuple items ih =>
    cases v with
    | list values =>
      rw [prune, pruneItems_eq, pruneTuple, pruneTuple, zipApply_zipApply]
      exact List.forall_mem_map.mpr ih
    | _ => rfl
  | record fields ih =>
    have hfields : ∀ f ∈ fields.map (Field.map prune), ∀ v, f.type (f.type v) = f.type v :=
      List.forall_mem_map.mpr ih
    cases hsource : v.asRecord? with
    | none => rw [prune, pruneRecord_of_none hsource, pruneRecord_of_none hsource]
    | some source =>
      have hpruned := asRecord?_pruneRecord (fields.map (Field.map prune)) v
      rw [hsource, Option.map_some] at hpruned
      rw [prune, pruneFields_eq, pruneRecord_eq_self_iff hpruned]
      exact pruneSource_pruneSource hfields source
  | enum variants ih =>
    rcases prune_enum_cases variants v with ⟨name, source, variant, hsource, hvariant⟩ | hprune
    · have hfields : ∀ f ∈ variant.fields.map (Field.map prune), ∀ v,
          f.type (f.type v) = f.type v :=
        List.forall_mem_map.mpr (ih variant (List.mem_of_find?_eq_some hvariant))
      have hpruned := asVariant?_pruneVariant (variant.fields.map (Field.map prune)) v
      rw [hsource, Option.map_some] at hpruned
      rw [prune_enum hsource hvariant, prune_enum hpruned hvariant,
        pruneVariant_eq_self_iff hpruned]
      exact pruneSource_pruneSource hfields source
    · rw [hprune, hprune]

end Schema

namespace Codec

/-- **Encoding drops what is pruned, and nothing else.**  Under a well-formed schema the pruned
value comes out as the value does.  Where a value is encoded, its records and variants of the schema
name declared fields only; all that it supplies is of use exactly if nothing is pruned from it; and
all that pruning leaves is of use. -/
theorem prune_exact {s : Schema} (hs : s.check = .ok ()) (network : Network) (v : Value) :
    encode network s (s.prune v) = encode network s v ∧
    ∀ d, encode network s v = .ok d →
      (∀ q, Within ⟨s, v⟩ q → q.Strict) ∧
      (AllExact s v ↔ s.prune v = v) ∧ AllExact s (s.prune v) := by
  have hsame : encode network s (s.prune v) = encode network s v := unnoticed_of_check s hs .top v
  have hexact : ∀ {w : Value} {d : Data}, encode network s w = .ok d → s.prune w = w →
      AllExact s w := by
    intro w d hd hw q hq
    exact exact_of_settled (settled_of_within hq ⟨hs, hw⟩) (strict_of_within hq ⟨.top, d, hd⟩)
  refine ⟨hsame, fun d hd => ⟨?_, ⟨whole_of_check s hs v, hexact hd⟩, ?_⟩⟩
  · exact fun q hq => strict_of_within hq ⟨.top, d, hd⟩
  · exact hexact (hsame.trans hd) (s.prune_prune v)

namespace Example

/-- An output on offer, who may stake what it holds, and on which terms. -/
def swapSchema : Schema :=
  .record [⟨"output", .primitive .txOutputId⟩, ⟨"staking", .option (.primitive .stakingCredential)⟩,
    ⟨"terms", .enum [⟨"Free", 0, []⟩, ⟨"Price", 1, [⟨"amount", .primitive .int⟩]⟩]⟩]

def stakeKey : Value := .bytes (List.replicate 28 9)

def terseSwap : Value :=
  .record
    [("output", .record [("index", .int .zero), ("tx_id", .bytes (List.replicate 32 7))]),
      ("staking", .variant "Hash" [("hash", .variant "StakeKey" [("hash", stakeKey)])]),
      ("terms", .variant "Price" [("amount", .int (.ofUInt64 5))])]

/-- The same swap with a fee and a memo that nothing reads, a second amount, and other terms. -/
def wordySwap : Value :=
  .record
    [("output", .record [("index", .int .zero), ("fee", .int .zero),
        ("tx_id", .bytes (List.replicate 32 7))]),
      ("staking", .variant "Hash"
        [("hash", .variant "StakeKey" [("hash", stakeKey), ("memo", .text "ours")])]),
      ("terms", .variant "Price" [("amount", .int (.ofUInt64 5)), ("amount", .int (.ofUInt64 6))]),
      ("terms", .text "Free")]

/-- The wordy swap is encoded as the terse one, and so not all that it supplies is of use. -/
theorem prune_exact_swap :
    swapSchema.check = .ok () ∧ swapSchema.prune wordySwap = terseSwap ∧
      ¬ AllExact swapSchema wordySwap ∧ AllExact swapSchema terseSwap ∧
      ∃ d, encode .testnet swapSchema wordySwap = .ok d ∧
        encode .testnet swapSchema terseSwap = .ok d := by
  have hs : swapSchema.check = .ok () := rfl
  have hprune : swapSchema.prune wordySwap = terseSwap := rfl
  obtain ⟨d, hd⟩ : ∃ d, encode .testnet swapSchema wordySwap = .ok d := ⟨_, rfl⟩
  obtain ⟨hsame, hdrops⟩ := prune_exact hs .testnet wordySwap
  obtain ⟨-, hiff, hleft⟩ := hdrops d hd
  rw [hprune] at hsame hiff hleft
  refine ⟨hs, hprune, fun hall => ?_, hleft, d, hd, hsame.trans hd⟩
  have hlen : 3 = 4 := congrArg List.length (Value.record.inj (hiff.mp hall))
  cases hlen

end Example

end Codec

end ScriptBundle

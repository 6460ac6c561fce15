/-
# The key covers its inputs exactly

The stream that a key is the digest of is the same for two inputs exactly if they agree up to the
order of their declarations (`KeyInputs.stream_eq_iff`).  So nothing that can change an outcome is
missing from it, nothing runs together in it, and nothing else is in it.

From left to right, each part of the stream is separated from what follows, as long as lengths and
counts fit in front of what they are of (`Fits`).  From right to left, sorting by names undoes
every reordering, provided no name occurs twice (`DistinctNames`).
-/
import Mathlib.Data.List.Nodup
import Mathlib.Data.List.Perm.Basic
import ScriptBundle.Proofs.Data.Binary
import ScriptBundle.Proofs.Schema.Document
import ScriptBundle.Store.Key

namespace ScriptBundle

/-! ## 1. Sizes that fit and names that are distinct -/

/-- The length of a text fits in front of it. -/
def TextFits (s : String) : Prop := (Bytes.ofText s).length < Feed.limit

instance (s : String) : Decidable (TextFits s) := inferInstanceAs (Decidable (_ < _))

/-- A list has a count that fits, and so do its items. -/
def ListFits {α : Type} (fits : α → Prop) (items : List α) : Prop :=
  items.length < Feed.limit ∧ ∀ a ∈ items, fits a

theorem ListFits.of_perm {α : Type} {fits : α → Prop} {as bs : List α} (h : ListFits fits as)
    (hperm : as.Perm bs) : ListFits fits bs :=
  ⟨hperm.length_eq ▸ h.1, fun b hb => h.2 b (hperm.mem_iff.mpr hb)⟩

structure ValidatorKey.Fits (v : ValidatorKey) : Prop where
  name : TextFits v.name
  source : TextFits v.source
  purpose : TextFits v.purpose
  modules : ListFits TextFits v.modules
  hashDependencies : ListFits TextFits v.hashDependencies
  redeemer : TextFits v.redeemer.toJson
  datum : ∀ s ∈ v.datum, TextFits s.toJson

namespace KeyInputs

/-- Every length and every count is below `2 ^ 64`. -/
structure Fits (i : KeyInputs) : Prop where
  compilerVersion : TextFits i.compilerVersion
  validators : ListFits ValidatorKey.Fits i.validators
  modules : ListFits (fun m => TextFits m.1 ∧ TextFits m.2) i.modules
  parameters : ListFits (fun p => TextFits p.1 ∧ p.2.toBinary.length < Feed.limit) i.parameters

/-- No two validators, no two modules and no two parameters have one name. -/
structure DistinctNames (i : KeyInputs) : Prop where
  validators : (i.validators.map (·.name)).Nodup
  modules : (i.modules.map (·.1)).Nodup
  parameters : (i.parameters.map (·.1)).Nodup

end KeyInputs

/-! ## 2. Agreement -/

/-- Two declarations agree, the order of their modules and of their dependencies apart. -/
structure ValidatorKey.Agrees (v w : ValidatorKey) : Prop where
  name : v.name = w.name
  source : v.source = w.source
  purpose : v.purpose = w.purpose
  modules : v.modules.Perm w.modules
  hashDependencies : v.hashDependencies.Perm w.hashDependencies
  dependsOnOwnHash : v.dependsOnOwnHash = w.dependsOnOwnHash
  redeemer : v.redeemer = w.redeemer
  datum : v.datum = w.datum

theorem ValidatorKey.Agrees.refl (v : ValidatorKey) : v.Agrees v :=
  ⟨rfl, rfl, rfl, .refl _, .refl _, rfl, rfl, rfl⟩

theorem ValidatorKey.Fits.of_agrees {v w : ValidatorKey} (hv : v.Fits) (h : v.Agrees w) :
    w.Fits where
  name := h.name ▸ hv.name
  source := h.source ▸ hv.source
  purpose := h.purpose ▸ hv.purpose
  modules := hv.modules.of_perm h.modules
  hashDependencies := hv.hashDependencies.of_perm h.hashDependencies
  redeemer := h.redeemer ▸ hv.redeemer
  datum := h.datum ▸ hv.datum

theorem ListFits.of_agrees {vs ws : List ValidatorKey} (hvs : ListFits ValidatorKey.Fits vs)
    (h : List.Forall₂ ValidatorKey.Agrees vs ws) : ListFits ValidatorKey.Fits ws := by
  refine ⟨h.length_eq ▸ hvs.1, ?_⟩
  have hfits := hvs.2
  clear hvs
  induction h with
  | nil => exact List.forall_mem_nil _
  | cons hv _ ih =>
    obtain ⟨hfirst, hrest⟩ := List.forall_mem_cons.mp hfits
    exact List.forall_mem_cons.mpr ⟨hfirst.of_agrees hv, ih hrest⟩

namespace KeyInputs

/-- Two inputs agree, the order of their declarations apart. -/
structure Agrees (i j : KeyInputs) : Prop where
  compilerVersion : i.compilerVersion = j.compilerVersion
  debug : i.debug = j.debug
  mainnet : i.mainnet = j.mainnet
  validators : ∃ vs, List.Forall₂ ValidatorKey.Agrees i.validators vs ∧ vs.Perm j.validators
  modules : i.modules.Perm j.modules
  parameters : i.parameters.Perm j.parameters

theorem Agrees.refl (i : KeyInputs) : i.Agrees i :=
  ⟨rfl, rfl, rfl, ⟨_, List.forall₂_same.mpr fun v _ => .refl v, .refl _⟩, .refl _, .refl _⟩

/-- Whether sizes fit does not depend on the order of declarations. -/
theorem Fits.of_agrees {i j : KeyInputs} (hi : i.Fits) (h : i.Agrees j) : j.Fits := by
  obtain ⟨vs, hvs, hperm⟩ := h.validators
  exact ⟨h.compilerVersion ▸ hi.compilerVersion, (hi.validators.of_agrees hvs).of_perm hperm,
    hi.modules.of_perm h.modules, hi.parameters.of_perm h.parameters⟩

/-! ## 3. Sorting by names -/

section Sorting

variable {α : Type} {name : α → String} {as bs : List α}

theorem byName_perm (name : α → String) (as : List α) : (byName name as).Perm as :=
  List.mergeSort_perm as _

theorem byName_sorted (name : α → String) (as : List α) :
    (byName name as).Pairwise (name · ≤ name ·) := by
  have hsorted : (byName name as).Pairwise fun a b => decide (name a ≤ name b) = true := by
    refine List.pairwise_mergeSort (fun a b c hab hbc => ?_) (fun a b => ?_) as
    · simp only [decide_eq_true_eq] at hab hbc ⊢
      exact String.le_trans hab hbc
    · simp only [Bool.or_eq_true, decide_eq_true_eq]
      exact String.le_total (name a) (name b)
  exact hsorted.imp of_decide_eq_true

/-- **Sorting undoes reordering.**  Lists of items whose names tell them apart are sorted alike
exactly if one is a reordering of the other. -/
theorem byName_eq_iff (hinj : ∀ a ∈ as, ∀ b ∈ as, name a = name b → a = b) :
    byName name as = byName name bs ↔ as.Perm bs := by
  constructor
  · intro heq
    have hperm := (byName_perm name as).symm
    rw [heq] at hperm
    exact hperm.trans (byName_perm name bs)
  · intro hperm
    have hall : (byName name as).Perm (byName name bs) :=
      (byName_perm name as).trans (hperm.trans (byName_perm name bs).symm)
    refine hall.eq_of_pairwise ?_ (byName_sorted name as) (byName_sorted name bs)
    intro a b ha hb hab hba
    have ha' : a ∈ as := (byName_perm name as).mem_iff.mp ha
    have hb' : b ∈ as := hperm.mem_iff.mpr ((byName_perm name bs).mem_iff.mp hb)
    exact hinj a ha' b hb' (String.le_antisymm hab hba)

theorem byName_id_eq_iff {names names' : List String} :
    byName id names = byName id names' ↔ names.Perm names' :=
  byName_eq_iff fun _ _ _ _ h => h

theorem byName_eq_iff_of_nodup (hnd : (as.map name).Nodup) :
    byName name as = byName name bs ↔ as.Perm bs :=
  byName_eq_iff fun _ ha _ hb h => List.inj_on_of_nodup_map hnd ha hb h

theorem listFits_byName (name : α → String) {fits : α → Prop} (h : ListFits fits as) :
    ListFits fits (byName name as) :=
  h.of_perm (byName_perm name as).symm

end Sorting

/-! ## 4. The parts of the stream -/

theorem separates_counted {α : Type} {write : α → Bytes} {fits : α → Prop} {R : α → α → Prop}
    {as bs : List α} (ha : ListFits fits as) (hb : ListFits fits bs)
    (h : ∀ a b, fits a → fits b → Separates (write a) (write b) (R a b)) :
    Separates (counted write as) (counted write bs) (List.Forall₂ R as bs) :=
  Separates.counted (Feed.separates_count ha.1 hb.1) fun a hma b hmb =>
    h a b (ha.2 a hma) (hb.2 b hmb)

/-- Sorted lists of items that are told apart. -/
theorem separates_byName {α : Type} (name : α → String) {write : α → Bytes} {fits : α → Prop}
    {as bs : List α} (ha : ListFits fits as) (hb : ListFits fits bs)
    (h : ∀ a b, fits a → fits b → Separates (write a) (write b) (a = b)) :
    Separates (counted write (byName name as)) (counted write (byName name bs)) (as.Perm bs) := by
  refine (separates_counted (listFits_byName name ha) (listFits_byName name hb) h).imp fun heq => ?_
  rw [List.forall₂_eq_eq_eq] at heq
  have hperm := (byName_perm name as).symm
  rw [heq] at hperm
  exact hperm.trans (byName_perm name bs)

theorem separates_schemaStream {s t : Schema} (hs : TextFits s.toJson) (ht : TextFits t.toJson) :
    Separates (schemaStream s) (schemaStream t) (s = t) :=
  (Feed.separates_text hs ht).imp Schema.toJson_injective

theorem separates_optionalSchemaStream {s t : Option Schema} (hs : ∀ d ∈ s, TextFits d.toJson)
    (ht : ∀ d ∈ t, TextFits d.toJson) :
    Separates (optionalSchemaStream s) (optionalSchemaStream t) (s = t) := by
  cases s with
  | none =>
    cases t with
    | none => exact (Feed.separates_flag false false).imp fun _ => rfl
    | some t => exact fun u v heq => by cases heq
  | some s =>
    cases t with
    | none => exact fun u v heq => by cases heq
    | some t =>
      have hschema := separates_schemaStream (hs s rfl) (ht t rfl)
      exact ((Feed.separates_flag true true).append fun _ => hschema).imp fun ⟨_, h⟩ =>
        congrArg some h

theorem separates_validatorStream {v w : ValidatorKey} (hv : v.Fits) (hw : w.Fits) :
    Separates (validatorStream v) (validatorStream w) (v.Agrees w) := by
  have htext : ∀ s t, TextFits s → TextFits t → Separates (Feed.text s) (Feed.text t) (s = t) :=
    fun s t => Feed.separates_text
  have hparts := htext _ _ hv.name hw.name
    |>.append (fun _ => htext _ _ hv.source hw.source)
    |>.append (fun _ => htext _ _ hv.purpose hw.purpose)
    |>.append (fun _ => separates_byName id hv.modules hw.modules htext)
    |>.append (fun _ => separates_byName id hv.hashDependencies hw.hashDependencies htext)
    |>.append (fun _ => Feed.separates_flag v.dependsOnOwnHash w.dependsOnOwnHash)
    |>.append (fun _ => separates_schemaStream hv.redeemer hw.redeemer)
    |>.append (fun _ => separates_optionalSchemaStream hv.datum hw.datum)
  refine hparts.imp ?_
  rintro ⟨⟨⟨⟨⟨⟨⟨hname, hsource⟩, hpurpose⟩, hmodules⟩, hdeps⟩, hown⟩, hredeemer⟩, hdatum⟩
  exact ⟨hname, hsource, hpurpose, hmodules, hdeps, hown, hredeemer, hdatum⟩

theorem separates_moduleStream {m n : String × String} (hm : TextFits m.1 ∧ TextFits m.2)
    (hn : TextFits n.1 ∧ TextFits n.2) : Separates (moduleStream m) (moduleStream n) (m = n) :=
  ((Feed.separates_text hm.1 hn.1).append fun _ => Feed.separates_text hm.2 hn.2).imp
    fun ⟨hname, hsource⟩ => Prod.ext hname hsource

theorem separates_parameterStream {p q : String × Data}
    (hp : TextFits p.1 ∧ p.2.toBinary.length < Feed.limit)
    (hq : TextFits q.1 ∧ q.2.toBinary.length < Feed.limit) :
    Separates (parameterStream p) (parameterStream q) (p = q) := by
  have hlimit : Feed.limit < Varint.limit := by decide
  have hdata := Data.separates_toBinary p.2 q.2 (Nat.lt_trans hp.2 hlimit)
    (Nat.lt_trans hq.2 hlimit)
  exact ((Feed.separates_text hp.1 hq.1).append fun _ => Feed.separates_bytes hp.2 hq.2).imp
    fun ⟨hname, hbytes⟩ => Prod.ext hname (hdata.of_eq hbytes)

/-! ## 5. The stream -/

variable {i j : KeyInputs}

theorem agrees_of_stream_eq (hi : i.Fits) (hj : j.Fits) (h : i.stream = j.stream) :
    i.Agrees j := by
  have hvalidators := separates_counted (listFits_byName (·.name) hi.validators)
    (listFits_byName (·.name) hj.validators) fun _ _ => separates_validatorStream
  have hmodules := separates_byName (·.1) hi.modules hj.modules fun _ _ => separates_moduleStream
  have hparameters :=
    separates_byName (·.1) hi.parameters hj.parameters fun _ _ => separates_parameterStream
  have hparts := Feed.separates_text hi.compilerVersion hj.compilerVersion
    |>.append (fun _ => Feed.separates_flag i.debug j.debug)
    |>.append (fun _ => Feed.separates_flag i.mainnet j.mainnet)
    |>.append (fun _ => hvalidators)
    |>.append (fun _ => hmodules)
    |>.append (fun _ => hparameters)
  obtain ⟨⟨⟨⟨⟨hversion, hdebug⟩, hmainnet⟩, hvalidators⟩, hmodules⟩, hparameters⟩ := hparts.of_eq h
  obtain ⟨vs, hvs, hperm⟩ := List.perm_comp_forall₂ (byName_perm _ i.validators).symm hvalidators
  exact ⟨hversion, hdebug, hmainnet, ⟨vs, hvs, hperm.trans (byName_perm _ j.validators)⟩,
    hmodules, hparameters⟩

theorem validatorStream_of_agrees {v w : ValidatorKey} (h : v.Agrees w) :
    validatorStream v = validatorStream w := by
  rw [validatorStream, validatorStream, h.name, h.source, h.purpose,
    byName_id_eq_iff.mpr h.modules, byName_id_eq_iff.mpr h.hashDependencies, h.dependsOnOwnHash,
    h.redeemer, h.datum]

theorem names_of_agrees {vs ws : List ValidatorKey} (h : List.Forall₂ ValidatorKey.Agrees vs ws) :
    vs.map (·.name) = ws.map (·.name) := by
  induction h with
  | nil => rfl
  | cons hv _ ih => rw [List.map_cons, List.map_cons, hv.name, ih]

theorem counted_of_agrees {vs ws : List ValidatorKey}
    (h : List.Forall₂ ValidatorKey.Agrees vs ws) :
    counted validatorStream vs = counted validatorStream ws := by
  have hitems : vs.flatMap validatorStream = ws.flatMap validatorStream := by
    induction h with
    | nil => rfl
    | cons hv _ ih => rw [List.flatMap_cons, List.flatMap_cons, validatorStream_of_agrees hv, ih]
  rw [counted, counted, h.length_eq, hitems]

/-- Declarations that agree in some order agree when both are sorted. -/
theorem byName_agrees {vs ws : List ValidatorKey} (hnd : (ws.map ValidatorKey.name).Nodup)
    (h : ∃ us, List.Forall₂ ValidatorKey.Agrees vs us ∧ us.Perm ws) :
    List.Forall₂ ValidatorKey.Agrees (byName ValidatorKey.name vs)
      (byName ValidatorKey.name ws) := by
  obtain ⟨us, hus, hperm⟩ := h
  obtain ⟨sorted, hsorted, hperm'⟩ := List.perm_comp_forall₂ (byName_perm ValidatorKey.name vs) hus
  -- What the sorted declarations agree with, one by one, has the same names and so is sorted too.
  have hvs := byName_sorted ValidatorKey.name vs
  have hws := byName_sorted ValidatorKey.name ws
  have horder : sorted.Pairwise fun a b => a.name ≤ b.name := by
    have hnames := List.pairwise_map.mpr hvs
    rw [names_of_agrees hsorted] at hnames
    exact List.pairwise_map.mp hnames
  have hall := (hperm'.trans hperm).trans (byName_perm ValidatorKey.name ws).symm
  have hunique : ∀ a b, a ∈ sorted → b ∈ byName ValidatorKey.name ws → a.name ≤ b.name →
      b.name ≤ a.name → a = b := by
    intro a b ha hb hab hba
    have ha' : a ∈ ws := (hperm'.trans hperm).mem_iff.mp ha
    have hb' : b ∈ ws := (byName_perm ValidatorKey.name ws).mem_iff.mp hb
    exact List.inj_on_of_nodup_map hnd ha' hb' (String.le_antisymm hab hba)
  have heq := hall.eq_of_pairwise hunique horder hws
  rwa [heq] at hsorted

theorem stream_eq_of_agrees (hi : i.DistinctNames) (hj : j.DistinctNames) (h : i.Agrees j) :
    i.stream = j.stream := by
  have hvalidators := counted_of_agrees (byName_agrees hj.validators h.validators)
  have hmodules := (byName_eq_iff_of_nodup hi.modules).mpr h.modules
  have hparameters := (byName_eq_iff_of_nodup hi.parameters).mpr h.parameters
  rw [stream, stream, h.compilerVersion, h.debug, h.mainnet, hvalidators, hmodules, hparameters]

/-- **The key covers its inputs exactly.**  Two inputs whose names are distinct and whose sizes fit
have one stream exactly if they agree up to the order of their declarations. -/
theorem stream_eq_iff (hi : i.Fits) (hj : j.Fits) (hni : i.DistinctNames)
    (hnj : j.DistinctNames) : i.stream = j.stream ↔ i.Agrees j :=
  ⟨agrees_of_stream_eq hi hj, stream_eq_of_agrees hni hnj⟩

namespace Example

def spending (name : String) (modules : List String) : ValidatorKey where
  name
  source := "main"
  purpose := "spending"
  modules
  hashDependencies := []
  dependsOnOwnHash := false
  redeemer := .primitive .int
  datum := some (.primitive .int)

/-- Two validators and two modules. -/
def declared : KeyInputs :=
  ⟨"1.0", false, true, [spending "vault" ["math", "time"], spending "fee" []],
    [("time", "x"), ("math", "y")], [("limit", .int .zero)]⟩

/-- The same in another order. -/
def reordered : KeyInputs :=
  ⟨"1.0", false, true, [spending "fee" [], spending "vault" ["time", "math"]],
    [("math", "y"), ("time", "x")], [("limit", .int .zero)]⟩

theorem declared_fits : declared.Fits where
  compilerVersion := (by decide : TextFits "1.0")
  validators := by
    have hredeemer : TextFits (Schema.primitive .int).toJson := by decide
    have hfits : ∀ name modules, TextFits name → ListFits TextFits modules →
        (spending name modules).Fits := fun name modules hname hmodules =>
      ⟨hname, (by decide : TextFits "main"), (by decide : TextFits "spending"), hmodules,
        ⟨(by decide : 0 < Feed.limit), List.forall_mem_nil _⟩, hredeemer,
        fun s hs => by cases hs; exact hredeemer⟩
    refine ⟨(by decide : 2 < Feed.limit), List.forall_mem_cons.mpr ⟨?_, ?_⟩⟩
    · exact hfits _ _ (by decide) ⟨by decide, by decide⟩
    · exact List.forall_mem_singleton.mpr (hfits _ _ (by decide) ⟨by decide, by decide⟩)
  modules := ⟨by decide, by decide⟩
  parameters := ⟨by decide, by decide⟩

theorem reordered_agrees : declared.Agrees reordered := by
  have hmodules : (spending "vault" ["math", "time"]).Agrees (spending "vault" ["time", "math"]) :=
    ⟨rfl, rfl, rfl, .swap _ _ _, .nil, rfl, rfl, rfl⟩
  exact ⟨rfl, rfl, rfl, ⟨_, .cons hmodules (.cons (.refl _) .nil), .swap _ _ _⟩, .swap _ _ _,
    .refl _⟩

theorem stream_reordered : declared.Fits ∧ reordered.Fits ∧ declared.DistinctNames ∧
    reordered.DistinctNames ∧ declared.stream = reordered.stream := by
  have hfits := declared_fits.of_agrees reordered_agrees
  have hnd : declared.DistinctNames := ⟨by decide, by decide, by decide⟩
  have hnr : reordered.DistinctNames := ⟨by decide, by decide, by decide⟩
  exact ⟨declared_fits, hfits, hnd, hnr,
    (stream_eq_iff declared_fits hfits hnd hnr).mpr reordered_agrees⟩

end Example

end KeyInputs

end ScriptBundle

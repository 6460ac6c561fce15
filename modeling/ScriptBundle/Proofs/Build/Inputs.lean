/-
# Builds whose inputs agree

The inputs of two builds agree if nothing differs that the key covers: declarations may stand in
another order, and so may the names that a validator lists.  Then the keys are equal
(`buildKey_eq_of_agrees`), the names and indices are the same, and the declarations hold together in
both builds or in neither (`checkDeclared_iff_of_agrees`).

Such builds are alike as soon as their validators list the same modules in the same order
(`alike_of_agrees`).  The order of modules is the one thing that a toolchain is told and the key
does not tell.
-/
import ScriptBundle.Proofs.Build.Alike
import ScriptBundle.Proofs.Store.Key

namespace ScriptBundle

/-! ## 1. Validators in the key -/

/-- The validators of two sets list the same modules in the same order. -/
def ValidatorSet.SameModules (s s' : ValidatorSet) : Prop :=
  ∀ name v w, s.validators.get? name = some v → s'.validators.get? name = some w →
    v.modules = w.modules

/-- What a validator contributes to the key. -/
def Validator.key (name : String) (v : Validator) : ValidatorKey where
  name
  source := v.source
  purpose := v.purpose.name
  modules := v.modules
  hashDependencies := v.hashDependencies
  dependsOnOwnHash := v.dependsOnOwnHash
  redeemer := v.redeemer
  datum := v.datum

theorem Purpose.name_injective {p q : Purpose} (h : p.name = q.name) : p = q := by
  have hp := Purpose.parse_name p
  rw [h, Purpose.parse_name] at hp
  exact (Except.ok.inj hp).symm

theorem Network.isMainnet_injective {m n : Network} (h : m.isMainnet = n.isMainnet) : m = n := by
  cases m <;> cases n <;> first | rfl | cases h

section

variable {σ P : Type} {t : Toolchain σ P} {set set' : ValidatorSet}
  {options options' : BuildOptions}

theorem keyInputs_validators : (keyInputs t set options).validators =
    set.validators.entries.map fun e => e.2.key e.1 := rfl

theorem names_validators (t : Toolchain σ P) (set : ValidatorSet) (options : BuildOptions) :
    (keyInputs t set options).validators.map (·.name) = set.validators.names := by
  rw [keyInputs_validators, List.map_map]
  rfl

theorem byName_validators : KeyInputs.byName (·.name) (keyInputs t set options).validators =
    (keyInputs t set options).validators := by
  refine List.mergeSort_of_pairwise ?_
  have hsorted := set.validators.sorted
  change set.validators.names.Pairwise (· < ·) at hsorted
  rw [← names_validators t set options, List.pairwise_map] at hsorted
  exact hsorted.imp fun h => decide_eq_true
    (String.not_lt.mp fun hgt => String.lt_irrefl _ (String.lt_trans h hgt))

/-! ## 2. What agrees with the inputs -/

/-- Sets whose inputs agree have validators of the same names that agree one by one. -/
theorem rel_of_agrees (h : (keyInputs t set options).Agrees (keyInputs t set' options')) :
    NameMap.Rel (fun v w => ∃ name, (v.key name).Agrees (w.key name)) set.validators
      set'.validators := by
  have hnodup : ((keyInputs t set' options').validators.map (·.name)).Nodup := by
    rw [names_validators]
    exact set'.validators.names_nodup
  have hall := KeyInputs.byName_agrees hnodup h.validators
  rw [byName_validators, byName_validators, keyInputs_validators, keyInputs_validators,
    List.forall₂_map_left_iff, List.forall₂_map_right_iff] at hall
  refine hall.imp ?_
  rintro ⟨name, v⟩ ⟨name', w⟩ hagrees
  obtain rfl : name = name' := hagrees.name
  exact ⟨rfl, name, hagrees⟩

theorem alike_of_agrees (h : (keyInputs t set options).Agrees (keyInputs t set' options'))
    (hmodules : set.SameModules set') : set.Alike set' := by
  refine ⟨(rel_of_agrees h).imp_of_get? ?_, NameMap.eq_of_perm h.modules⟩
  rintro name v w hv hw ⟨_, hagrees⟩
  exact ⟨Purpose.name_injective hagrees.purpose, hagrees.source, hmodules name v w hv hw,
    hagrees.hashDependencies, hagrees.dependsOnOwnHash, hagrees.redeemer, hagrees.datum⟩

/-- Declarations whose inputs agree hold together, or do not. -/
theorem check_iff_of_agrees (h : (keyInputs t set options).Agrees (keyInputs t set' options')) :
    set.check = .ok () ↔ set'.check = .ok () := by
  have hrel := rel_of_agrees h
  have hsources : set.modules = set'.modules := NameMap.eq_of_perm h.modules
  have hflaw : ∀ name v w, (∃ n, (v.key n).Agrees (w.key n)) →
      (set.flaw? name v = none ↔ set'.flaw? name w = none) := by
    rintro name v w ⟨n, hagrees⟩
    have hpurpose := Purpose.name_injective hagrees.purpose
    have hdatum : v.datum = w.datum := hagrees.datum
    have hmodules : ∀ m, m ∈ v.modules ↔ m ∈ w.modules := fun _ => hagrees.modules.mem_iff
    have hdeps : ∀ d, d ∈ v.hashDependencies ↔ d ∈ w.hashDependencies :=
      fun _ => hagrees.hashDependencies.mem_iff
    simp only [ValidatorSet.flaw?_eq_none_iff, hpurpose, hdatum, hmodules, hdeps, hsources,
      hrel.names_eq]
  rw [ValidatorSet.check_eq_ok_iff, ValidatorSet.check_eq_ok_iff]
  constructor
  · intro hset name w hw
    obtain ⟨v, hv, hagrees⟩ := hrel.symm.get? hw
    exact (hflaw name v w hagrees).mp (hset name v hv)
  · intro hset name v hv
    obtain ⟨w, hw, hagrees⟩ := hrel.get? hv
    exact (hflaw name v w hagrees).mpr (hset name w hw)

/-- Declarations and options that hold together. -/
theorem checkDeclared_iff : checkDeclared set options = .ok () ↔
    set.check = .ok () ∧ ∀ name ∈ options.expected.names, name ∈ set.validators.names := by
  unfold checkDeclared
  cases hcheck : set.check with
  | error flaw =>
    refine ⟨fun h => (by cases h), ?_⟩
    rintro ⟨h, -⟩
    cases h
  | ok =>
    dsimp only
    cases hfind : options.expected.names.find? fun name => !set.validators.contains name with
    | some name =>
      refine ⟨fun h => (by cases h), fun ⟨_, hall⟩ => ?_⟩
      have hmem := NameMap.contains_iff.mpr (hall name (List.mem_of_find?_eq_some hfind))
      have hnot := List.find?_some hfind
      rw [hmem] at hnot
      cases hnot
    | none =>
      refine ⟨fun _ => ⟨rfl, fun name hname => NameMap.contains_iff.mp ?_⟩, fun _ => rfl⟩
      have hnot := List.find?_eq_none.mp hfind name hname
      rwa [Bool.not_eq_true, Bool.not_eq_false'] at hnot

theorem checkDeclared_iff_of_agrees
    (h : (keyInputs t set options).Agrees (keyInputs t set' options')) {o : BuildOptions} :
    checkDeclared set o = .ok () ↔ checkDeclared set' o = .ok () := by
  rw [checkDeclared_iff, checkDeclared_iff, check_iff_of_agrees h, (rel_of_agrees h).names_eq]

theorem optionsAlike_of_agrees
    (h : (keyInputs t set options).Agrees (keyInputs t set' options')) : options.Alike options' :=
  ⟨Network.isMainnet_injective h.mainnet, h.debug, NameMap.eq_of_perm h.parameters⟩

theorem distinctNames_keyInputs : (keyInputs t set options).DistinctNames where
  validators := (names_validators t set options).symm ▸ set.validators.names_nodup
  modules := set.modules.names_nodup
  parameters := options.parameters.names_nodup

theorem buildKey_eq_of_agrees (h : (keyInputs t set options).Agrees (keyInputs t set' options')) :
    buildKey t set options = buildKey t set' options' :=
  congrArg Digest.ofContent
    (KeyInputs.stream_eq_of_agrees distinctNames_keyInputs distinctNames_keyInputs h)

theorem buildKey_eq_of_alike (h : options.Alike options') :
    buildKey t set options = buildKey t set options' := by
  rw [buildKey, buildKey, keyInputs, keyInputs, h.debug, h.network, h.parameters]

end

end ScriptBundle

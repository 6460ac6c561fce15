/-
# Declarations are refused first

What can be told from the declarations is told before anything is done: the first defect in the
order of names is the complaint (`ValidatorSet.Blames`), after that the least name that a hash is
expected of in vain (`BuildOptions.Stray`).  Neither the toolchain nor the cache is touched then,
and they are not touched either if there is no order of compilation (`Idle`).

The conditions are tested once more on the way, where modules are looked up and where an order is
sought.  If the declarations hold together these tests find nothing, and a build does not fail for
its declarations any more, not even one that is served an arbitrary record (`declared_exact`).
-/
import ScriptBundle.Proofs.Build.Complaints
import ScriptBundle.Proofs.Build.Inputs

namespace ScriptBundle

namespace ValidatorSet

variable {s : ValidatorSet} {name : String} {v : Validator} {flaw : Flaw}

/-! ## 1. Defects -/

/-- A declaration that nothing is wrong with: of which form the datum is is known where one is
carried, and it names only modules and validators of the set. -/
structure Sound (s : ValidatorSet) (v : Validator) : Prop where
  datum : v.purpose = .spending → v.datum ≠ none
  modules : ∀ m ∈ v.modules, m ∈ s.modules.names
  dependencies : ∀ d ∈ v.hashDependencies, d ∈ s.validators.names

/-- What is wrong with a declaration.  A missing datum comes before unknown modules, these before
unknown dependencies, and of several such the one that is listed first. -/
inductive FirstFlaw (s : ValidatorSet) (name : String) (v : Validator) : Flaw → Prop
  | missingDatum (hspending : v.purpose = .spending) (hdatum : v.datum = none) :
    FirstFlaw s name v (.missingDatum name)
  | unknownModule {m : String} {before after : List String}
    (hdatum : v.purpose = .spending → v.datum ≠ none) (hmodules : v.modules = before ++ m :: after)
    (hbefore : ∀ n ∈ before, n ∈ s.modules.names) (hunknown : m ∉ s.modules.names) :
    FirstFlaw s name v (.unknownModule name m)
  | unknownDependency {d : String} {before after : List String}
    (hdatum : v.purpose = .spending → v.datum ≠ none)
    (hmodules : ∀ m ∈ v.modules, m ∈ s.modules.names)
    (hdependencies : v.hashDependencies = before ++ d :: after)
    (hbefore : ∀ n ∈ before, n ∈ s.validators.names) (hunknown : d ∉ s.validators.names) :
    FirstFlaw s name v (.unknownDependency name d)

/-- Something is wrong with the set: this, with the first validator in the order of names that
anything is wrong with. -/
def Blames (s : ValidatorSet) (flaw : Flaw) : Prop :=
  ∃ name v, s.validators.get? name = some v ∧ s.FirstFlaw name v flaw ∧
    ∀ n w, s.validators.get? n = some w → n < name → s.Sound w

theorem sound_iff : s.Sound v ↔ s.flaw? name v = none := by
  rw [flaw?_eq_none_iff, not_and]
  exact ⟨fun h => ⟨h.datum, h.modules, h.dependencies⟩, fun h => ⟨h.1, h.2.1, h.2.2⟩⟩

theorem flaw?_eq_some_iff : s.flaw? name v = some flaw ↔ s.FirstFlaw name v flaw := by
  rw [flaw?]
  constructor
  · intro h
    split at h
    · rename_i hmissing
      cases h
      exact .missingDatum hmissing.1 hmissing.2
    · rename_i hdatum
      rw [not_and] at hdatum
      split at h
      · rename_i m hm
        cases h
        obtain ⟨before, after, hmodules, hbefore, hunknown⟩ :=
          NameMap.find?_unknown_eq_some_iff.mp hm
        exact .unknownModule hdatum hmodules hbefore hunknown
      · rename_i hnone
        obtain ⟨d, hd, rfl⟩ := Option.map_eq_some_iff.mp h
        obtain ⟨before, after, hdeps, hbefore, hunknown⟩ :=
          NameMap.find?_unknown_eq_some_iff.mp hd
        have hmodules := NameMap.find?_unknown_eq_none_iff.mp hnone
        exact .unknownDependency hdatum hmodules hdeps hbefore hunknown
  · intro h
    cases h with
    | missingDatum hspending hdatum => rw [if_pos ⟨hspending, hdatum⟩]
    | unknownModule hdatum hmodules hbefore hunknown =>
      rw [if_neg (not_and.mpr hdatum),
        NameMap.find?_unknown_eq_some_iff.mpr ⟨_, _, hmodules, hbefore, hunknown⟩]
    | unknownDependency hdatum hmodules hdependencies hbefore hunknown =>
      rw [if_neg (not_and.mpr hdatum), NameMap.find?_unknown_eq_none_iff.mpr hmodules,
        NameMap.find?_unknown_eq_some_iff.mpr ⟨_, _, hdependencies, hbefore, hunknown⟩]
      rfl

/-- The check refuses a set for the first thing that is wrong with it. -/
theorem check_eq_error_iff : s.check = .error flaw ↔ s.Blames flaw := by
  have hfind : s.check = .error flaw ↔
      (s.validators.entries.findSome? fun e => s.flaw? e.1 e.2) = some flaw := by
    unfold check
    split
    · rename_i flaw' hfirst
      have hsome : (s.validators.entries.findSome? fun e => s.flaw? e.1 e.2) = some flaw' := hfirst
      rw [hsome, Except.error.injEq, Option.some.injEq]
    · rename_i hfirst
      have hnone : (s.validators.entries.findSome? fun e => s.flaw? e.1 e.2) = none := hfirst
      rw [hnone]
      exact iff_of_false (by simp) (by simp)
  rw [hfind, NameMap.findSome?_entries_eq_some_iff]
  simp only [flaw?_eq_some_iff, ← sound_iff]
  rfl

/-- The check passes exactly if nothing is wrong with any declaration. -/
theorem check_eq_ok_iff_sound :
    s.check = .ok () ↔ ∀ name v, s.validators.get? name = some v → s.Sound v := by
  simp only [check_eq_ok_iff, ← sound_iff]

end ValidatorSet

/-- A hash is expected of a validator that is not there, and this is the least such name. -/
structure BuildOptions.Stray (options : BuildOptions) (set : ValidatorSet) (name : String) :
    Prop where
  expected : name ∈ options.expected.names
  unknown : name ∉ set.validators.names
  least : ∀ n ∈ options.expected.names, n < name → n ∈ set.validators.names

section

variable {set : ValidatorSet} {options : BuildOptions} {e : BuildError} {name : String}

theorem find?_stray_iff :
    (options.expected.names.find? fun n => !set.validators.contains n) = some name ↔
      options.Stray set name := by
  simp only [NameMap.find?_names_eq_some_iff, Bool.not_eq_true', ← Bool.not_eq_true,
    NameMap.contains_iff, not_not]
  exact ⟨fun h => ⟨h.1, h.2.1, h.2.2⟩, fun h => ⟨h.expected, h.unknown, h.least⟩⟩

/-- The declarations are refused for a defect, or else for a name that is expected in vain. -/
theorem checkDeclared_eq_error_iff : checkDeclared set options = .error e ↔
    (∃ flaw, set.Blames flaw ∧ e = .declaration flaw) ∨
      set.check = .ok () ∧ ∃ name, options.Stray set name ∧ e = .unknownValidator name := by
  simp only [← ValidatorSet.check_eq_error_iff, ← find?_stray_iff]
  unfold checkDeclared
  cases set.check with
  | error flaw => simp [eq_comm]
  | ok =>
    cases options.expected.names.find? fun n => !set.validators.contains n with
    | none => simp
    | some name => simp [eq_comm]

end

/-! ## 2. Builds that touch nothing -/

section

open Work

variable {σ κ P : Type} [Program P] [Backend κ] {t : Toolchain σ P} {set : ValidatorSet}
  {options : BuildOptions} {cache : Option (Cache κ)} {s : σ} {e : BuildError}
  {members : List String}

/-- A build leaves the cache as it was, with its content and its position, and does not use the
toolchain: no program is compiled or loaded. -/
structure Idle (t : Toolchain σ P) (set : ValidatorSet) (options : BuildOptions)
    (cache : Option (Cache κ)) (s : σ) : Prop where
  cache_eq : (build t set options cache s).cache = cache
  state_eq : (build t set options cache s).state = s
  unused : (build t.watched set options cache (s, .none)).state.2 = .none

theorem build_of_refused (h : checkDeclared set options = .error e) :
    build t set options cache s = ⟨.error e, cache, s⟩ := by
  unfold build
  rw [h]

theorem idle_of_refused (h : checkDeclared set options = .error e) :
    Idle t set options cache s := by
  refine ⟨?_, ?_, ?_⟩ <;> rw [build_of_refused h]

/-- Where no order is found and the cache has nothing to serve, the build ends. -/
theorem build_of_disordered (hdeclared : checkDeclared set options = .ok ())
    (horder : compilationOrder set = .error e)
    (hmiss : ∀ c ∈ cache, (c.lookup (buildKey t set options)).1 = none) :
    build t set options cache s = ⟨.error e, cache, s⟩ := by
  have hcompile : (compileSet t set options).outcome s = (.error e, s) := by
    rw [compileSet, outcome_bind, horder]
    rfl
  cases cache with
  | none => rw [build_none hdeclared, hcompile]
  | some c =>
    rcases hlookup : c.lookup (buildKey t set options) with ⟨_ | record, c'⟩
    · obtain ⟨-, rfl⟩ := Cache.lookup_none hlookup
      rw [build, hdeclared]
      dsimp only
      rw [hlookup]
      dsimp only
      rw [hcompile]
    · have hnone := hmiss c rfl
      rw [hlookup] at hnone
      cases hnone

/-- A kind of complaint that takes in ill-formed schemas takes in what there is to complain about a
set, if it takes in what its order and its modules are refused for. -/
theorem ValidatorSet.allows_of_schemas {p : BuildError → Prop} {network : Network}
    (horder : ∀ e, compilationOrder set = .error e → p e)
    (hmodules : ∀ name v, set.validators.get? name = some v →
      ∀ e, set.importedModules name v = .error e → p e)
    (hschema : ∀ name cause, p (.invalidSchema name cause)) : set.Allows p network where
  order := horder
  modules := hmodules
  redeemer := by
    intro name v _ e he
    obtain ⟨-, cause, rfl⟩ := of_validatorCodec_error he
    exact hschema _ _
  datum := by
    intro name v _ e he
    obtain ⟨_, -, -, cause, rfl⟩ := of_optionalCodec_error he
    exact hschema _ _

/-- There is nothing else to complain about a record than purposes and schemas. -/
theorem BuildRecord.allows_of_schemas {p : BuildError → Prop} (record : BuildRecord)
    (hpurpose : ∀ name purpose, p (.unknownPurpose name purpose))
    (hschema : ∀ name cause, p (.invalidSchema name cause)) : record.Allows p where
  purpose := by
    intro name r _ e he
    obtain ⟨-, rfl⟩ := of_recordedPurpose_error he
    exact hpurpose _ _
  redeemer := by
    intro name r _ e he
    obtain ⟨-, cause, rfl⟩ := of_validatorCodec_error he
    exact hschema _ _
  datum := by
    intro name r _ e he
    obtain ⟨_, -, -, cause, rfl⟩ := of_optionalCodec_error he
    exact hschema _ _

/-- A complaint about a cycle. -/
def BuildError.IsCycle : BuildError → Prop
  | .dependencyCycle _ => True
  | _ => False

theorem BuildError.IsUnforeseen.not_isCycle (h : e.IsUnforeseen) : ¬ e.IsCycle := by
  cases e <;> first | exact id | cases h

/-- A cycle is complained about only where an order is sought, and that is after the cache was asked
in vain. -/
theorem order_of_cycle
    (h : (build t set options cache s).outcome = .error (.dependencyCycle members)) :
    checkDeclared set options = .ok () ∧
      compilationOrder set = .error (.dependencyCycle members) ∧
      ∀ c ∈ cache, (c.lookup (buildKey t set options)).1 = none := by
  have hdeclared : ∀ e, checkDeclared set options = .error e → ¬ e.IsCycle := by
    intro e he
    rcases checkDeclared_eq_error_iff.mp he with ⟨_, -, rfl⟩ | ⟨-, _, -, rfl⟩ <;> exact id
  have hmodules : ∀ name v, set.validators.get? name = some v →
      ∀ e, set.importedModules name v = .error e → ¬ e.IsCycle := by
    intro name v _ e he
    obtain ⟨_, -, -, rfl⟩ := of_importedModules_error he
    exact id
  have hrecord : ∀ record : BuildRecord, record.Allows fun e => ¬ e.IsCycle :=
    fun record => record.allows_of_schemas (fun _ _ => id) fun _ _ => id
  refine ⟨?_, ?_, ?_⟩
  · cases hcheck : checkDeclared set options with
    | ok => rfl
    | error e =>
      rw [build_of_refused hcheck] at h
      cases h
      exact absurd trivial (hdeclared _ hcheck)
  · -- Everything but the order of compilation complains about other things than cycles.
    refine of_build_error (p := fun e => e.IsCycle → compilationOrder set = .error e)
      (fun e he hcycle => absurd hcycle he.not_isCycle)
      (fun e he hcycle => absurd hcycle (hdeclared e he))
      (set.allows_of_schemas (fun e he _ => he) ?_ fun _ _ => False.elim) ?_ h trivial
    · exact fun name v hv e he hcycle => absurd hcycle (hmodules name v hv e he)
    · exact fun _ _ record _ _ => record.allows_of_schemas (fun _ _ => False.elim) fun _ _ =>
        False.elim
  · rintro c ⟨⟩
    have hrun := cachedBuild t set options c s
    generalize build t set options (some c) s = run at h hrun
    cases hrun with
    | refused hcheck =>
      cases h
      exact absurd trivial (hdeclared _ hcheck)
    | hit _ _ hrestore =>
      obtain rfl := h
      exact absurd trivial (failsOnly_restoreSet (fun _ he => he.not_isCycle) (hrecord _) _ _ _
        hrestore)
    | failed _ hlookup _ => rw [hlookup]
    | compiled _ hlookup _ _ => rw [hlookup]

theorem idle_of_cycle
    (h : (build t set options cache s).outcome = .error (.dependencyCycle members)) :
    Idle t set options cache s := by
  obtain ⟨hdeclared, horder, hmiss⟩ := order_of_cycle h
  -- The watched toolchain has the same version, and so the cache is asked for the same key.
  have hwatched : ∀ c ∈ cache, (c.lookup (buildKey t.watched set options)).1 = none := hmiss
  exact ⟨by rw [build_of_disordered hdeclared horder hmiss],
    by rw [build_of_disordered hdeclared horder hmiss],
    by rw [build_of_disordered hdeclared horder hwatched]⟩

/-! ## 3. Sets without a defect -/

/-- A complaint about the declarations or about a name that is expected in vain. -/
def BuildError.IsDeclared : BuildError → Prop
  | .declaration _ | .unknownValidator _ => True
  | _ => False

theorem BuildError.IsUnforeseen.not_isDeclared (h : e.IsUnforeseen) : ¬ e.IsDeclared := by
  cases e <;> first | exact id | cases h

/-- The modules that a validator without a defect imports are found. -/
theorem ValidatorSet.Sound.importedModules {v : Validator} (h : set.Sound v) (name : String) :
    ∃ modules, set.importedModules name v = .ok modules := by
  cases hmodules : set.importedModules name v with
  | ok modules => exact ⟨modules, rfl⟩
  | error e =>
    obtain ⟨m, hm, hnone, -⟩ := of_importedModules_error hmodules
    exact absurd (h.modules m hm) (NameMap.get?_eq_none_iff.mp hnone)

theorem not_isDeclared_of_build (hset : set.check = .ok ())
    (hexpected : ∀ n ∈ options.expected.names, n ∈ set.validators.names)
    (h : (build t set options cache s).outcome = .error e) : ¬ e.IsDeclared := by
  have horder : ∀ e, compilationOrder set = .error e → ¬ e.IsDeclared := by
    intro e he
    rcases of_compilationOrder_error he with ⟨_, _, hstray, -⟩ | ⟨_, rfl⟩
    · rw [ValidatorSet.strayDependency?_of_check hset] at hstray
      cases hstray
    · exact id
  have hmodules : ∀ name v, set.validators.get? name = some v →
      ∀ e, set.importedModules name v = .error e → ¬ e.IsDeclared := by
    intro name v hv e he
    have hsound := ValidatorSet.check_eq_ok_iff_sound.mp hset name v hv
    obtain ⟨modules, hmodules⟩ := hsound.importedModules name
    cases he.symm.trans hmodules
  refine of_build_error (fun _ he => he.not_isDeclared) (fun e he => ?_)
    (set.allows_of_schemas horder hmodules fun _ _ => id)
    (fun _ _ record _ _ => record.allows_of_schemas (fun _ _ => id) fun _ _ => id) h
  cases he.symm.trans (checkDeclared_iff.mpr ⟨hset, hexpected⟩)

/-- **Declarations come first.**  A build of a set with a defect is refused for the first one, and
one of a set without a defect for the least name that is expected in vain.  Then neither the cache
nor the toolchain has been touched, nor if validators depend on themselves by way of others.  If
there is nothing of either kind, the tests that come later find nothing, and no build is refused for
its declarations or for a name, whatever the cache serves. -/
theorem declared_exact (t : Toolchain σ P) (set : ValidatorSet) (options : BuildOptions)
    (cache : Option (Cache κ)) (s : σ) :
    ((∃ name v, set.validators.get? name = some v ∧ ¬ set.Sound v) →
      ∃ flaw, set.Blames flaw ∧
        (build t set options cache s).outcome = .error (.declaration flaw) ∧
        Idle t set options cache s) ∧
    ((∀ name v, set.validators.get? name = some v → set.Sound v) →
      (∃ n ∈ options.expected.names, n ∉ set.validators.names) →
      ∃ name, options.Stray set name ∧
        (build t set options cache s).outcome = .error (.unknownValidator name) ∧
        Idle t set options cache s) ∧
    (∀ members, (build t set options cache s).outcome = .error (.dependencyCycle members) →
      Idle t set options cache s) ∧
    ((∀ name v, set.validators.get? name = some v → set.Sound v) →
      (∀ n ∈ options.expected.names, n ∈ set.validators.names) →
      (∀ name v, set.validators.get? name = some v →
        ∃ modules, set.importedModules name v = .ok modules) ∧
      set.strayDependency? = none ∧
      (∀ flaw, (build t set options cache s).outcome ≠ .error (.declaration flaw)) ∧
      ∀ name, (build t set options cache s).outcome ≠ .error (.unknownValidator name)) := by
  simp only [← ValidatorSet.check_eq_ok_iff_sound]
  refine ⟨?_, ?_, fun members => idle_of_cycle, ?_⟩
  · rintro ⟨name, v, hv, hunsound⟩
    cases hcheck : set.check with
    | ok => exact absurd (ValidatorSet.check_eq_ok_iff_sound.mp hcheck name v hv) hunsound
    | error flaw =>
      have hblames := ValidatorSet.check_eq_error_iff.mp hcheck
      have hrefused : checkDeclared set options = .error (.declaration flaw) :=
        checkDeclared_eq_error_iff.mpr (.inl ⟨flaw, hblames, rfl⟩)
      exact ⟨flaw, hblames, by rw [build_of_refused hrefused], idle_of_refused hrefused⟩
  · rintro hset ⟨n, hn, hunknown⟩
    cases hcheck : checkDeclared set options with
    | ok => exact absurd ((checkDeclared_iff.mp hcheck).2 n hn) hunknown
    | error e =>
      rcases checkDeclared_eq_error_iff.mp hcheck with
        ⟨flaw, hblames, -⟩ | ⟨-, name, hstray, rfl⟩
      · cases hset.symm.trans (ValidatorSet.check_eq_error_iff.mpr hblames)
      · exact ⟨name, hstray, by rw [build_of_refused hcheck], idle_of_refused hcheck⟩
  · intro hset hexpected
    have hnot : ∀ e, (build t set options cache s).outcome = .error e → ¬ e.IsDeclared :=
      fun _ => not_isDeclared_of_build hset hexpected
    refine ⟨fun name v hv => ?_, ValidatorSet.strayDependency?_of_check hset,
      fun flaw h => hnot _ h trivial, fun name h => hnot _ h trivial⟩
    exact (ValidatorSet.check_eq_ok_iff_sound.mp hset name v hv).importedModules name

end

namespace Example

/-- Two validators with several defects each, after one that is as it should be. -/
def bazaar : ValidatorSet where
  validators :=
    ⟨[("auction", minting []),
      ("stall",
        ⟨.minting, "", ["prices", "lost", "gone"], ["nobody"], false, .primitive .int, none⟩),
      ("vault", ⟨.spending, "", ["gone"], [], false, .primitive .int, none⟩)], by decide⟩
  modules := .ofList [("prices", "")]

/-- The complaint is the first module that the first of them imports in vain, and the cache still
has its record to replay. -/
theorem declared_exact_bazaar :
    (∃ name v, bazaar.validators.get? name = some v ∧ ¬ bazaar.Sound v) ∧
      (build compiler bazaar plain (some replaying) ()).outcome =
        .error (.declaration (.unknownModule "stall" "lost")) ∧
      Idle compiler bazaar plain (some replaying) () := by
  have hunsound : ∃ name v, bazaar.validators.get? name = some v ∧ ¬ bazaar.Sound v :=
    ⟨"vault", _, rfl, fun h => h.datum rfl rfl⟩
  obtain ⟨flaw, hblames, hrefused, hidle⟩ :=
    (declared_exact compiler bazaar plain (some replaying) ()).1 hunsound
  have hcheck : bazaar.check = .error (.unknownModule "stall" "lost") := rfl
  cases hcheck.symm.trans (ValidatorSet.check_eq_error_iff.mpr hblames)
  exact ⟨hunsound, hrefused, hidle⟩

end Example

end ScriptBundle

/-
# Which complaints a build can fail with

Work `FailsOnly` with complaints of a certain kind if whatever it can fail with is of that kind, and
a chain of steps does if every step does.

Most complaints are about what the toolchain or a cache makes of things, and can come up wherever
these are used (`BuildError.IsUnforeseen`).  Each other complaint comes from one step: from finding
an order, from looking up modules, from checking a schema or a purpose.  So a kind that takes in all
unforeseen complaints takes in every complaint of a build as soon as it takes in what those few
steps have to complain about: the set's (`ValidatorSet.Allows`) and the record's
(`BuildRecord.Allows`).  The passes are gone through once here, for every kind (`of_build_error`).
-/
import ScriptBundle.Proofs.Build.Consistent
import ScriptBundle.Proofs.Build.Failure

namespace ScriptBundle

variable {σ α β P : Type} {p : BuildError → Prop} {e : BuildError} {name : String}

/-! ## 1. Work that fails in certain ways only -/

namespace Work

variable {w : Work σ α}

/-- Whatever the work fails with is of a certain kind. -/
def FailsOnly (p : BuildError → Prop) (w : Work σ α) : Prop :=
  ∀ s e s', w.outcome s = (.error e, s') → p e

theorem failsOnly_pure (a : α) : FailsOnly p (pure a : Work σ α) := by
  intro s e s' h
  cases h

theorem failsOnly_throw (h : p e) : FailsOnly p (throw e : Work σ α) := by
  intro s e s' hfails
  cases hfails
  exact h

theorem failsOnly_ofResult {r : Except BuildError α} (h : ∀ e, r = .error e → p e) :
    FailsOnly p (ofResult r : Work σ α) := by
  intro s e s' hfails
  cases r with
  | ok a => cases hfails
  | error e' =>
    cases hfails
    exact h e rfl

theorem failsOnly_ofTool {wrap : String → BuildError} {step : σ → Except String α × σ}
    (h : ∀ complaint, p (wrap complaint)) : FailsOnly p (ofTool wrap step) := by
  intro s e s' hfails
  unfold outcome ofTool at hfails
  rcases hstep : step s with ⟨complaint | a, next⟩ <;> rw [hstep] at hfails <;> cases hfails
  exact h complaint

/-- The rest of a chain has to be so only on what the first step gives. -/
theorem FailsOnly.bind {f : α → Work σ β} (hw : FailsOnly p w)
    (hf : ∀ a s s', Runs w s a s' → FailsOnly p (f a)) : FailsOnly p (w >>= f) := by
  intro s e s' hfails
  rw [outcome_bind] at hfails
  rcases hfirst : w.outcome s with ⟨e' | a, next⟩
  · rw [hfirst] at hfails
    cases hfails
    exact hw s e s' hfirst
  · rw [hfirst] at hfails
    exact hf a s next hfirst next e s' hfails

theorem failsOnly_eachEntry {f : String → α → Work σ β} {entries : List (String × α)}
    (h : ∀ e ∈ entries, FailsOnly p (f e.1 e.2)) : FailsOnly p (eachEntry f entries) := by
  induction entries with
  | nil => exact failsOnly_pure _
  | cons e rest ih =>
    refine (h e List.mem_cons_self).bind fun b _ _ _ => ?_
    exact (ih fun e' he' => h e' (List.mem_cons_of_mem _ he')).bind fun _ _ _ _ =>
      failsOnly_pure _

theorem failsOnly_onEach {f : String → α → Work σ β} {m : NameMap α}
    (h : ∀ n a, m.get? n = some a → FailsOnly p (f n a)) : FailsOnly p (onEach f m) := by
  refine (failsOnly_eachEntry fun e he => ?_).bind fun _ _ _ _ => failsOnly_pure _
  exact h e.1 e.2 (NameMap.get?_eq_some_iff.mpr he)

end Work

open Work

/-! ## 2. Where complaints come from -/

/-- A complaint about what nobody can tell before a toolchain or a cache is used. -/
def BuildError.IsUnforeseen : BuildError → Prop
  | .hashMismatch _ _ _ | .frontend _ _ | .programLoad _ _ | .corruptRecord _ | .store _ => True
  | _ => False

section

variable {options : BuildOptions} {set : ValidatorSet}

theorem of_compilationOrder_error (h : compilationOrder set = .error e) :
    (∃ name dep, set.strayDependency? = some (name, dep) ∧
      e = .declaration (.unknownDependency name dep)) ∨
    ∃ members, e = .dependencyCycle members := by
  unfold compilationOrder at h
  split at h
  · rename_i name dep hstray
    cases h
    exact .inl ⟨name, dep, hstray, rfl⟩
  · split at h <;> cases h
    exact .inr ⟨_, rfl⟩

theorem of_importedModules_error {v : Validator} (h : set.importedModules name v = .error e) :
    ∃ m ∈ v.modules, set.modules.get? m = none ∧ e = .declaration (.unknownModule name m) := by
  obtain ⟨m, hm, hfails⟩ := exists_of_mapM_error h
  split at hfails
  · cases hfails
  · rename_i hnone
    cases hfails
    exact ⟨m, hm, hnone, rfl⟩

theorem of_validatorCodec_error {schema : Schema} {network : Network}
    (h : validatorCodec name schema network = .error e) :
    schema.check ≠ .ok () ∧ ∃ cause, e = .invalidSchema name cause := by
  refine ⟨fun hcheck => ?_, ?_⟩
  · cases (validatorCodec_schema name ⟨schema, network, hcheck⟩).symm.trans h
  · unfold validatorCodec at h
    split at h <;> cases h
    exact ⟨_, rfl⟩

theorem of_optionalCodec_error {schema : Option Schema} {network : Network}
    (h : optionalCodec name schema network = .error e) :
    ∃ s ∈ schema, s.check ≠ .ok () ∧ ∃ cause, e = .invalidSchema name cause := by
  cases schema with
  | none => cases h
  | some s =>
    unfold optionalCodec at h
    dsimp only at h
    cases hcodec : validatorCodec name s network with
    | ok c =>
      rw [hcodec] at h
      cases h
    | error e' =>
      rw [hcodec] at h
      cases h
      exact ⟨s, rfl, of_validatorCodec_error hcodec⟩

theorem of_recordedPurpose_error {r : ValidatorRecord} (h : recordedPurpose name r = .error e) :
    (¬ ∃ purpose, Purpose.parse r.purpose = .ok purpose) ∧ e = .unknownPurpose name r.purpose := by
  unfold recordedPurpose at h
  split at h
  · cases h
  · rename_i hparse
    cases h
    refine ⟨?_, rfl⟩
    rintro ⟨purpose, hpurpose⟩
    cases hparse.symm.trans hpurpose

theorem isUnforeseen_of_checkExpected {hash : Bytes}
    (h : options.checkExpected name hash = .error e) : e.IsUnforeseen := by
  unfold BuildOptions.checkExpected at h
  split at h
  · split at h <;> cases h
    trivial
  · cases h

theorem isUnforeseen_of_recordedBytes {part text : String}
    (h : recordedBytes name part text = .error e) : e.IsUnforeseen := by
  unfold recordedBytes at h
  split at h <;> cases h
  trivial

theorem isUnforeseen_of_storeBundle {κ : Type} [Backend κ] [Program P] {t : Toolchain σ P}
    {c c' : Cache κ} {b : Bundle P} (h : storeBundle t options c b = (.error e, c')) :
    e.IsUnforeseen := by
  unfold storeBundle at h
  split at h <;> cases h
  trivial

end

/-! ## 3. Compiling -/

/-- What there is to complain about the declarations of a set is of a certain kind. -/
structure ValidatorSet.Allows (p : BuildError → Prop) (set : ValidatorSet) (network : Network) :
    Prop where
  order : ∀ e, compilationOrder set = .error e → p e
  modules : ∀ name v, set.validators.get? name = some v →
    ∀ e, set.importedModules name v = .error e → p e
  redeemer : ∀ name v, set.validators.get? name = some v →
    ∀ e, validatorCodec name v.redeemer network = .error e → p e
  datum : ∀ name v, set.validators.get? name = some v →
    ∀ e, optionalCodec name v.datum network = .error e → p e

section

variable {t : Toolchain σ P} {set : ValidatorSet} {options : BuildOptions}

theorem failsOnly_compileRequest (hp : ∀ e, e.IsUnforeseen → p e) {request : Request} :
    FailsOnly p (compileRequest t request) :=
  failsOnly_ofTool fun _ => hp _ trivial

theorem failsOnly_assemble (hp : ∀ e, e.IsUnforeseen → p e) (hset : set.Allows p options.network)
    {hashes : NameMap Bytes} {excluded : List String} {r : Resolved P}
    (hv : set.validators.get? name = some r.validator) :
    FailsOnly p (assemble t options set hashes excluded name r) := by
  refine (failsOnly_ofResult (hset.modules name _ hv)).bind fun modules _ _ _ => ?_
  refine (failsOnly_compileRequest hp).bind fun _ _ _ _ => ?_
  refine (failsOnly_ofResult (hset.redeemer name _ hv)).bind fun _ _ _ _ => ?_
  exact (failsOnly_ofResult (hset.datum name _ hv)).bind fun _ _ _ _ => failsOnly_pure _

theorem failsOnly_assembleFrom (hp : ∀ e, e.IsUnforeseen → p e)
    (hset : set.Allows p options.network) {hashes : NameMap Bytes}
    {gathered : NameMap (Emission P)} {entries : List (String × Resolved P)}
    (h : ∀ e ∈ entries, set.validators.get? e.1 = some e.2.validator) :
    FailsOnly p (assembleFrom t options set hashes gathered entries) := by
  induction entries generalizing gathered with
  | nil => exact failsOnly_pure _
  | cons e rest ih =>
    refine (failsOnly_assemble hp hset (h e List.mem_cons_self)).bind fun _ _ _ _ => ?_
    refine (ih fun e' he' => h e' (List.mem_cons_of_mem _ he')).bind fun _ _ _ _ => ?_
    exact failsOnly_pure _

variable [Program P]

theorem failsOnly_resolve (hp : ∀ e, e.IsUnforeseen → p e) (hset : set.Allows p options.network)
    {resolved : NameMap (Resolved P)} {v : Validator} (hv : set.validators.get? name = some v) :
    FailsOnly p (resolve t options set resolved name v) := by
  refine (failsOnly_ofResult (hset.modules name v hv)).bind fun modules _ _ _ => ?_
  refine (failsOnly_compileRequest hp).bind fun _ _ _ _ => ?_
  refine (failsOnly_ofResult fun e he => ?_).bind fun _ _ _ _ => failsOnly_pure _
  exact hp e (isUnforeseen_of_checkExpected he)

theorem failsOnly_resolveFrom (hp : ∀ e, e.IsUnforeseen → p e)
    (hset : set.Allows p options.network) {resolved : NameMap (Resolved P)} {order : List String} :
    FailsOnly p (resolveFrom t options set resolved order) := by
  induction order generalizing resolved with
  | nil => exact failsOnly_pure _
  | cons name rest ih =>
    unfold resolveFrom
    split
    · rename_i v hv
      exact (failsOnly_resolve hp hset hv).bind fun _ _ _ _ => ih
    · exact ih

/-- Compiling a set complains about nothing else.  What is assembled in the second pass are the
validators of the set, whose modules and schemas are looked at again then. -/
theorem failsOnly_compileSet (hp : ∀ e, e.IsUnforeseen → p e)
    (hset : set.Allows p options.network) : FailsOnly p (compileSet t set options) := by
  refine (failsOnly_ofResult hset.order).bind fun order _ _ _ => ?_
  refine (failsOnly_resolveFrom hp hset).bind fun resolved _ _ hresolved => ?_
  refine (failsOnly_assembleFrom hp hset fun e he => ?_).bind fun _ _ _ _ => failsOnly_pure _
  exact validator_of_runs_resolveFrom hresolved (fun _ _ h => by cases h) e.1 e.2
    (NameMap.get?_eq_some_iff.mpr he)

end

/-! ## 4. Restoring -/

/-- What there is to complain about the purposes and schemas of a record is of a certain kind. -/
structure BuildRecord.Allows (p : BuildError → Prop) (record : BuildRecord) : Prop where
  purpose : ∀ name r, record.validators.get? name = some r →
    ∀ e, recordedPurpose name r = .error e → p e
  redeemer : ∀ name r, record.validators.get? name = some r →
    ∀ e, validatorCodec name r.redeemer r.network = .error e → p e
  datum : ∀ name r, record.validators.get? name = some r →
    ∀ e, optionalCodec name r.datum r.network = .error e → p e

section

variable {t : Toolchain σ P} {set : ValidatorSet} {options : BuildOptions} {record : BuildRecord}

theorem failsOnly_loadProgram (hp : ∀ e, e.IsUnforeseen → p e) {version text : String} :
    FailsOnly p (loadProgram t name version text) := by
  refine (failsOnly_ofResult fun e he => ?_).bind fun _ _ _ _ =>
    failsOnly_ofTool fun _ => hp _ trivial
  exact hp e (isUnforeseen_of_recordedBytes he)

theorem failsOnly_loadPrograms (hp : ∀ e, e.IsUnforeseen → p e) {code : CodeRecord} :
    FailsOnly p (loadPrograms t name code) := by
  refine (failsOnly_loadProgram hp).bind fun optimized _ _ _ => ?_
  split
  · exact failsOnly_pure _
  · exact (failsOnly_loadProgram hp).bind fun _ _ _ _ => failsOnly_pure _

variable [Program P]

theorem failsOnly_ofRecord (hp : ∀ e, e.IsUnforeseen → p e) (hrecord : record.Allows p)
    {r : ValidatorRecord} (hr : record.validators.get? name = some r) :
    FailsOnly p (CompiledValidator.ofRecord t name r) := by
  have hbytes {part text : String} :
      ∀ e, recordedBytes name part text = .error e → p e :=
    fun e he => hp e (isUnforeseen_of_recordedBytes he)
  have hother : p (.corruptRecord (.otherHash name)) := hp _ trivial
  have hdependencies : FailsOnly p (ofResult
      (r.dependencies.traverse fun d text => recordedBytes name d text) : Work σ _) := by
    refine failsOnly_ofResult fun e he => ?_
    obtain ⟨d, text, -, hfails⟩ := NameMap.of_traverse_error he
    exact hbytes e hfails
  refine (failsOnly_ofResult (hrecord.purpose name r hr)).bind fun purpose _ _ _ => ?_
  refine (failsOnly_ofResult hbytes).bind fun hash _ _ _ => ?_
  refine (failsOnly_loadPrograms hp).bind fun programs _ _ _ => ?_
  split
  · exact (failsOnly_throw hother).bind fun _ _ _ hruns => by cases hruns
  refine hdependencies.bind fun _ _ _ _ => ?_
  refine (failsOnly_ofResult (hrecord.redeemer name r hr)).bind fun _ _ _ _ => ?_
  exact (failsOnly_ofResult (hrecord.datum name r hr)).bind fun _ _ _ _ => failsOnly_pure _

/-- Restoring from a record complains about nothing else, whoever has made the record. -/
theorem failsOnly_restoreSet (hp : ∀ e, e.IsUnforeseen → p e) (hrecord : record.Allows p) :
    FailsOnly p (restoreSet t set options record) := by
  have hhashes {b : Bundle P} : FailsOnly p (ofResult (checkHashes options b) : Work σ _) := by
    refine failsOnly_ofResult fun e he => ?_
    obtain ⟨v, -, hv⟩ := exists_of_forM_error he
    exact hp e (isUnforeseen_of_checkExpected hv)
  have hfuncs {n : String} {f : UserFuncRecord} :
      FailsOnly p (UserFunc.ofRecord t options set.indices n f) :=
    (failsOnly_loadPrograms hp).bind fun _ _ _ _ => failsOnly_pure _
  have hbundle :
      FailsOnly p (Bundle.ofRecord t options set.indices (buildKey t set options) record) :=
    (failsOnly_onEach fun n r hr => failsOnly_ofRecord hp hrecord hr).bind fun _ _ _ _ =>
      (failsOnly_onEach fun _ _ _ => hfuncs).bind fun _ _ _ _ => failsOnly_pure _
  exact hbundle.bind fun _ _ _ _ => hhashes.bind fun _ _ _ _ => failsOnly_pure _

end

/-! ## 5. Whole builds -/

/-- **What a build complains about.**  Whatever a build fails with is of a certain kind if the
unforeseen complaints are, and what there is to complain about the declarations and about the
record that the build is served. -/
theorem of_build_error {κ : Type} [Backend κ] [Program P] {t : Toolchain σ P} {set : ValidatorSet}
    {options : BuildOptions} {cache : Option (Cache κ)} {s : σ}
    (hp : ∀ e, e.IsUnforeseen → p e)
    (hdeclared : ∀ e, checkDeclared set options = .error e → p e)
    (hset : set.Allows p options.network)
    (hcache : ∀ c ∈ cache, ∀ record c', c.lookup (buildKey t set options) = (some record, c') →
      record.Allows p)
    (h : (build t set options cache s).outcome = .error e) : p e := by
  cases cache with
  | none =>
    cases hcheck : checkDeclared set options with
    | error e' =>
      rw [build, hcheck] at h
      cases h
      exact hdeclared _ hcheck
    | ok =>
      rw [build_none hcheck] at h
      exact failsOnly_compileSet hp hset s e _ (Prod.ext h rfl)
  | some c =>
    have hrun := cachedBuild t set options c s
    generalize build t set options (some c) s = run at h hrun
    cases hrun with
    | refused hcheck =>
      cases h
      exact hdeclared _ hcheck
    | hit _ hlookup hrestore =>
      obtain rfl := h
      exact failsOnly_restoreSet hp (hcache c rfl _ _ hlookup) _ _ _ hrestore
    | failed _ _ hcompile =>
      cases h
      exact failsOnly_compileSet hp hset _ _ _ hcompile
    | compiled _ _ _ hstore =>
      obtain rfl := h
      exact hp _ (isUnforeseen_of_storeBundle hstore)

end ScriptBundle

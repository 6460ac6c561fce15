/-
# Where the schemas of a bundle come from

A validator's schemas are checked whenever a bundle is made of it, by compiling or by restoring, and
a codec is the proof of it.  The signature of a function is taken as it comes: from the toolchain
that has emitted the function, or from the record that the cache has served (`schemas_of_build`).
Nobody looks at its schemas, so a bundle has an ill-formed one only if the toolchain or the record
had.

Toolchains that emit well-formed signatures only fill caches with such signatures only
(`Cache.FilledBy.allOffered_wellFormed`).  With those every bundle is well formed, after any number
of builds.
-/
import ScriptBundle.Build.LineScript
import ScriptBundle.Proofs.Build.Expected
import ScriptBundle.Proofs.Build.Harvest

namespace ScriptBundle

open Work

/-! ## 1. Well-formed signatures -/

/-- Every schema of a signature is well formed. -/
structure Signature.WellFormed (g : Signature) : Prop where
  arguments : ∀ a ∈ g.arguments, a.schema.check = .ok ()
  returns : ∀ schema ∈ g.returns, schema.check = .ok ()

instance (g : Signature) : Decidable g.WellFormed :=
  decidable_of_iff ((∀ a ∈ g.arguments, a.schema.check = .ok ()) ∧
      ∀ schema ∈ g.returns, schema.check = .ok ())
    ⟨fun h => ⟨h.1, h.2⟩, fun h => ⟨h.1, h.2⟩⟩

/-- A toolchain all of whose functions have well-formed signatures. -/
def Toolchain.EmitsWellFormed {σ P : Type} (t : Toolchain σ P) : Prop :=
  ∀ request s, ∀ e ∈ (t.compile request s).1.emitted, e.signature.WellFormed

/-- A record all of whose functions have well-formed signatures. -/
def BuildRecord.FuncsWellFormed (r : BuildRecord) : Prop :=
  ∀ name f, r.userFuncs.get? name = some f → f.signature.WellFormed

/-- Every schema of a bundle is well formed. -/
structure Bundle.WellFormed {P : Type} (b : Bundle P) : Prop where
  redeemer : ∀ v ∈ b.validators.values, v.redeemer.schema.check = .ok ()
  datum : ∀ v ∈ b.validators.values, ∀ c ∈ v.datum, c.schema.check = .ok ()
  signature : ∀ name f, b.userFuncs.get? name = some f → f.signature.WellFormed

namespace LineScript

variable {c : Settings}

theorem mem_emitted_of_step {r : Request} {p p' : Progress} {line : Line} {e : Emission Code}
    (h : Progress.step c r p line = .ok p') (he : e ∈ p'.emitted) :
    e ∈ p.emitted ∨ ∃ name, e = c.emission r.name name := by
  cases line with
  | blank | sourceMap | text =>
    cases h
    exact .inl he
  | embed name =>
    obtain ⟨hash, -, h⟩ := bind_eq_ok_iff.mp h
    cases h
    exact .inl he
  | emit name =>
    rw [Progress.step] at h
    split at h <;> cases h
    · exact (List.mem_append.mp he).imp_right fun hnew => ⟨name, List.mem_singleton.mp hnew⟩
    · exact .inl he
  | force name =>
    cases h
    exact (List.mem_append.mp he).imp_right fun hnew => ⟨name, List.mem_singleton.mp hnew⟩
  | failure => cases h
  | rawFailure =>
    rw [Progress.step] at h
    split at h <;> cases h
    exact .inl he

theorem mem_emitted_of_run {r : Request} {p : Progress} {lines : List Line} {e : Emission Code}
    (he : e ∈ (Progress.run c r p lines).1.emitted) :
    e ∈ p.emitted ∨ ∃ name, e = c.emission r.name name := by
  induction lines generalizing p with
  | nil => exact .inl he
  | cons line rest ih =>
    rw [Progress.run] at he
    split at he
    · rename_i p' hstep
      rcases ih he with hbefore | hnew
      · exact mem_emitted_of_step hstep hbefore
      · exact .inr hnew
    · exact .inl he

/-- A compiler of scripts emits well-formed signatures if those it is told of are. -/
theorem Settings.emitsWellFormed
    (h : ∀ name f, c.funcs.get? name = some f → f.signature.WellFormed) :
    c.toolchain.EmitsWellFormed := by
  have hemission : ∀ validator name, (c.emission validator name).signature.WellFormed := by
    intro validator name
    change ((c.funcs.get? name).getD (.ofName name)).signature.WellFormed
    cases hf : c.funcs.get? name with
    | some f => exact h name f hf
    | none => exact ⟨by simp [Func.ofName, Schema.check], by simp [Func.ofName, Schema.check]⟩
  intro request s e he
  have hrun : e ∈ (Progress.run c request (.start request)
      (Line.ofSource request.source.toList)).1.emitted := by
    change e ∈ (c.compile request).emitted at he
    unfold Settings.compile at he
    split at he <;> rename_i hrun <;> rwa [hrun]
  rcases mem_emitted_of_run hrun with hstart | ⟨name, rfl⟩
  · cases hstart
  · exact hemission _ _

end LineScript

/-! ## 2. Where signatures come from -/

section

variable {σ P : Type} {t : Toolchain σ P} {set : ValidatorSet} {options : BuildOptions}
  {s s' : σ} {name : String}

/-- The toolchain has emitted a function of the name with the signature. -/
def UserFunc.EmittedBy (t : Toolchain σ P) (name : String) (f : UserFunc P) : Prop :=
  ∃ request s, ∃ e ∈ (t.compile request s).1.emitted,
    request.optimize = false ∧ e.name = name ∧ f.signature = e.signature

/-- The record has a function of the name with the signature. -/
def UserFunc.RecordedIn (record : BuildRecord) (name : String) (f : UserFunc P) : Prop :=
  ∃ r, record.userFuncs.get? name = some r ∧ f.signature = r.signature

theorem emitted_of_runs_compileRequest {request : Request} {x : Output P × List (Emission P)}
    (h : Runs (compileRequest t request) s x s') : x.2 = (t.compile request s).1.emitted := by
  have hstep := runs_ofTool_iff.mp h
  rcases hcompile : t.compile request s with ⟨⟨emitted, outcome⟩, state⟩
  simp only [hcompile, Prod.mk.injEq] at hstep
  obtain ⟨houtcome, -⟩ := hstep
  cases outcome <;> cases houtcome
  rfl

/-- Whatever is gathered in the second pass was gathered before or is emitted in it. -/
theorem emitted_of_runs_assembleFrom {hashes : NameMap Bytes} {gathered : NameMap (Emission P)}
    {entries : List (String × Resolved P)} {x : Assembly P entries}
    (h : Runs (assembleFrom t options set hashes gathered entries) s x s') {e : Emission P}
    (he : x.2.get? name = some e) :
    gathered.get? name = some e ∨ ∃ request s, e ∈ (t.compile request s).1.emitted ∧
      request.optimize = false ∧ e.name = name := by
  induction entries generalizing gathered s with
  | nil =>
    obtain ⟨rfl, -⟩ := runs_pure_iff.mp h
    exact .inl he
  | cons entry rest ih =>
    obtain ⟨v, emitted, s₁, y, hassemble, hrest, -, heq⟩ := runs_assembleFrom_cons_iff.mp h
    rcases ih hrest (heq ▸ he) with hgathered | hlater
    · rw [get?_gather] at hgathered
      rcases Option.or_eq_some_iff.mp hgathered with hbefore | ⟨-, hnew⟩
      · exact .inl hbefore
      · obtain ⟨modules, output, _, _, -, hcompile, -⟩ := runs_assemble_iff.mp hassemble
        obtain rfl : emitted = _ := emitted_of_runs_compileRequest hcompile
        have hmem := List.mem_of_find?_eq_some hnew
        have hname : e.name = name := by simpa using List.find?_some hnew
        exact .inr ⟨_, s, hmem, rfl, hname⟩
    · exact .inr hlater

variable [Program P] {b : Bundle P}

/-- **Compiled functions** have the signatures that were emitted. -/
theorem emittedBy_of_runs_compileSet (h : Runs (compileSet t set options) s b s')
    {f : UserFunc P} (hf : b.userFuncs.get? name = some f) : f.EmittedBy t name := by
  obtain ⟨order, -, halong⟩ := runs_compileSet_iff.mp h
  obtain ⟨resolved, _, x, -, hx, rfl⟩ := runs_compileAlong_iff.mp halong
  change (x.2.map (options.userFunc set.indices)).get? name = some f at hf
  rw [NameMap.get?_map] at hf
  obtain ⟨e, he, rfl⟩ := Option.map_eq_some_iff.mp hf
  rcases emitted_of_runs_assembleFrom hx he with hbefore | ⟨request, s, hmem, hsecond, hname⟩
  · cases hbefore
  · exact ⟨request, s, e, hmem, hsecond, hname, rfl⟩

/-- **Restored functions** have the signatures that were recorded. -/
theorem recordedIn_of_runs_restoreSet {record : BuildRecord}
    (h : Runs (restoreSet t set options record) s b s') {f : UserFunc P}
    (hf : b.userFuncs.get? name = some f) : f.RecordedIn record name := by
  simp only [restoreSet, Bundle.ofRecord, runs_bind_iff, runs_ofResult_iff, runs_pure_iff] at h
  obtain ⟨_, _, ⟨validators, _, -, userFuncs, _, huserFuncs, rfl, -⟩, _, _, -, rfl, -⟩ := h
  obtain ⟨r, _, _, hr, hruns⟩ := (of_runs_onEach huserFuncs).2 (name, f)
    (NameMap.get?_eq_some_iff.mp hf)
  simp only [UserFunc.ofRecord, runs_bind_iff, runs_pure_iff] at hruns
  obtain ⟨programs, _, -, rfl, -⟩ := hruns
  exact ⟨r, NameMap.get?_eq_some_iff.mpr hr, rfl⟩

omit [Program P] in
/-- The codec of a schema is the proof that the schema is well formed. -/
theorem check_of_mem_validators (b : Bundle P) : ∀ v ∈ b.validators.values,
    v.redeemer.schema.check = .ok () ∧ ∀ c ∈ v.datum, c.schema.check = .ok () :=
  fun v _ => ⟨v.redeemer.check_schema, fun c _ => c.check_schema⟩

theorem funcsWellFormed_record (hb : ∀ name f, b.userFuncs.get? name = some f →
    f.signature.WellFormed) (debug : Bool) (version : String) :
    (b.record debug version).FuncsWellFormed := by
  intro name r hr
  change (b.userFuncs.map fun _ f => f.record version).get? name = some r at hr
  rw [NameMap.get?_map] at hr
  obtain ⟨f, hf, rfl⟩ := Option.map_eq_some_iff.mp hr
  rw [signature_record]
  exact hb name f hf

end

/-! ## 3. Any number of builds -/

section

variable {κ : Type} [Backend κ]

/-- A cache that was filled with toolchains that emit well-formed signatures has such signatures to
serve only. -/
theorem Cache.FilledBy.allOffered_wellFormed {c : Cache κ}
    (h : c.FilledBy fun _ _ t _ _ => t.EmitsWellFormed) :
    c.AllOffered fun _ record => record.FuncsWellFormed := by
  refine h.allOffered fun {_ _ _ _ _ options} ht s b s' _ hruns => ?_
  refine funcsWellFormed_record (fun name f hf => ?_) options.debug _
  obtain ⟨request, s₁, e, he, -, -, heq⟩ := emittedBy_of_runs_compileSet hruns hf
  exact heq ▸ ht request s₁ e he

variable {σ P : Type} [Program P] {t : Toolchain σ P} {set : ValidatorSet}
  {options : BuildOptions} {s : σ} {b : Bundle P}

/-- **Schemas.**  Of a bundle that a build returns, whatever the toolchain and the cache:

* the schemas of validators are well formed;
* a function that was compiled has the signature that the toolchain has emitted it with, well
  formed or not;
* one that was restored has the signature in the record that the cache has served, well formed or
  not;
* so all of the bundle is well formed if the cache has been filled with toolchains that emit
  well-formed signatures, and either the toolchain is such a one or the bundle is restored. -/
theorem schemas_of_build {cache : Option (Cache κ)}
    (h : (build t set options cache s).outcome = .ok b) :
    (∀ v ∈ b.validators.values,
      v.redeemer.schema.check = .ok () ∧ ∀ c ∈ v.datum, c.schema.check = .ok ()) ∧
    (b.fromCache = false →
      ∀ name f, b.userFuncs.get? name = some f → f.EmittedBy t name) ∧
    (b.fromCache = true → ∃ c c' record, cache = some c ∧
      c.lookup (buildKey t set options) = (some record, c') ∧
      ∀ name f, b.userFuncs.get? name = some f → f.RecordedIn record name) ∧
    ((∀ c ∈ cache, c.FilledBy fun _ _ t _ _ => t.EmitsWellFormed) →
      (b.fromCache = false → t.EmitsWellFormed) → b.WellFormed) := by
  have hvalidators := check_of_mem_validators b
  have hwell : (∀ name f, b.userFuncs.get? name = some f → f.signature.WellFormed) →
      b.WellFormed := fun hfuncs =>
    ⟨fun v hv => (hvalidators v hv).1, fun v hv => (hvalidators v hv).2, hfuncs⟩
  refine ⟨hvalidators, ?_⟩
  obtain ⟨hdeclared, ⟨s', hruns⟩ | ⟨c, c', record, s', rfl, hlookup, hruns⟩⟩ :=
    compiled_or_restored h
  · have hfresh := (enforced_of_runs_compileSet hdeclared hruns).1
    have hemitted : ∀ name f, b.userFuncs.get? name = some f → f.EmittedBy t name :=
      fun name f hf => emittedBy_of_runs_compileSet hruns hf
    refine ⟨fun _ => hemitted, fun hrestored => (by cases hfresh.symm.trans hrestored), ?_⟩
    refine fun _ ht => hwell fun name f hf => ?_
    obtain ⟨request, s₁, e, he, -, -, heq⟩ := hemitted name f hf
    exact heq ▸ ht hfresh request s₁ e he
  · have hrestored := (of_runs_restoreSet hruns).1
    have hrecorded : ∀ name f, b.userFuncs.get? name = some f → f.RecordedIn record name :=
      fun name f hf => recordedIn_of_runs_restoreSet hruns hf
    refine ⟨fun hfresh => (by cases hfresh.symm.trans hrestored),
      fun _ => ⟨c, c', record, rfl, hlookup, hrecorded⟩, ?_⟩
    refine fun hfilled _ => hwell fun name f hf => ?_
    obtain ⟨⟨_, hserved⟩, -⟩ := (hfilled c rfl).allOffered_wellFormed.of_lookup hlookup
    obtain ⟨r, hr, heq⟩ := hrecorded name f hf
    exact heq ▸ hserved name r hr

end

namespace Example

/-- A type whose only variant has a tag that is not its position. -/
def misplaced : Schema := .enum [⟨"Only", 1, []⟩]

/-- A compiler that knows a function of that type. -/
def careless : Toolchain Unit LineScript.Code :=
  LineScript.Settings.toolchain ⟨"1.0", "1",
    ⟨[("same", ⟨⟨⟨"nth 0"⟩, none⟩, ⟨[⟨"x", misplaced, false⟩], some misplaced, false, false⟩⟩)],
      by simp⟩⟩

/-- A policy along with which the function is emitted. -/
def emitting : ValidatorSet :=
  ⟨⟨[("sale", { minting [] with source := "func same" })], by simp⟩, .empty⟩

/-- The bundle of the careless compiler has the function as it was emitted, and is not well formed;
that of another compiler, which knows nothing of the function, is. -/
theorem schemas_of_build_careless :
    (∃ b, (build careless emitting plain (some Cache.inMemory) ()).outcome = .ok b ∧
      (∀ name f, b.userFuncs.get? name = some f → f.EmittedBy careless name) ∧
      ¬ b.WellFormed) ∧
    ∃ b, (build compiler emitting plain (some Cache.inMemory) ()).outcome = .ok b ∧
      b.userFuncs.names = ["same"] ∧ b.WellFormed := by
  constructor
  · have hchecks : ((build careless emitting plain (some Cache.inMemory)
        ()).outcome.toOption.any fun b => b.fromCache = false ∧
          (b.userFuncs.get? "same").any fun f => ¬ f.signature.WellFormed) = true := by
      decide +kernel
    obtain ⟨b, hb, hb_checks⟩ := exists_ok_of_any hchecks
    obtain ⟨hfresh, hsame⟩ := of_decide_eq_true hb_checks
    obtain ⟨f, hf, hbad⟩ := (Option.any_eq_true _ _).mp hsame
    obtain ⟨-, hemitted, -⟩ := schemas_of_build hb
    exact ⟨b, hb, hemitted hfresh, fun h => of_decide_eq_true hbad (h.signature "same" f hf)⟩
  · have hchecks : ((build compiler emitting plain (some Cache.inMemory)
        ()).outcome.toOption.any fun b => b.userFuncs.names = ["same"]) = true := by
      decide +kernel
    obtain ⟨b, hb, hnames⟩ := exists_ok_of_any hchecks
    have hemits : compiler.EmitsWellFormed :=
      LineScript.Settings.emitsWellFormed fun _ _ h => by cases h
    have hfilled : ∀ c ∈ some Cache.inMemory, c.FilledBy fun _ _ t _ _ => t.EmitsWellFormed := by
      rintro _ ⟨⟩
      exact .start Cache.isBlank_inMemory
    obtain ⟨-, -, -, hwell⟩ := schemas_of_build hb
    exact ⟨b, hb, of_decide_eq_true hnames, hwell hfilled fun _ => hemits⟩

end Example

end ScriptBundle

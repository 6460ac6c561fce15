/-
# What a build does not complain about any more

Three complaints of a build are about things that the loader of a project looks at as well: purposes
that nobody knows, hashes that are expected of validators that are not there, and schemas that are
not well formed.  They come too late if a project has been loaded (`BuildError.IsLate`).

Compiling a set with well-formed schemas gives no cause for one, and neither does restoring from the
record of a bundle, whatever bundle it is of: codecs hold well-formed schemas only.  With a cache
that builds have filled every record is such a one, so the whole build is timely
(`timely_of_build`).
-/
import ScriptBundle.Proofs.Build.Declared
import ScriptBundle.Proofs.Build.Filled

namespace ScriptBundle

variable {σ α P : Type} {name : String}

/-- A complaint about something that was to be found out before there was a set to build. -/
def BuildError.IsLate : BuildError → Prop
  | .unknownPurpose _ _ | .unknownValidator _ | .invalidSchema _ _ => True
  | _ => False

/-! ## 1. Complaints that are in time -/

theorem BuildError.IsUnforeseen.not_isLate {e : BuildError} (h : e.IsUnforeseen) : ¬ e.IsLate := by
  cases e <;> first | exact id | cases h

/-- The schemas of every validator of the set are well formed. -/
def ValidatorSet.WellFormed (set : ValidatorSet) : Prop :=
  ∀ name v, set.validators.get? name = some v →
    v.redeemer.check = .ok () ∧ ∀ s ∈ v.datum, s.check = .ok ()

/-- A validator's record with a known purpose and well-formed schemas. -/
structure ValidatorRecord.WellFormed (r : ValidatorRecord) : Prop where
  purpose : ∃ p, Purpose.parse r.purpose = .ok p
  redeemer : r.redeemer.check = .ok ()
  datum : ∀ s ∈ r.datum, s.check = .ok ()

/-- The records of all validators are so. -/
def BuildRecord.ValidatorsWellFormed (r : BuildRecord) : Prop :=
  ∀ name v, r.validators.get? name = some v → v.WellFormed

section

variable {e : BuildError} {network : Network}

theorem not_isLate_of_validatorCodec {schema : Schema} (hschema : schema.check = .ok ())
    (h : validatorCodec name schema network = .error e) : ¬ e.IsLate :=
  absurd hschema (of_validatorCodec_error h).1

theorem not_isLate_of_optionalCodec {schema : Option Schema}
    (hschema : ∀ s ∈ schema, s.check = .ok ())
    (h : optionalCodec name schema network = .error e) : ¬ e.IsLate := by
  obtain ⟨s, hs, hbad, -⟩ := of_optionalCodec_error h
  exact absurd (hschema s hs) hbad

/-- The schemas of a well-formed set pass again, and what else there is to complain about its
declarations is in time. -/
theorem ValidatorSet.WellFormed.allows {set : ValidatorSet} (h : set.WellFormed) :
    set.Allows (fun e => ¬ e.IsLate) network where
  order := by
    intro e he
    rcases of_compilationOrder_error he with ⟨_, _, -, rfl⟩ | ⟨_, rfl⟩ <;> exact id
  modules := by
    intro name v _ e he
    obtain ⟨m, -, -, rfl⟩ := of_importedModules_error he
    exact id
  redeemer := fun name v hv e he => not_isLate_of_validatorCodec (h name v hv).1 he
  datum := fun name v hv e he => not_isLate_of_optionalCodec (h name v hv).2 he

theorem BuildRecord.ValidatorsWellFormed.allows {record : BuildRecord}
    (h : record.ValidatorsWellFormed) : record.Allows fun e => ¬ e.IsLate where
  purpose := fun name r hr _ he => absurd (h name r hr).purpose (of_recordedPurpose_error he).1
  redeemer := fun name r hr _ he => not_isLate_of_validatorCodec (h name r hr).redeemer he
  datum := fun name r hr _ he => not_isLate_of_optionalCodec (h name r hr).datum he

end

/-! ## 2. Timely builds -/

section

variable [Program P] {t : Toolchain σ P} {set : ValidatorSet} {options : BuildOptions} {s : σ}

/-- **The record of a bundle**, whatever bundle it is: purposes are recorded by their names, and
schemas are those of codecs. -/
theorem Bundle.validatorsWellFormed_record (b : Bundle P) (debug : Bool) (version : String) :
    (b.record debug version).ValidatorsWellFormed := by
  intro name r hr
  change (b.validators.map fun _ v => v.record).get? name = some r at hr
  rw [NameMap.get?_map] at hr
  obtain ⟨v, -, rfl⟩ := Option.map_eq_some_iff.mp hr
  refine ⟨⟨v.purpose, Purpose.parse_name v.purpose⟩, v.redeemer.check_schema, fun s hs => ?_⟩
  obtain ⟨c, -, rfl⟩ := Option.map_eq_some_iff.mp hs
  exact c.check_schema

/-- What a cache has to serve that builds have filled are such records. -/
theorem Cache.Filled.allOffered_validatorsWellFormed {κ : Type} [Backend κ] {c : Cache κ}
    (h : c.Filled) : c.AllOffered fun _ record => record.ValidatorsWellFormed :=
  FilledBy.allOffered h fun {_ _ _ t _ options} _ _ b _ _ _ =>
    b.validatorsWellFormed_record options.debug t.format

omit [Program P] in
theorem not_isLate_of_checkDeclared {e : BuildError}
    (hexpected : ∀ n ∈ options.expected.names, n ∈ set.validators.names)
    (h : checkDeclared set options = .error e) : ¬ e.IsLate := by
  rcases checkDeclared_eq_error_iff.mp h with ⟨_, -, rfl⟩ | ⟨-, name, hstray, rfl⟩
  · exact id
  · exact absurd (hexpected name hstray.expected) hstray.unknown

/-- **Builds are timely.**  A build of a set with well-formed schemas, of which nothing is expected
that it has no validator for, does not fail with a late complaint: not without a cache, and not with
one that builds have filled, of whichever sets and by whichever toolchains. -/
theorem timely_of_build (hset : set.WellFormed)
    (hexpected : ∀ n ∈ options.expected.names, n ∈ set.validators.names)
    {κ : Type} [Backend κ] {cache : Option (Cache κ)} (hcache : ∀ c ∈ cache, c.Filled)
    {e : BuildError} (h : (build t set options cache s).outcome = .error e) : ¬ e.IsLate := by
  refine of_build_error (fun _ => BuildError.IsUnforeseen.not_isLate)
    (fun e he => not_isLate_of_checkDeclared hexpected he) hset.allows ?_ h
  intro c hc record c' hlookup
  obtain ⟨⟨_, hrecord⟩, -⟩ := (hcache c hc).allOffered_validatorsWellFormed.of_lookup hlookup
  exact hrecord.allows

end

end ScriptBundle

/-
# Which expected hashes are enforced

A hash that is expected is to be that of a validator of the bundle (`BuildOptions.Enforced`).  A
build that compiles sees to that, validator by validator.  A build that is served from a cache looks
at the validators of the bundle that it has restored, and so it says nothing of a name that is not
among them.

What a cache that builds have filled serves has the names that went into one of the builds
(`Cache.FilledBy.allOffered_names`).  Under a key only records of its own inputs are found, which
have the same names, so that makes no difference to a keyed cache.  A positional cache serves a
record to whatever build comes next, and what is expected of a validator that the record does not
have is not enforced (`enforced_of_build`).
-/
import ScriptBundle.Proofs.Build.Filled
import ScriptBundle.Proofs.Build.Inputs

namespace ScriptBundle

open Work

/-! ## 1. Hashes that are looked at -/

section

variable {P : Type} {options : BuildOptions} {b : Bundle P}

/-- Whatever hash is expected, the bundle has a validator of that name with that hash. -/
def BuildOptions.Enforced (options : BuildOptions) (b : Bundle P) : Prop :=
  ∀ name hash, options.expected.get? name = some hash →
    ∃ v, b.validators.get? name = some v ∧ v.hash = hash

theorem checkExpected_iff {name : String} {actual : Bytes} :
    options.checkExpected name actual = .ok () ↔
      ∀ hash, options.expected.get? name = some hash → hash = actual := by
  unfold BuildOptions.checkExpected
  cases options.expected.get? name with
  | none => exact ⟨fun _ hash h => (by cases h), fun _ => rfl⟩
  | some hash =>
    dsimp only
    split
    · rename_i heq
      exact ⟨fun _ hash' h => Option.some.inj h ▸ heq, fun _ => rfl⟩
    · rename_i hne
      exact ⟨fun h => (by cases h), fun h => absurd (h hash rfl) hne⟩

/-- Hashes that have been looked at are enforced on all validators that there are. -/
theorem enforced_iff_of_checkHashes
    (hnames : ∀ name v, (name, v) ∈ b.validators.entries → v.name = name)
    (hcheck : checkHashes options b = .ok ()) :
    options.Enforced b ↔ ∀ name ∈ options.expected.names, name ∈ b.validators.names := by
  rw [checkHashes_iff_of_names hnames] at hcheck
  constructor
  · intro h name hname
    obtain ⟨hash, hhash⟩ := NameMap.mem_names_iff.mp hname
    obtain ⟨v, hv, -⟩ := h name hash hhash
    exact NameMap.mem_names_iff.mpr ⟨v, hv⟩
  · intro h name hash hhash
    obtain ⟨v, hv⟩ := NameMap.mem_names_iff.mp (h name (NameMap.mem_names_iff.mpr ⟨hash, hhash⟩))
    have hv' := hcheck name v (NameMap.get?_eq_some_iff.mp hv)
    exact ⟨v, hv, (checkExpected_iff.mp hv' hash hhash).symm⟩

end

/-! ## 2. The names of validators -/

/-- The names of the validators that go into a key. -/
def KeyInputs.names (i : KeyInputs) : List String := i.validators.map (·.name)

theorem KeyInputs.Agrees.mem_names_iff {i j : KeyInputs} (h : i.Agrees j) {name : String} :
    name ∈ i.names ↔ name ∈ j.names := by
  obtain ⟨vs, hvs, hperm⟩ := h.validators
  have hnames : i.names = vs.map (·.name) := by
    rw [names, ← List.forall₂_eq_eq_eq, List.forall₂_map_left_iff, List.forall₂_map_right_iff]
    exact hvs.imp fun _ _ hv => hv.name
  rw [hnames]
  exact (hperm.map _).mem_iff

section

variable {σ P : Type} {t : Toolchain σ P} {set : ValidatorSet} {options : BuildOptions} {s s' : σ}

theorem names_keyInputs (t : Toolchain σ P) (set : ValidatorSet) (options : BuildOptions) :
    (keyInputs t set options).names = set.validators.names :=
  names_validators t set options

/-- A set compiles to validators of its names. -/
theorem names_of_runs_compileSet [Program P] {b : Bundle P}
    (h : Runs (compileSet t set options) s b s') : b.validators.names = set.validators.names := by
  obtain ⟨order, horder, hruns⟩ := runs_compileSet_iff.mp h
  exact names_of_runs_compileAlong hruns fun n => (order_of_compilationOrder horder).1.mem_iff

end

/-- What a cache has to serve is stored under the key of one of the builds before, and has the names
that went into it. -/
theorem Cache.FilledBy.allOffered_names {κ : Type} [Backend κ] {c : Cache κ}
    {past : List KeyInputs}
    (h : c.FilledBy fun _ _ t set options => keyInputs t set options ∈ past) :
    c.AllOffered fun key record => ∃ i ∈ past, i.key = key ∧ i.names = record.validators.names := by
  refine h.allOffered fun {_ _ _ t set options} hpast s b s' _ hruns => ?_
  obtain ⟨order, -, halong⟩ := runs_compileSet_iff.mp hruns
  refine ⟨_, hpast, (isOf_of_runs_compileAlong halong).1.symm, ?_⟩
  calc (keyInputs t set options).names
    _ = set.validators.names := names_keyInputs t set options
    _ = b.validators.names := (names_of_runs_compileSet hruns).symm
    _ = (b.record options.debug t.format).validators.names := NameMap.names_map.symm

/-! ## 3. Compiled and restored -/

section

variable {σ κ P : Type} [Program P] [Backend κ] {t : Toolchain σ P} {set : ValidatorSet}
  {options : BuildOptions} {s s' : σ} {b : Bundle P}

/-- What a build that succeeds has made of its bundle: the bundle is compiled and has the set's
names, or it is restored from a record that the cache has served. -/
theorem compiled_or_restored {cache : Option (Cache κ)}
    (h : (build t set options cache s).outcome = .ok b) :
    checkDeclared set options = .ok () ∧
      ((∃ s', Runs (compileSet t set options) s b s') ∨
        ∃ c c' record s', cache = some c ∧
          c.lookup (buildKey t set options) = (some record, c') ∧
          Runs (restoreSet t set options record) s b s') := by
  cases cache with
  | none =>
    cases hdeclared : checkDeclared set options with
    | error e =>
      rw [build, hdeclared] at h
      cases h
    | ok =>
      rw [build_none hdeclared] at h
      exact ⟨rfl, .inl (exists_runs_iff.mpr h)⟩
  | some c =>
    have hrun := cachedBuild t set options c s
    generalize build t set options (some c) s = run at h hrun
    cases hrun with
    | refused _ => cases h
    | @hit record c' o s' hdeclared hlookup hrestore =>
      obtain rfl : o = .ok b := h
      exact ⟨hdeclared, .inr ⟨c, c', record, s', rfl, hlookup, hrestore⟩⟩
    | failed _ _ _ => cases h
    | @compiled b' c' o s' hdeclared _ hcompile hstore =>
      refine ⟨hdeclared, .inl ⟨s', ?_⟩⟩
      unfold storeBundle at hstore
      split at hstore <;> cases hstore <;> cases h
      exact hcompile

/-- **Compiled bundles** have everything that is expected. -/
theorem enforced_of_runs_compileSet (hdeclared : checkDeclared set options = .ok ())
    (h : Runs (compileSet t set options) s b s') :
    b.fromCache = false ∧ options.Enforced b ∧
      (options.Enforced b ↔ ∀ name ∈ options.expected.names, name ∈ b.validators.names) := by
  obtain ⟨-, hexpected⟩ := checkDeclared_iff.mp hdeclared
  obtain ⟨order, -, halong⟩ := runs_compileSet_iff.mp h
  obtain ⟨-, hfresh, hof, hcheck⟩ := isOf_of_runs_compileAlong halong
  have hiff := enforced_iff_of_checkHashes
    (fun name v hmem => (hof.validators name v hmem).name_eq) hcheck
  refine ⟨hfresh, hiff.mpr fun name hname => ?_, hiff⟩
  rw [names_of_runs_compileSet h]
  exact hexpected name hname

/-- **Expected hashes.**  Of a bundle that a build returns, whatever the cache, what is expected is
enforced on every validator that is there, and it is enforced altogether if the bundle has been
compiled.

With a cache that other builds have filled, it is also enforced altogether if the cache is a keyed
one, as long as inputs that differ have keys that differ; and a bundle that comes from the cache has
the names that went into one of those builds. -/
theorem enforced_of_build {cache : Option (Cache κ)}
    (h : (build t set options cache s).outcome = .ok b) :
    (options.Enforced b ↔ ∀ name ∈ options.expected.names, name ∈ b.validators.names) ∧
    (b.fromCache = false → options.Enforced b) ∧
    ∀ past : List KeyInputs,
      (∀ c ∈ cache, c.FilledBy fun _ _ t set options => keyInputs t set options ∈ past) →
        (∀ store, cache = some (.keyed store) →
          (∀ i ∈ past, i.key = buildKey t set options → i.Agrees (keyInputs t set options)) →
            options.Enforced b) ∧
        (b.fromCache = true → ∃ i ∈ past, i.names = b.validators.names) := by
  obtain ⟨hdeclared, ⟨s', hruns⟩ | ⟨c, c', record, s', rfl, hlookup, hruns⟩⟩ :=
    compiled_or_restored h
  · obtain ⟨hfresh, henforced, hiff⟩ := enforced_of_runs_compileSet hdeclared hruns
    refine ⟨hiff, fun _ => henforced, fun past _ => ⟨fun _ _ _ => henforced, fun hrestored => ?_⟩⟩
    cases hfresh.symm.trans hrestored
  · obtain ⟨hrestored, hrecord, hnames, hcheck⟩ := of_runs_restoreSet hruns
    have hiff := enforced_iff_of_checkHashes hnames hcheck
    refine ⟨hiff, fun hfresh => (by cases hfresh.symm.trans hrestored), fun past hfilled => ?_⟩
    obtain ⟨⟨_, i, hi, -, hi_names⟩, hkeyed, -⟩ :=
      (hfilled c rfl).allOffered_names.of_lookup hlookup
    refine ⟨fun store hstore htells => ?_, fun _ => ⟨i, hi, hi_names.trans hrecord.symm⟩⟩
    obtain ⟨j, hj, hkey, hj_names⟩ := hkeyed store (Option.some.inj hstore)
    refine hiff.mpr fun name hname => ?_
    rw [hrecord, ← hj_names, (htells j hj hkey).mem_names_iff, names_keyInputs]
    exact (checkDeclared_iff.mp hdeclared).2 name hname

end

namespace Example

/-- A policy is to have a hash that no program has. -/
def pinned : BuildOptions := { plain with expected := ⟨[("sale", [])], by simp⟩ }

/-- What comes of a build of another set, with a positional cache. -/
def vaultRun : BuildRun Unit MemoryStore LineScript.Code :=
  build compiler (sole "vault") plain (some .replay) ()

/-- The other set's record is served, and the policy is not even there. -/
theorem enforced_of_build_replayed : ∃ c, vaultRun.cache = some c ∧
    ∃ b, (build compiler (sole "sale") pinned (some c.rewind) ()).outcome = .ok b ∧
      b.validators.names = ["vault"] ∧ ¬ pinned.Enforced b := by
  have hsome : vaultRun.cache.isSome := by decide +kernel
  obtain ⟨c, hc⟩ := Option.isSome_iff_exists.mp hsome
  refine ⟨c, hc, ?_⟩
  have hserved : vaultRun.cache.any fun c =>
      (build compiler (sole "sale") pinned (some c.rewind) ()).outcome.toOption.any
        fun b => b.fromCache := by decide +kernel
  rw [hc, Option.any_some] at hserved
  obtain ⟨b, hb, hrestored⟩ := exists_ok_of_any hserved
  have hfilled : c.rewind.FilledBy fun _ _ t set options =>
      keyInputs t set options ∈ [keyInputs compiler (sole "vault") plain] :=
    .rewind (.build (.start Cache.isBlank_replay) List.mem_cons_self () hc)
  obtain ⟨hiff, -, hpast⟩ := enforced_of_build hb
  obtain ⟨i, hi, hnames⟩ :=
    (hpast _ fun _ hcache => Option.some.inj hcache ▸ hfilled).2 hrestored
  obtain rfl := List.mem_singleton.mp hi
  rw [names_keyInputs] at hnames
  refine ⟨b, hb, hnames.symm, fun henforced => ?_⟩
  have hsale := hiff.mp henforced "sale" (by decide)
  rw [← hnames] at hsale
  exact absurd hsale (by decide)

end Example

end ScriptBundle

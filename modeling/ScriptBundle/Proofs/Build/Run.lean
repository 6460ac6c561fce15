/-
# What a build that succeeds has done

The toolchain here is an arbitrary one, whose answers may depend on all that it remembers.  Work
`Runs` from one state of the toolchain to another if it succeeds and leaves the toolchain so; a
chain of steps runs if its steps run one after another (`runs_bind_iff`).

Section 2 says all that a step of either pass that succeeds has done.  From that it follows, by
induction over a pass, what the pass as a whole has done: the hashes of the first pass are those of
its programs and are the expected ones (`isSound_of_runs_resolveFrom`), and the second pass keeps
them (`isOf_of_runs_assembleFrom`).  A compiled bundle is put together from both
(`isOf_of_runs_compileAlong`).
-/
import ScriptBundle.Proofs.Build.Bundle

namespace ScriptBundle

variable {σ α β P : Type}

namespace Work

/-! ## 1. Work that succeeds -/

/-- The work comes to a result, and the toolchain's memory from one state to another. -/
def Runs (w : Work σ α) (s : σ) (a : α) (s' : σ) : Prop := w.outcome s = (.ok a, s')

variable {s s' s'' : σ}

theorem runs_pure_iff {a b : α} : Runs (pure a) s b s' ↔ a = b ∧ s = s' := by
  refine ⟨fun h => ?_, ?_⟩
  · cases h
    exact ⟨rfl, rfl⟩
  · rintro ⟨rfl, rfl⟩
    rfl

theorem runs_ofResult_iff {r : Except BuildError α} {a : α} :
    Runs (ofResult r) s a s' ↔ r = .ok a ∧ s = s' := by
  refine ⟨fun h => ?_, ?_⟩
  · cases r <;> cases h
    exact ⟨rfl, rfl⟩
  · rintro ⟨rfl, rfl⟩
    rfl

theorem runs_ofTool_iff {wrap : String → BuildError} {step : σ → Except String α × σ} {a : α} :
    Runs (ofTool wrap step) s a s' ↔ step s = (.ok a, s') := by
  unfold Runs outcome ofTool
  rcases step s with ⟨e | b, r⟩ <;> constructor <;> intro h <;> cases h
  · rfl
  · rfl

/-- **Chains.**  A chain runs iff its first step does and the rest, on what that gave, runs from
where it ended. -/
theorem runs_bind_iff {w : Work σ α} {f : α → Work σ β} {b : β} :
    Runs (w >>= f) s b s'' ↔ ∃ a s', Runs w s a s' ∧ Runs (f a) s' b s'' := by
  unfold Runs
  rw [outcome_bind]
  rcases w.outcome s with ⟨e | a, s'⟩
  · refine ⟨fun h => (by cases h), ?_⟩
    rintro ⟨a, s', h, -⟩
    cases h
  · refine ⟨fun h => ⟨a, s', rfl, h⟩, ?_⟩
    rintro ⟨a', r, h, hb⟩
    cases h
    exact hb

theorem exists_runs_iff {w : Work σ α} {a : α} :
    (∃ s', Runs w s a s') ↔ (w.outcome s).1 = .ok a :=
  ⟨fun ⟨_, h⟩ => congrArg Prod.fst h, fun h => ⟨_, Prod.ext h rfl⟩⟩

/-- Work that gives a result runs, from wherever it starts. -/
theorem Gives.runs {w : Work σ α} {a : α} (h : Gives w a) (s : σ) : ∃ s', Runs w s a s' :=
  exists_runs_iff.mpr (h s)

theorem Gives.exists_runs [Nonempty σ] {w : Work σ α} {a : α} (h : Gives w a) :
    ∃ s s', Runs w s a s' := by
  obtain ⟨s⟩ := ‹Nonempty σ›
  exact ⟨s, h.runs s⟩

/-- Settled work gives what it comes to in one run. -/
theorem Settled.gives_of_runs {w : Work σ α} {a : α} (hw : Settled w) (h : Runs w s a s') :
    Gives w a :=
  hw.gives (congrArg Prod.fst h)

end Work

open Work

variable {t : Toolchain σ P} {options : BuildOptions} {set : ValidatorSet} {name : String}
  {s s' : σ}

/-! ## 2. Steps that succeed -/

theorem network_of_validatorCodec {schema : Schema} {network : Network} {c : Codec}
    (h : validatorCodec name schema network = .ok c) : c.network = network := by
  unfold validatorCodec Codec.ofSchema at h
  split at h
  · rename_i codec hcodec
    cases h
    split at hcodec <;> cases hcodec
    rfl
  · cases h

theorem network_of_optionalCodec {schema : Option Schema} {network : Network} {c : Option Codec}
    (h : optionalCodec name schema network = .ok c) : ∀ d ∈ c, d.network = network := by
  cases schema with
  | none =>
    cases h
    exact fun _ hd => (Option.not_mem_none _ hd).elim
  | some s =>
    rw [optionalCodec] at h
    cases hcodec : validatorCodec name s network with
    | error e =>
      rw [hcodec] at h
      cases h
    | ok d =>
      rw [hcodec] at h
      cases h
      rintro _ ⟨⟩
      exact network_of_validatorCodec hcodec

/-- The validator that is put together from what both passes gave. -/
def assembled (t : Toolchain σ P) (options : BuildOptions) (hashes : NameMap Bytes) (name : String)
    (r : Resolved P) (output : Output P) (redeemer : Codec) (datum : Option Codec) :
    CompiledValidator P where
  name
  purpose := r.validator.purpose
  hash := r.hash
  programs := ⟨r.program, some output.program⟩
  version := t.format
  redeemer
  datum
  dependencies := embeddedHashes hashes r.validator
  diagnostics := options.keep r.diagnostics
  unoptimizedDiagnostics := options.keep output.diagnostics

/-- A validator is assembled if it compiles and its schemas are well-formed. -/
theorem runs_assemble_iff {hashes : NameMap Bytes} {excluded : List String} {r : Resolved P}
    {x : CompiledValidator P × List (Emission P)} :
    Runs (assemble t options set hashes excluded name r) s x s' ↔
      ∃ modules output redeemer datum, set.importedModules name r.validator = .ok modules ∧
        Runs (compileRequest t (secondRequest options set hashes excluded name r modules)) s
          (output, x.2) s' ∧
        validatorCodec name r.validator.redeemer options.network = .ok redeemer ∧
        optionalCodec name r.validator.datum options.network = .ok datum ∧
        assembled t options hashes name r output redeemer datum = x.1 := by
  obtain ⟨v, emitted⟩ := x
  simp only [assemble, runs_bind_iff, runs_ofResult_iff, runs_pure_iff]
  constructor
  · rintro ⟨modules, _, ⟨hmodules, rfl⟩, ⟨output, _⟩, _, hcompile, redeemer, _, ⟨hr, rfl⟩, datum, _,
      ⟨hd, rfl⟩, hx, rfl⟩
    cases hx
    exact ⟨modules, output, redeemer, datum, hmodules, hcompile, hr, hd, rfl⟩
  · rintro ⟨modules, output, redeemer, datum, hmodules, hcompile, hr, hd, rfl⟩
    exact ⟨modules, s, ⟨hmodules, rfl⟩, (output, emitted), s', hcompile, redeemer, s', ⟨hr, rfl⟩,
      datum, s', ⟨hd, rfl⟩, rfl, rfl⟩

/-- What assembling some entries gives: the validators and the functions that were gathered. -/
abbrev Assembly (P : Type) (entries : List (String × Resolved P)) : Type :=
  { vs : List (String × CompiledValidator P) // vs.map (·.1) = entries.map (·.1) } ×
    NameMap (Emission P)

theorem runs_assembleFrom_cons_iff {hashes : NameMap Bytes} {gathered : NameMap (Emission P)}
    {r : Resolved P} {rest : List (String × Resolved P)} {x : Assembly P ((name, r) :: rest)} :
    Runs (assembleFrom t options set hashes gathered ((name, r) :: rest)) s x s' ↔
      ∃ (v : CompiledValidator P) (emitted : List (Emission P)) (s₁ : σ) (y : Assembly P rest),
        Runs (assemble t options set hashes gathered.names name r) s (v, emitted) s₁ ∧
        Runs (assembleFrom t options set hashes (gather gathered emitted) rest) s₁ y s' ∧
        x.1.1 = (name, v) :: y.1.1 ∧ x.2 = y.2 := by
  simp only [assembleFrom, runs_bind_iff, runs_pure_iff]
  constructor
  · rintro ⟨⟨v, emitted⟩, s₁, hassemble, y, _, hy, rfl, rfl⟩
    exact ⟨v, emitted, s₁, y, hassemble, hy, rfl, rfl⟩
  · obtain ⟨⟨vs, hvs⟩, last⟩ := x
    rintro ⟨v, emitted, s₁, y, hassemble, hy, hvalidators, hgathered⟩
    obtain rfl : vs = (name, v) :: y.1.1 := hvalidators
    obtain rfl : last = y.2 := hgathered
    exact ⟨(v, emitted), s₁, hassemble, y, s', hy, rfl, rfl⟩

variable [Program P]

/-- A validator is resolved if it compiles and its hash is not refused. -/
theorem runs_resolve_iff {resolved next : NameMap (Resolved P)} {v : Validator} :
    Runs (resolve t options set resolved name v) s next s' ↔
      ∃ modules output emitted, set.importedModules name v = .ok modules ∧
        Runs (compileRequest t (firstRequest options set (resolvedHashes resolved) name v modules))
          s (output, emitted) s' ∧
        options.checkExpected name (Program.hash output.program) = .ok () ∧
        resolved.insert name
          ⟨v, output.program, Program.hash output.program, output.diagnostics⟩ = next := by
  simp only [resolve, runs_bind_iff, runs_ofResult_iff, runs_pure_iff]
  constructor
  · rintro ⟨modules, _, ⟨hmodules, rfl⟩, ⟨output, emitted⟩, _, hcompile, _, _, ⟨hexpected, rfl⟩,
      hnext, rfl⟩
    exact ⟨modules, output, emitted, hmodules, hcompile, hexpected, hnext⟩
  · rintro ⟨modules, output, emitted, hmodules, hcompile, hexpected, hnext⟩
    exact ⟨modules, s, ⟨hmodules, rfl⟩, (output, emitted), s', hcompile, (), s', ⟨hexpected, rfl⟩,
      hnext, rfl⟩

theorem runs_resolveFrom_cons_iff {resolved last : NameMap (Resolved P)} {v : Validator}
    {rest : List String} (hv : set.validators.get? name = some v) :
    Runs (resolveFrom t options set resolved (name :: rest)) s last s' ↔
      ∃ next r, Runs (resolve t options set resolved name v) s next r ∧
        Runs (resolveFrom t options set next rest) r last s' := by
  rw [resolveFrom, hv]
  exact runs_bind_iff

theorem resolveFrom_cons_of_none {resolved : NameMap (Resolved P)} {rest : List String}
    (hv : set.validators.get? name = none) :
    resolveFrom t options set resolved (name :: rest) =
      resolveFrom t options set resolved rest := by
  rw [resolveFrom, hv]

/-! ## 3. The first pass -/

/-- The hash is that of the program, and the expected one if one is expected. -/
structure Resolved.IsSound (options : BuildOptions) (name : String) (r : Resolved P) : Prop where
  hash_eq : Program.hash r.program = r.hash
  expected : options.checkExpected name r.hash = .ok ()

theorem isSound_of_runs_resolve {resolved next : NameMap (Resolved P)} {v : Validator}
    (h : Runs (resolve t options set resolved name v) s next s')
    (hresolved : ∀ n r, resolved.get? n = some r → r.IsSound options n) :
    ∀ n r, next.get? n = some r → r.IsSound options n := by
  obtain ⟨_, _, _, -, -, hexpected, rfl⟩ := runs_resolve_iff.mp h
  intro n r hr
  rw [NameMap.get?_insert] at hr
  split at hr
  · rename_i heq
    subst heq
    cases hr
    exact ⟨rfl, hexpected⟩
  · exact hresolved n r hr

/-- Whatever the first pass gives is sound. -/
theorem isSound_of_runs_resolveFrom {resolved last : NameMap (Resolved P)} {order : List String}
    (h : Runs (resolveFrom t options set resolved order) s last s')
    (hresolved : ∀ n r, resolved.get? n = some r → r.IsSound options n) :
    ∀ n r, last.get? n = some r → r.IsSound options n := by
  induction order generalizing resolved s with
  | nil =>
    obtain ⟨rfl, -⟩ := runs_pure_iff.mp h
    exact hresolved
  | cons name rest ih =>
    cases hv : set.validators.get? name with
    | none =>
      rw [resolveFrom_cons_of_none hv] at h
      exact ih h hresolved
    | some v =>
      obtain ⟨next, _, hstep, hrest⟩ := (runs_resolveFrom_cons_iff hv).mp h
      exact ih hrest (isSound_of_runs_resolve hstep hresolved)

theorem isSound_of_runs_resolveAll {order : List String} {resolved : NameMap (Resolved P)}
    (h : Runs (resolveFrom t options set .empty order) s resolved s') :
    ∀ e ∈ resolved.entries, e.2.IsSound options e.1 := by
  intro e he
  have hempty : ∀ n r, (NameMap.empty : NameMap (Resolved P)).get? n = some r →
      r.IsSound options n := fun _ _ hr => by cases hr
  exact isSound_of_runs_resolveFrom h hempty e.1 e.2 (NameMap.get?_eq_some_iff.mpr he)

/-- What is resolved stays as it is unless its name comes up again. -/
theorem get?_of_runs_resolveFrom {resolved last : NameMap (Resolved P)} {order : List String}
    (h : Runs (resolveFrom t options set resolved order) s last s') (hname : name ∉ order) :
    last.get? name = resolved.get? name := by
  induction order generalizing resolved s with
  | nil => rw [(runs_pure_iff.mp h).1]
  | cons n rest ih =>
    obtain ⟨hne, hrest⟩ := List.ne_and_not_mem_of_not_mem_cons hname
    cases hv : set.validators.get? n with
    | none =>
      rw [resolveFrom_cons_of_none hv] at h
      exact ih h hrest
    | some v =>
      obtain ⟨next, _, hstep, hnext⟩ := (runs_resolveFrom_cons_iff hv).mp h
      obtain ⟨_, _, _, -, -, -, rfl⟩ := runs_resolve_iff.mp hstep
      rw [ih hnext hrest, NameMap.get?_insert, if_neg hne]

/-- A name is resolved in the end iff it was before or was to be resolved. -/
theorem mem_names_of_runs_resolveFrom {resolved last : NameMap (Resolved P)} {order : List String}
    (h : Runs (resolveFrom t options set resolved order) s last s') : name ∈ last.names ↔
      name ∈ resolved.names ∨ name ∈ order ∧ name ∈ set.validators.names := by
  induction order generalizing resolved s with
  | nil => simp [(runs_pure_iff.mp h).1]
  | cons n rest ih =>
    cases hv : set.validators.get? n with
    | none =>
      rw [resolveFrom_cons_of_none hv] at h
      have hn : n ∉ set.validators.names := by simp [NameMap.mem_names_iff, hv]
      rw [ih h, List.mem_cons]
      refine or_congr_right ⟨fun h => ⟨.inr h.1, h.2⟩, ?_⟩
      rintro ⟨rfl | hrest, hname⟩
      · exact absurd hname hn
      · exact ⟨hrest, hname⟩
    | some v =>
      obtain ⟨next, _, hstep, hnext⟩ := (runs_resolveFrom_cons_iff hv).mp h
      obtain ⟨_, _, _, -, -, -, rfl⟩ := runs_resolve_iff.mp hstep
      have hn : n ∈ set.validators.names := NameMap.mem_names_iff.mpr ⟨v, hv⟩
      rw [ih hnext, NameMap.mem_names_insert, List.mem_cons]
      constructor
      · rintro ((rfl | hname) | hname)
        · exact .inr ⟨.inl rfl, hn⟩
        · exact .inl hname
        · exact .inr ⟨.inr hname.1, hname.2⟩
      · rintro (hname | ⟨rfl | hrest, hname⟩)
        · exact .inl (.inr hname)
        · exact .inl (.inl rfl)
        · exact .inr ⟨hrest, hname⟩

/-! ## 4. The second pass -/

/-- An assembled validator is as the build makes it and keeps the hash that was resolved. -/
theorem isOf_of_runs_assemble {hashes : NameMap Bytes} {excluded : List String} {r : Resolved P}
    {x : CompiledValidator P × List (Emission P)}
    (h : Runs (assemble t options set hashes excluded name r) s x s')
    (hhash : Program.hash r.program = r.hash) : x.1.IsOf t options name ∧ x.1.hash = r.hash := by
  obtain ⟨v, _⟩ := x
  obtain ⟨_, output, redeemer, datum, -, -, hr, hd, heq⟩ := runs_assemble_iff.mp h
  obtain rfl : assembled t options hashes name r output redeemer datum = v := heq
  exact ⟨⟨rfl, rfl, hhash, network_of_validatorCodec hr, network_of_optionalCodec hd⟩, rfl⟩

omit [Program P] in
/-- Whatever the second pass gives was assembled from the entry of its name. -/
theorem of_runs_assembleFrom {hashes : NameMap Bytes} {gathered : NameMap (Emission P)}
    {entries : List (String × Resolved P)} {x : Assembly P entries}
    (h : Runs (assembleFrom t options set hashes gathered entries) s x s') :
    ∀ e' ∈ x.1.1, ∃ e ∈ entries, e.1 = e'.1 ∧ ∃ excluded emitted s₁ s₂,
      Runs (assemble t options set hashes excluded e.1 e.2) s₁ (e'.2, emitted) s₂ := by
  induction entries generalizing gathered s with
  | nil =>
    obtain ⟨rfl, -⟩ := runs_pure_iff.mp h
    exact List.forall_mem_nil _
  | cons e rest ih =>
    obtain ⟨v, emitted, s₁, y, hassemble, hrest, heq, -⟩ := runs_assembleFrom_cons_iff.mp h
    rw [heq, List.forall_mem_cons]
    constructor
    · exact ⟨e, List.mem_cons_self, rfl, _, emitted, s, s₁, hassemble⟩
    · intro e' he'
      obtain ⟨e₀, he₀, hassembled⟩ := ih hrest e' he'
      exact ⟨e₀, List.mem_cons_of_mem _ he₀, hassembled⟩

/-- Whatever the second pass gives is as the build makes it and has the hash of its entry. -/
theorem isOf_of_runs_assembleFrom {hashes : NameMap Bytes} {gathered : NameMap (Emission P)}
    {entries : List (String × Resolved P)} {x : Assembly P entries}
    (h : Runs (assembleFrom t options set hashes gathered entries) s x s')
    (hhash : ∀ e ∈ entries, Program.hash e.2.program = e.2.hash) :
    ∀ e' ∈ x.1.1, ∃ e ∈ entries,
      e.1 = e'.1 ∧ e'.2.IsOf t options e.1 ∧ e'.2.hash = e.2.hash := by
  intro e' he'
  obtain ⟨e, he, hname, _, _, _, _, hassemble⟩ := of_runs_assembleFrom h e' he'
  exact ⟨e, he, hname, isOf_of_runs_assemble hassemble (hhash e he)⟩

/-! ## 5. Bundles -/

/-- The bundle of what both passes gave. -/
def assembledBundle (t : Toolchain σ P) (set : ValidatorSet) (options : BuildOptions)
    (resolved : NameMap (Resolved P)) (x : Assembly P resolved.entries) : Bundle P where
  key := buildKey t set options
  fromCache := false
  validators := resolved.withNames x.1.1 x.1.2
  userFuncs := x.2.map (options.userFunc set.indices)

theorem runs_compileAlong_iff {order : List String} {b : Bundle P} :
    Runs (compileAlong t set options order) s b s' ↔
      ∃ (resolved : NameMap (Resolved P)) (s₁ : σ) (x : Assembly P resolved.entries),
        Runs (resolveFrom t options set .empty order) s resolved s₁ ∧
        Runs (assembleFrom t options set (resolvedHashes resolved) .empty resolved.entries) s₁ x
          s' ∧
        assembledBundle t set options resolved x = b := by
  simp only [compileAlong, resolveAll, assembleAll, runs_bind_iff, runs_pure_iff]
  constructor
  · rintro ⟨resolved, s₁, hresolved, x, _, hx, hb, rfl⟩
    exact ⟨resolved, s₁, x, hresolved, hx, hb⟩
  · rintro ⟨resolved, s₁, x, hresolved, hx, hb⟩
    exact ⟨resolved, s₁, hresolved, x, s', hx, hb, rfl⟩

/-- A set compiles if there is an order of compilation and both passes succeed. -/
theorem runs_compileSet_iff {b : Bundle P} : Runs (compileSet t set options) s b s' ↔
    ∃ order, compilationOrder set = .ok order ∧
      Runs (compileAlong t set options order) s b s' := by
  refine runs_bind_iff.trans ⟨?_, ?_⟩
  · rintro ⟨order, _, horder, h⟩
    obtain ⟨hfound, rfl⟩ := runs_ofResult_iff.mp horder
    exact ⟨order, hfound, h⟩
  · rintro ⟨order, horder, h⟩
    exact ⟨order, s, runs_ofResult_iff.mpr ⟨horder, rfl⟩, h⟩

omit [Program P] in
/-- The gate on a bundle looks at the hash under each name. -/
theorem checkHashes_iff_of_names {b : Bundle P}
    (hb : ∀ name v, (name, v) ∈ b.validators.entries → v.name = name) :
    checkHashes options b = .ok () ↔ ∀ name v, (name, v) ∈ b.validators.entries →
      options.checkExpected name v.hash = .ok () := by
  rw [checkHashes, forM_eq_ok_iff]
  constructor
  · intro h name v hmem
    have hv := h v (List.mem_map.mpr ⟨(name, v), hmem, rfl⟩)
    rwa [hb name v hmem] at hv
  · intro h v hv
    obtain ⟨⟨name, v⟩, hmem, rfl⟩ := List.mem_map.mp hv
    rw [hb name v hmem]
    exact h name v hmem

theorem checkHashes_iff {indices : NameMap Nat} {b : Bundle P} (hb : b.IsOf t options indices)
    {options' : BuildOptions} : checkHashes options' b = .ok () ↔
      ∀ name v, (name, v) ∈ b.validators.entries →
        options'.checkExpected name v.hash = .ok () :=
  checkHashes_iff_of_names fun name v hmem => (hb.validators name v hmem).name_eq

/-- **Compiled bundles.**  A compiled bundle has the build's key, is as the build makes it, and has
the hashes that are expected. -/
theorem isOf_of_runs_compileAlong {order : List String} {b : Bundle P}
    (h : Runs (compileAlong t set options order) s b s') :
    b.key = buildKey t set options ∧ b.fromCache = false ∧ b.IsOf t options set.indices ∧
      checkHashes options b = .ok () := by
  obtain ⟨resolved, _, x, hresolved, hx, rfl⟩ := runs_compileAlong_iff.mp h
  have hsound := isSound_of_runs_resolveAll hresolved
  have hassembled := isOf_of_runs_assembleFrom hx fun e he => (hsound e he).hash_eq
  have hvalidator : ∀ e' ∈ x.1.1, e'.2.IsOf t options e'.1 ∧
      options.checkExpected e'.1 e'.2.hash = .ok () := by
    intro e' he'
    obtain ⟨e, he, hname, hof, hhash⟩ := hassembled e' he'
    rw [← hname, hhash]
    exact ⟨hof, (hsound e he).expected⟩
  have hof : (assembledBundle t set options resolved x).IsOf t options set.indices := by
    refine ⟨fun name v hmem => (hvalidator (name, v) hmem).1, ?_⟩
    intro name f hmem
    obtain ⟨e, -, heq⟩ := List.mem_map.mp hmem
    cases heq
    exact ⟨rfl, rfl, rfl, rfl⟩
  exact ⟨rfl, rfl, hof, (checkHashes_iff hof).mpr fun name v hmem => (hvalidator (name, v) hmem).2⟩

/-- The hashes of a bundle's validators. -/
def Bundle.hashes (b : Bundle P) : NameMap Bytes := b.validators.map fun _ v => v.hash

omit [Program P] in
theorem Bundle.get?_hashes {b : Bundle P} {hash : Bytes} :
    b.hashes.get? name = some hash ↔ ∃ v, b.validators.get? name = some v ∧ v.hash = hash := by
  rw [Bundle.hashes, NameMap.get?_map, Option.map_eq_some_iff]

/-- The hashes of a compiled bundle are those of the first pass. -/
theorem hashes_assembledBundle {resolved : NameMap (Resolved P)} {hashes : NameMap Bytes}
    {gathered : NameMap (Emission P)} {x : Assembly P resolved.entries}
    (hx : Runs (assembleFrom t options set hashes gathered resolved.entries) s x s')
    (hhash : ∀ e ∈ resolved.entries, Program.hash e.2.program = e.2.hash) :
    (assembledBundle t set options resolved x).hashes = resolvedHashes resolved := by
  refine NameMap.ext_get? fun n => ?_
  rw [Bundle.hashes, resolvedHashes, NameMap.get?_map, NameMap.get?_map]
  cases hv : (assembledBundle t set options resolved x).validators.get? n with
  | some v =>
    obtain ⟨⟨_, r⟩, hr, rfl, -, heq⟩ := isOf_of_runs_assembleFrom hx hhash (n, v)
      (NameMap.get?_eq_some_iff.mp hv)
    rw [NameMap.get?_eq_some_iff.mpr hr, Option.map_some, Option.map_some, heq]
  | none =>
    have hn : n ∉ resolved.names :=
      NameMap.names_withNames resolved x.1.1 x.1.2 ▸ NameMap.get?_eq_none_iff.mp hv
    rw [NameMap.get?_eq_none_iff.mpr hn]
    rfl

/-- A set compiles to validators of its names. -/
theorem names_of_runs_compileAlong {order : List String} {b : Bundle P}
    (h : Runs (compileAlong t set options order) s b s')
    (horder : ∀ n, n ∈ order ↔ n ∈ set.validators.names) :
    b.validators.names = set.validators.names := by
  obtain ⟨resolved, _, x, hresolved, -, rfl⟩ := runs_compileAlong_iff.mp h
  refine (NameMap.names_withNames resolved x.1.1 x.1.2).trans ?_
  refine NameMap.names_eq_of_mem_iff fun n => ?_
  rw [mem_names_of_runs_resolveFrom hresolved, horder, and_self]
  exact or_iff_right List.not_mem_nil

/-! ## 6. Restored bundles -/

namespace Work

/-- Whatever stands in what was made of some entries was made of the entry of its name. -/
theorem of_runs_eachEntry {f : String → α → Work σ β} {es : List (String × α)}
    {x : { bs : List (String × β) // bs.map (·.1) = es.map (·.1) }}
    (h : Runs (eachEntry f es) s x s') :
    ∀ e ∈ x.1, ∃ a s₁ s₂, (e.1, a) ∈ es ∧ Runs (f e.1 a) s₁ e.2 s₂ := by
  induction es generalizing s with
  | nil =>
    obtain ⟨rfl, -⟩ := runs_pure_iff.mp h
    exact List.forall_mem_nil _
  | cons e es ih =>
    obtain ⟨b, s₁, hb, h⟩ := runs_bind_iff.mp h
    obtain ⟨y, s₂, hy, h⟩ := runs_bind_iff.mp h
    obtain ⟨rfl, rfl⟩ := runs_pure_iff.mp h
    refine List.forall_mem_cons.mpr ⟨⟨e.2, s, s₁, List.mem_cons_self, hb⟩, fun e' he' => ?_⟩
    obtain ⟨a, r, r', hmem, hruns⟩ := ih hy e' he'
    exact ⟨a, r, r', List.mem_cons_of_mem _ hmem, hruns⟩

theorem of_runs_onEach {f : String → α → Work σ β} {m : NameMap α} {m' : NameMap β}
    (h : Runs (onEach f m) s m' s') : m'.names = m.names ∧
      ∀ e ∈ m'.entries, ∃ a s₁ s₂, (e.1, a) ∈ m.entries ∧ Runs (f e.1 a) s₁ e.2 s₂ := by
  obtain ⟨x, _, hx, h⟩ := runs_bind_iff.mp h
  obtain ⟨rfl, -⟩ := runs_pure_iff.mp h
  exact ⟨NameMap.names_withNames m x.1 x.2, of_runs_eachEntry hx⟩

end Work

theorem name_of_runs_ofRecord {r : ValidatorRecord} {v : CompiledValidator P}
    (h : Runs (CompiledValidator.ofRecord t name r) s v s') : v.name = name := by
  simp only [CompiledValidator.ofRecord, runs_bind_iff] at h
  obtain ⟨_, _, -, _, _, -, _, _, -, h⟩ := h
  split at h
  · obtain ⟨_, _, hthrow, -⟩ := runs_bind_iff.mp h
    cases hthrow
  · simp only [runs_bind_iff, runs_pure_iff] at h
    obtain ⟨_, _, -, _, _, -, _, _, -, rfl, -⟩ := h
    rfl

/-- **Restored bundles.**  A restored bundle has the names of its record, and has the hashes that
are expected. -/
theorem of_runs_restoreSet {record : BuildRecord} {b : Bundle P}
    (h : Runs (restoreSet t set options record) s b s') :
    b.fromCache = true ∧ b.validators.names = record.validators.names ∧
      (∀ name v, (name, v) ∈ b.validators.entries → v.name = name) ∧
      checkHashes options b = .ok () := by
  simp only [restoreSet, Bundle.ofRecord, runs_bind_iff, runs_ofResult_iff, runs_pure_iff] at h
  obtain ⟨_, _, ⟨validators, _, hvalidators, userFuncs, _, -, rfl, -⟩,
    _, _, ⟨hcheck, -⟩, rfl, -⟩ := h
  obtain ⟨hnames, hrestored⟩ := of_runs_onEach hvalidators
  refine ⟨rfl, hnames, fun name v hmem => ?_, hcheck⟩
  obtain ⟨_, _, _, -, hruns⟩ := hrestored (name, v) hmem
  exact name_of_runs_ofRecord hruns

/-! ## 7. Builds without a cache -/

/-- A build without a cache compiles what has been declared. -/
theorem build_none {κ : Type} [Backend κ] (hdeclared : checkDeclared set options = .ok ()) (s : σ) :
    build t set options (none : Option (Cache κ)) s =
      ⟨((compileSet t set options).outcome s).1, none,
        ((compileSet t set options).outcome s).2⟩ := by
  rw [build, hdeclared]

/-- A build without a cache that succeeds has compiled its set along an order of compilation. -/
theorem exists_runs_of_build {κ : Type} [Backend κ] {b : Bundle P}
    (h : (build t set options (none : Option (Cache κ)) s).outcome = .ok b) :
    ∃ order s', compilationOrder set = .ok order ∧
      Runs (compileAlong t set options order) s b s' := by
  cases hdeclared : checkDeclared set options with
  | error e =>
    rw [build, hdeclared] at h
    cases h
  | ok =>
    rw [build_none hdeclared] at h
    obtain ⟨order, horder, hruns⟩ := runs_compileSet_iff.mp (Prod.ext h rfl)
    exact ⟨order, _, horder, hruns⟩

end ScriptBundle

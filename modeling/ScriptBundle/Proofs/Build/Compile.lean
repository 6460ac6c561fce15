/-
# What a compiled bundle is like, whatever the toolchain remembers

With a faithful toolchain a set compiles if every step of both passes gives a result.  The first
pass resolves each validator (`gives_resolve_iff`), the second assembles it (`gives_assemble_iff`).
In this form a step can be carried over to another build: it says what has to be shown for the step
to succeed there.

What a pass as a whole has done holds of every run of it, so it holds here too
(`isOf_of_gives_compileSet`).
-/
import ScriptBundle.Proofs.Build.Run

namespace ScriptBundle

open Work

variable {σ P : Type} [Nonempty σ] [Program P] {t : Toolchain σ P} {options : BuildOptions}
  {set : ValidatorSet} {name : String}

/-! ## 1. Steps that succeed -/

/-- A validator is resolved if it compiles and its hash is not refused. -/
theorem gives_resolve_iff (ht : t.Faithful) {resolved next : NameMap (Resolved P)} {v : Validator} :
    Gives (resolve t options set resolved name v) next ↔
      ∃ modules output emitted, set.importedModules name v = .ok modules ∧
        Gives (compileRequest t
          (firstRequest options set (resolvedHashes resolved) name v modules)) (output, emitted) ∧
        options.checkExpected name (Program.hash output.program) = .ok () ∧
        resolved.insert name
          ⟨v, output.program, Program.hash output.program, output.diagnostics⟩ = next := by
  constructor
  · intro h
    obtain ⟨s, s', hruns⟩ := h.exists_runs
    obtain ⟨modules, output, emitted, hmodules, hcompile, hexpected, hnext⟩ :=
      runs_resolve_iff.mp hruns
    exact ⟨modules, output, emitted, hmodules,
      (settled_compileRequest ht _).gives_of_runs hcompile, hexpected, hnext⟩
  · rintro ⟨modules, output, emitted, hmodules, hcompile, hexpected, hnext⟩ s
    obtain ⟨s', hruns⟩ := hcompile.runs s
    exact exists_runs_iff.mp ⟨s', runs_resolve_iff.mpr
      ⟨modules, output, emitted, hmodules, hruns, hexpected, hnext⟩⟩

theorem gives_resolveFrom_cons_iff (ht : t.Faithful) {resolved last : NameMap (Resolved P)}
    {v : Validator} {rest : List String} (hv : set.validators.get? name = some v) :
    Gives (resolveFrom t options set resolved (name :: rest)) last ↔
      ∃ next, Gives (resolve t options set resolved name v) next ∧
        Gives (resolveFrom t options set next rest) last := by
  rw [resolveFrom, hv]
  exact gives_bind_iff (settled_resolve ht resolved name v) fun next =>
    settled_resolveFrom ht next rest

/-- A validator is assembled if it compiles and its schemas are well-formed. -/
theorem gives_assemble_iff (ht : t.Faithful) {hashes : NameMap Bytes} {excluded : List String}
    {r : Resolved P} {x : CompiledValidator P × List (Emission P)} :
    Gives (assemble t options set hashes excluded name r) x ↔
      ∃ modules output redeemer datum, set.importedModules name r.validator = .ok modules ∧
        Gives (compileRequest t (secondRequest options set hashes excluded name r modules))
          (output, x.2) ∧
        validatorCodec name r.validator.redeemer options.network = .ok redeemer ∧
        optionalCodec name r.validator.datum options.network = .ok datum ∧
        assembled t options hashes name r output redeemer datum = x.1 := by
  constructor
  · intro h
    obtain ⟨s, s', hruns⟩ := h.exists_runs
    obtain ⟨modules, output, redeemer, datum, hmodules, hcompile, hr, hd, hx⟩ :=
      runs_assemble_iff.mp hruns
    exact ⟨modules, output, redeemer, datum, hmodules,
      (settled_compileRequest ht _).gives_of_runs hcompile, hr, hd, hx⟩
  · rintro ⟨modules, output, redeemer, datum, hmodules, hcompile, hr, hd, hx⟩ s
    obtain ⟨s', hruns⟩ := hcompile.runs s
    exact exists_runs_iff.mp ⟨s', runs_assemble_iff.mpr
      ⟨modules, output, redeemer, datum, hmodules, hruns, hr, hd, hx⟩⟩

theorem gives_assembleFrom_cons_iff (ht : t.Faithful) {hashes : NameMap Bytes}
    {gathered : NameMap (Emission P)} {r : Resolved P} {rest : List (String × Resolved P)}
    {x : Assembly P ((name, r) :: rest)} :
    Gives (assembleFrom t options set hashes gathered ((name, r) :: rest)) x ↔
      ∃ (v : CompiledValidator P) (emitted : List (Emission P)) (y : Assembly P rest),
        Gives (assemble t options set hashes gathered.names name r) (v, emitted) ∧
        Gives (assembleFrom t options set hashes (gather gathered emitted) rest) y ∧
        x.1.1 = (name, v) :: y.1.1 ∧ x.2 = y.2 := by
  constructor
  · intro h
    obtain ⟨s, s', hruns⟩ := h.exists_runs
    obtain ⟨v, emitted, s₁, y, hassemble, hy, hvalidators, hgathered⟩ :=
      runs_assembleFrom_cons_iff.mp hruns
    exact ⟨v, emitted, y, (settled_assemble ht _ _ _ _).gives_of_runs hassemble,
      (settled_assembleFrom ht _ _ _).gives_of_runs hy, hvalidators, hgathered⟩
  · rintro ⟨v, emitted, y, hassemble, hy, hvalidators, hgathered⟩ s
    obtain ⟨s₁, hfirst⟩ := hassemble.runs s
    obtain ⟨s', hrest⟩ := hy.runs s₁
    exact exists_runs_iff.mp ⟨s', runs_assembleFrom_cons_iff.mpr
      ⟨v, emitted, s₁, y, hfirst, hrest, hvalidators, hgathered⟩⟩

/-- A set compiles if there is an order of compilation and both passes succeed. -/
theorem gives_compileSet_iff (ht : t.Faithful) {b : Bundle P} :
    Gives (compileSet t set options) b ↔
      ∃ (order : List String) (resolved : NameMap (Resolved P)) (x : Assembly P resolved.entries),
        compilationOrder set = .ok order ∧
        Gives (resolveFrom t options set .empty order) resolved ∧
        Gives (assembleFrom t options set (resolvedHashes resolved) .empty resolved.entries) x ∧
        assembledBundle t set options resolved x = b := by
  constructor
  · intro h
    obtain ⟨s, s', hruns⟩ := h.exists_runs
    obtain ⟨order, horder, halong⟩ := runs_compileSet_iff.mp hruns
    obtain ⟨resolved, s₁, x, hresolved, hx, hb⟩ := runs_compileAlong_iff.mp halong
    exact ⟨order, resolved, x, horder, (settled_resolveFrom ht _ _).gives_of_runs hresolved,
      (settled_assembleFrom ht _ _ _).gives_of_runs hx, hb⟩
  · rintro ⟨order, resolved, x, horder, hresolved, hx, hb⟩ s
    obtain ⟨s₁, hfirst⟩ := hresolved.runs s
    obtain ⟨s', hsecond⟩ := hx.runs s₁
    exact exists_runs_iff.mp ⟨s', runs_compileSet_iff.mpr ⟨order, horder,
      runs_compileAlong_iff.mpr ⟨resolved, s₁, x, hfirst, hsecond, hb⟩⟩⟩

/-! ## 2. Passes and bundles -/

/-- Whatever the first pass gives is sound. -/
theorem isSound_of_gives_resolveFrom {resolved last : NameMap (Resolved P)} {order : List String}
    (h : Gives (resolveFrom t options set resolved order) last)
    (hresolved : ∀ n r, resolved.get? n = some r → r.IsSound options n) :
    ∀ n r, last.get? n = some r → r.IsSound options n := by
  obtain ⟨_, _, hruns⟩ := h.exists_runs
  exact isSound_of_runs_resolveFrom hruns hresolved

/-- What is resolved stays as it is unless its name comes up again. -/
theorem get?_of_gives_resolveFrom {resolved last : NameMap (Resolved P)} {order : List String}
    (h : Gives (resolveFrom t options set resolved order) last) (hname : name ∉ order) :
    last.get? name = resolved.get? name := by
  obtain ⟨_, _, hruns⟩ := h.exists_runs
  exact get?_of_runs_resolveFrom hruns hname

theorem isOf_of_gives_assembleFrom {hashes : NameMap Bytes}
    {gathered : NameMap (Emission P)} {entries : List (String × Resolved P)}
    {x : Assembly P entries} (h : Gives (assembleFrom t options set hashes gathered entries) x)
    (hhash : ∀ e ∈ entries, Program.hash e.2.program = e.2.hash) :
    ∀ e' ∈ x.1.1, ∃ e ∈ entries,
      e.1 = e'.1 ∧ e'.2.IsOf t options e.1 ∧ e'.2.hash = e.2.hash := by
  obtain ⟨_, _, hruns⟩ := h.exists_runs
  exact isOf_of_runs_assembleFrom hruns hhash

/-- **Compiled bundles.**  A compiled bundle has the build's key, is as the build makes it, and has
the hashes that are expected. -/
theorem isOf_of_gives_compileSet {b : Bundle P} (h : Gives (compileSet t set options) b) :
    b.key = buildKey t set options ∧ b.fromCache = false ∧ b.IsOf t options set.indices ∧
      checkHashes options b = .ok () := by
  obtain ⟨_, _, hruns⟩ := h.exists_runs
  obtain ⟨order, -, hruns⟩ := runs_compileSet_iff.mp hruns
  exact isOf_of_runs_compileAlong hruns

theorem checkHashes_of_gives_compileSet {b : Bundle P} (h : Gives (compileSet t set options) b) :
    checkHashes options b = .ok () :=
  (isOf_of_gives_compileSet h).2.2.2

end ScriptBundle

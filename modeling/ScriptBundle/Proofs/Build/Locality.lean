/-
# Hashes are local

The hash of a validator is decided by what it is compiled from, and that is little: its source, the
modules that it imports, and the hashes that it embeds, which are those of the validators that it
declares to depend on, and so on.  Two sets of validators of the same names and purposes may differ
in everything else, in other validators, other modules and schemas, and their builds in the hashes
that are expected and in what is kept for debugging; a validator whose dependencies are declared
alike in both, all the way down, has the same hash and the same optimized program in both
(`hash_local`).

The two builds compile in different orders, and at any moment they know different hashes.  Neither
matters: whenever the turn of a validator comes, it is compiled as if all hashes were known that are
known in the end (`comesOf_of_runs_compileAlong`), since of these it is told no others than those of
its dependencies.  So the requests are compared with the hashes of the two bundles in them, by
induction along the order of compilation of one of the sets.
-/
import ScriptBundle.Proofs.Build.Requests

namespace ScriptBundle

open Work Relation

variable {σ κ P : Type} {t : Toolchain σ P} {options options' : BuildOptions}
  {set set' : ValidatorSet} {name : String}

/-! ## 1. What a validator is compiled from -/

/-- What comes of a request does not depend on what the toolchain remembers. -/
def Toolchain.IsPure (t : Toolchain σ P) : Prop :=
  ∀ request s s', (t.compile request s).1 = (t.compile request s').1

theorem Toolchain.IsPure.unique (ht : t.IsPure) {request : Request} {s₁ s₂ r₁ r₂ : σ}
    {x y : Output P × List (Emission P)} (hx : Runs (compileRequest t request) s₁ x s₂)
    (hy : Runs (compileRequest t request) r₁ y r₂) : x = y := by
  have hsame : (t.compile request s₁).1 = (t.compile request r₁).1 := ht request s₁ r₁
  have hx := congrArg Prod.fst (runs_ofTool_iff.mp hx)
  have hy := congrArg Prod.fst (runs_ofTool_iff.mp hy)
  dsimp only at hx hy
  rw [hsame] at hx
  exact Except.ok.inj (hx.symm.trans hy)

/-- Two declarations of a validator, in two sets, call for the same program: they have the same
source, import the same modules with the same sources, embed the same hashes and agree on whether
the validator needs its own. -/
structure ValidatorSet.SameCode (set set' : ValidatorSet) (name : String) (v w : Validator) :
    Prop where
  source : v.source = w.source
  modules : v.modules = w.modules
  moduleSources : ∀ m ∈ v.modules, set.modules.get? m = set'.modules.get? m
  hashDependencies : ∀ d, d ∈ v.hashDependencies ↔ d ∈ w.hashDependencies
  needsOwnHash : v.needsOwnHash name = w.needsOwnHash name

namespace ValidatorSet.SameCode

variable {v w : Validator}

theorem importedModules_eq (h : set.SameCode set' name v w) :
    set.importedModules name v = set'.importedModules name w := by
  rw [importedModules, importedModules, ← h.modules]
  have hsources := h.moduleSources
  generalize v.modules = ms at hsources ⊢
  induction ms with
  | nil => rfl
  | cons m ms ih =>
    obtain ⟨hm, hms⟩ := List.forall_mem_cons.mp hsources
    rw [List.mapM_cons, List.mapM_cons, hm, ih hms]

theorem mem_externalDependencies_iff (h : set.SameCode set' name v w) {d : String} :
    d ∈ v.externalDependencies name ↔ d ∈ w.externalDependencies name := by
  simp only [Validator.externalDependencies, List.mem_filter, h.hashDependencies d]

/-- Declarations that call for the same program are compiled by the same request, if what is known
of the hashes that they embed is the same. -/
theorem firstRequest_eq (h : set.SameCode set' name v w) (hpurposes : set.purposes = set'.purposes)
    (hnetwork : options.network = options'.network)
    (hparameters : options.parameters = options'.parameters) {hashes hashes' : NameMap Bytes}
    (hhashes : ∀ d ∈ v.externalDependencies name, hashes.get? d = hashes'.get? d)
    (modules : List (String × String)) :
    firstRequest options set hashes name v modules =
      firstRequest options' set' hashes' name w modules := by
  have hdeclared : ∀ n, (v.externalDependencies name).contains n =
      (w.externalDependencies name).contains n := by
    intro n
    rw [Bool.eq_iff_iff, List.contains_iff_mem, List.contains_iff_mem,
      h.mem_externalDependencies_iff]
  rw [firstRequest_congr hhashes]
  simp only [firstRequest, h.source, hnetwork, h.needsOwnHash, hparameters, hdeclared,
    references_eq_of_purposes hpurposes]

end ValidatorSet.SameCode

/-! ## 2. What a bundle was compiled from -/

/-- A program is what came of the request for a validator that goes with some hashes. -/
def ComesOf (t : Toolchain σ P) (options : BuildOptions) (set : ValidatorSet)
    (hashes : NameMap Bytes) (name : String) (v : Validator) (program : P) : Prop :=
  ∃ modules output emitted s₁ s₂, set.importedModules name v = .ok modules ∧
    Runs (compileRequest t (firstRequest options set hashes name v modules)) s₁
      (output, emitted) s₂ ∧ output.program = program

variable [Program P]

/-- **The loop of the first pass.**  Every validator is compiled as if all hashes were known that
are known in the end. -/
theorem comesOf_of_runs_resolveFrom {resolved last : NameMap (Resolved P)}
    {before order : List String} {s s' : σ}
    (h : Runs (resolveFrom t options set resolved order) s last s')
    (horder : set.inOrder before order) (hnodup : order.Nodup)
    (hbefore : ∀ n ∈ before, n ∉ order) :
    ∀ n ∈ order, ∀ v, set.validators.get? n = some v → ∃ r, last.get? n = some r ∧
      ComesOf t options set (resolvedHashes last) n v r.program := by
  induction order generalizing resolved before s with
  | nil => exact List.forall_mem_nil _
  | cons name rest ih =>
    obtain ⟨⟨hname, hdeps⟩, hrest⟩ := ValidatorSet.inOrder_cons_iff.mp horder
    obtain ⟨hnew, hnodup⟩ := List.nodup_cons.mp hnodup
    obtain ⟨v, hv⟩ := NameMap.mem_names_iff.mp hname
    obtain ⟨next, s₁, hstep, hlast⟩ := (runs_resolveFrom_cons_iff hv).mp h
    have hbefore' := not_mem_of_not_mem_cons hnew hbefore
    refine List.forall_mem_cons.mpr ⟨fun w hw => ?_, ih hlast hrest hnodup hbefore'⟩
    obtain rfl := Option.some.inj (hv.symm.trans hw)
    obtain ⟨modules, output, emitted, hmodules, hcompile, -, rfl⟩ := runs_resolve_iff.mp hstep
    obtain ⟨hfound, hkept⟩ := kept_of_runs_resolveFrom hlast hdeps hbefore'
    rw [firstRequest_of_kept hv hkept] at hcompile
    exact ⟨_, hfound, modules, output, emitted, s, s₁, hmodules, hcompile, rfl⟩

/-- **Compiled bundles.**  The optimized program of every validator comes of the request that tells
it the hashes of the bundle. -/
theorem comesOf_of_runs_compileAlong {order : List String} {b : Bundle P} {s s' : σ}
    (h : Runs (compileAlong t set options order) s b s')
    (hperm : order.Perm set.validators.names) (horder : set.inOrder [] order) {v : Validator}
    (hv : set.validators.get? name = some v) : ∃ c, b.validators.get? name = some c ∧
      ComesOf t options set b.hashes name v c.programs.optimized ∧
      Program.hash c.programs.optimized = c.hash := by
  have hname : name ∈ set.validators.names := NameMap.mem_names_iff.mpr ⟨v, hv⟩
  have hnames := names_of_runs_compileAlong h fun n => hperm.mem_iff
  obtain ⟨c, hc⟩ := NameMap.mem_names_iff.mp (hnames ▸ hname)
  obtain ⟨-, -, hof, -⟩ := isOf_of_runs_compileAlong h
  have hhash : Program.hash c.programs.optimized = c.hash :=
    (hof.validators name c (NameMap.get?_eq_some_iff.mp hc)).hash_eq
  obtain ⟨resolved, s₁, x, hresolved, hx, rfl⟩ := runs_compileAlong_iff.mp h
  obtain ⟨r, hr, hcomes⟩ := comesOf_of_runs_resolveFrom hresolved horder
    (hperm.nodup_iff.mpr set.validators.names_nodup) (List.forall_mem_nil _) name
    (hperm.mem_iff.mpr hname) v hv
  -- The second pass keeps the program of the first.
  obtain ⟨e, he, hsame, _, _, _, _, hassemble⟩ :=
    of_runs_assembleFrom hx (name, c) (NameMap.get?_eq_some_iff.mp hc)
  obtain rfl : e = (name, r) :=
    NameMap.eq_of_mem_entries he (NameMap.get?_eq_some_iff.mp hr) hsame
  obtain ⟨_, _, _, _, -, -, -, -, rfl⟩ := runs_assemble_iff.mp hassemble
  refine ⟨_, hc, ?_, hhash⟩
  rw [hashes_assembledBundle hx fun e he => (isSound_of_runs_resolveAll hresolved e he).hash_eq]
  exact hcomes

/-! ## 3. Two builds -/

/-- All that a validator depends on, itself included, is declared for the same programs in two
sets. -/
def ValidatorSet.SameClosure (set set' : ValidatorSet) (name : String) : Prop :=
  ∀ n, ReflTransGen set.DependsOn name n → ∃ v w, set.validators.get? n = some v ∧
    set'.validators.get? n = some w ∧ set.SameCode set' n v w

/-- **The induction.**  Along the order of compilation of one of two sets, all hashes that a
validator embeds are the same in both bundles, and so the validator is compiled by the same
request. -/
theorem hash_eq_of_runs_compileAlong (ht : t.IsPure) (hpurposes : set.purposes = set'.purposes)
    (hnetwork : options.network = options'.network)
    (hparameters : options.parameters = options'.parameters) {order order' : List String}
    {b b' : Bundle P} {s₁ s₂ r₁ r₂ : σ} (h : Runs (compileAlong t set options order) s₁ b s₂)
    (h' : Runs (compileAlong t set' options' order') r₁ b' r₂)
    (hperm : order.Perm set.validators.names) (hperm' : order'.Perm set'.validators.names)
    (horder : set.inOrder [] order) (horder' : set'.inOrder [] order')
    (hclosure : set.SameClosure set' name) :
    ∃ c c', b.validators.get? name = some c ∧ b'.validators.get? name = some c' ∧
      c.hash = c'.hash ∧ c.programs.optimized = c'.programs.optimized := by
  induction hindex : order.idxOf name using Nat.strong_induction_on generalizing name with
  | _ index ih =>
  obtain ⟨v, w, hv, hw, hsame⟩ := hclosure name .refl
  obtain ⟨c, hc, ⟨modules, output, _, _, _, hmodules, hcompile, hprogram⟩, hhash⟩ :=
    comesOf_of_runs_compileAlong h hperm horder hv
  obtain ⟨c', hc', ⟨modules', output', _, _, _, hmodules', hcompile', hprogram'⟩, hhash'⟩ :=
    comesOf_of_runs_compileAlong h' hperm' horder' hw
  have hdeps : ∀ d ∈ v.externalDependencies name, b.hashes.get? d = b'.hashes.get? d := by
    intro d hd
    have hdep : set.DependsOn name d := ValidatorSet.dependsOn_iff.mpr ⟨v, hv, hd⟩
    have hmem : name ∈ order := hperm.mem_iff.mpr hdep.mem_names
    have hlt := ValidatorSet.idxOf_lt_of_inOrder horder hdep hmem
    obtain ⟨e, e', he, he', heq, -⟩ :=
      ih _ (hindex ▸ hlt) (fun n hn => hclosure n (.head hdep hn)) rfl
    rw [Bundle.hashes, Bundle.hashes, NameMap.get?_map, NameMap.get?_map, he, he', Option.map_some,
      Option.map_some, heq]
  obtain rfl : modules = modules' := by
    rw [hsame.importedModules_eq, hmodules'] at hmodules
    exact (Except.ok.inj hmodules).symm
  rw [hsame.firstRequest_eq hpurposes hnetwork hparameters hdeps] at hcompile
  obtain rfl : output = output' := congrArg Prod.fst (ht.unique hcompile hcompile')
  have hoptimized : c.programs.optimized = c'.programs.optimized := hprogram.symm.trans hprogram'
  exact ⟨c, c', hc, hc', by rw [← hhash, ← hhash', hoptimized], hoptimized⟩

variable [Backend κ]

/-- **Hashes are local.**  Two sets of validators of the same names and purposes are built without a
cache, for the same network and with the same parameters, and both builds succeed.  If all that a
validator depends on, itself included, has the same source in both sets, the same modules with the
same sources, the same dependencies and the same need of its own hash, then the validator has the
same hash and the same optimized program in both bundles, whatever else the sets and the builds'
options are. -/
theorem hash_local (ht : t.IsPure) (hpurposes : set.purposes = set'.purposes)
    (hnetwork : options.network = options'.network)
    (hparameters : options.parameters = options'.parameters) {b b' : Bundle P} {s s' : σ}
    (h : (build t set options (none : Option (Cache κ)) s).outcome = .ok b)
    (h' : (build t set' options' (none : Option (Cache κ)) s').outcome = .ok b')
    (hclosure : set.SameClosure set' name) :
    ∃ c c', b.validators.get? name = some c ∧ b'.validators.get? name = some c' ∧
      c.hash = c'.hash ∧ c.programs.optimized = c'.programs.optimized := by
  obtain ⟨order, _, horder, hruns⟩ := exists_runs_of_build h
  obtain ⟨order', _, horder', hruns'⟩ := exists_runs_of_build h'
  obtain ⟨hperm, hin⟩ := order_of_compilationOrder horder
  obtain ⟨hperm', hin'⟩ := order_of_compilationOrder horder'
  exact hash_eq_of_runs_compileAlong ht hpurposes hnetwork hparameters hruns hruns' hperm hperm'
    hin hin' hclosure

namespace Example

/-- A policy that embeds the hash of another, and a third one that embeds the first's. -/
def listed : ValidatorSet where
  validators :=
    ⟨[("fee", minting []), ("report", minting ["sale"]),
      ("sale", { minting ["fee"] with source := "hash fee" })], by decide⟩
  modules := .empty

/-- The same policies, with another report, other schemas, and a dependency that is listed twice. -/
def relisted : ValidatorSet where
  validators :=
    ⟨[("fee", { minting [] with redeemer := .primitive .byteArray }),
      ("report", { minting [] with source := "of its own" }),
      ("sale", { minting ["fee", "fee"] with source := "hash fee" })], by decide⟩
  modules := ⟨[("unused", "")], by decide⟩

theorem sameClosure_listed : listed.SameClosure relisted "sale" := by
  intro n hn
  have hreached : n = "sale" ∨ n = "fee" := by
    induction hn with
    | refl => exact .inl rfl
    | tail _ hdep ih =>
      obtain ⟨v, hv, hmem, -⟩ := hdep
      rcases ih with rfl | rfl
      · cases hv
        exact .inr (List.mem_singleton.mp hmem)
      · cases hv
        cases hmem
  rcases hreached with rfl | rfl
  · exact ⟨_, _, rfl, rfl, rfl, rfl, List.forall_mem_nil _, by simp [minting], rfl⟩
  · exact ⟨_, _, rfl, rfl, rfl, rfl, List.forall_mem_nil _, fun _ => .rfl, rfl⟩

/-- Another build for the same network and with the same parameters. -/
def retried : BuildOptions := { plain with debug := true }

/-- The sale has one hash in both builds, and the report, which depends on it in one of them,
two. -/
theorem hash_local_listed :
    compiler.IsPure ∧ listed.purposes = relisted.purposes ∧ listed.SameClosure relisted "sale" ∧
      ∃ b b', (build compiler listed plain (none : Option (Cache MemoryStore)) ()).outcome = .ok b ∧
        (build compiler relisted retried (none : Option (Cache MemoryStore)) ()).outcome =
          .ok b' ∧
        (∃ c c', b.validators.get? "sale" = some c ∧ b'.validators.get? "sale" = some c' ∧
          c.hash = c'.hash ∧ c.programs.optimized = c'.programs.optimized) ∧
        b.hashes.get? "report" ≠ b'.hashes.get? "report" := by
  have hpure : compiler.IsPure := fun _ _ _ => rfl
  have hpurposes : listed.purposes = relisted.purposes := rfl
  have hnetwork : plain.network = retried.network := rfl
  have hparameters : plain.parameters = retried.parameters := rfl
  refine ⟨hpure, hpurposes, sameClosure_listed, ?_⟩
  have hchecks : ((build compiler listed plain (none : Option (Cache MemoryStore))
      ()).outcome.toOption.any fun b => (build compiler relisted retried
        (none : Option (Cache MemoryStore)) ()).outcome.toOption.any fun b' =>
          b.hashes.get? "report" ≠ b'.hashes.get? "report") = true := by
    decide +kernel
  obtain ⟨b, hb, hb_checks⟩ := exists_ok_of_any hchecks
  obtain ⟨b', hb', hreport⟩ := exists_ok_of_any hb_checks
  have hsale := hash_local hpure hpurposes hnetwork hparameters hb hb' sameClosure_listed
  exact ⟨b, b', hb, hb', hsale, of_decide_eq_true hreport⟩

end Example

end ScriptBundle

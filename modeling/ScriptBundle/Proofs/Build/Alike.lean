/-
# Builds that cannot be told apart

Two sets are alike if they differ in nothing but the order in which validators list their
dependencies, and two builds' options are alike if they differ in nothing but the hashes that are
expected.  Nothing that a toolchain is asked tells alike builds apart: they have one order of
compilation (`ValidatorSet.Alike.hashOrder_eq`) and their requests are the same.

So builds that are alike give the same bundle, as long as its hashes are the expected ones
(`gives_compileSet_of_alike`).
-/
import ScriptBundle.Proofs.Build.Compile
import ScriptBundle.Proofs.Build.Order

namespace ScriptBundle

open Work

/-! ## 1. Likeness -/

/-- Two declarations differ only in the order of their dependencies. -/
structure Validator.Alike (v w : Validator) : Prop where
  purpose : v.purpose = w.purpose
  source : v.source = w.source
  modules : v.modules = w.modules
  hashDependencies : v.hashDependencies.Perm w.hashDependencies
  dependsOnOwnHash : v.dependsOnOwnHash = w.dependsOnOwnHash
  redeemer : v.redeemer = w.redeemer
  datum : v.datum = w.datum

/-- Two sets have the same modules, and the same validators up to the order of dependencies. -/
structure ValidatorSet.Alike (s s' : ValidatorSet) : Prop where
  validators : NameMap.Rel Validator.Alike s.validators s'.validators
  modules : s.modules = s'.modules

/-- Two builds are asked for the same, the hashes that are expected apart. -/
structure BuildOptions.Alike (o o' : BuildOptions) : Prop where
  network : o.network = o'.network
  debug : o.debug = o'.debug
  parameters : o.parameters = o'.parameters

namespace Validator.Alike

variable {v w : Validator}

theorem refl (v : Validator) : v.Alike v := ⟨rfl, rfl, rfl, .refl _, rfl, rfl, rfl⟩

theorem symm (h : v.Alike w) : w.Alike v :=
  ⟨h.purpose.symm, h.source.symm, h.modules.symm, h.hashDependencies.symm,
    h.dependsOnOwnHash.symm, h.redeemer.symm, h.datum.symm⟩

theorem needsOwnHash_eq (h : v.Alike w) (name : String) :
    v.needsOwnHash name = w.needsOwnHash name := by
  rw [Validator.needsOwnHash, Validator.needsOwnHash, h.dependsOnOwnHash,
    h.hashDependencies.contains_eq]

theorem externalDependencies_perm (h : v.Alike w) (name : String) :
    (v.externalDependencies name).Perm (w.externalDependencies name) :=
  h.hashDependencies.filter _

end Validator.Alike

/-- What is asked for, with no hash expected. -/
def BuildOptions.anyHash (o : BuildOptions) : BuildOptions := { o with expected := .empty }

theorem BuildOptions.Alike.anyHash {o o' : BuildOptions} (h : o.Alike o') : o'.Alike o.anyHash :=
  ⟨h.network.symm, h.debug.symm, h.parameters.symm⟩

theorem checkHashes_anyHash {P : Type} (o : BuildOptions) (b : Bundle P) :
    checkHashes o.anyHash b = .ok () :=
  forM_eq_ok_iff.mpr fun _ _ => rfl

theorem BuildOptions.Alike.keep_eq {o o' : BuildOptions} (h : o.Alike o') : o.keep = o'.keep := by
  funext d
  rw [BuildOptions.keep, BuildOptions.keep, h.debug]

namespace ValidatorSet

/-- Indices are told by the names alone. -/
theorem indices_eq_of_names {s s' : ValidatorSet} (h : s.validators.names = s'.validators.names) :
    s.indices = s'.indices := by
  refine NameMap.ext ?_
  change s.validators.names.zipIdx = s'.validators.names.zipIdx
  rw [h]

/-- Which validators there are and for which purposes. -/
def purposes (s : ValidatorSet) : NameMap Purpose := s.validators.map fun _ v => v.purpose

/-- What a toolchain is told of the other validators is told by their purposes, apart from the
hashes. -/
theorem references_eq_of_purposes {s s' : ValidatorSet} (h : s.purposes = s'.purposes)
    (known : String → Option Bytes) : s.references known = s'.references known := by
  have hsplit : ∀ s : ValidatorSet, s.references known =
      s.purposes.entries.zipIdx.map fun e =>
        ⟨e.1.1, e.1.2.hashType, e.2, (known e.1.1).getD []⟩ := by
    intro s
    change _ = ((s.validators.entries.map fun e => (e.1, e.2.purpose)).zipIdx.map _)
    rw [references, List.zipIdx_map, List.map_map]
    rfl
  rw [hsplit, hsplit, h]

/-! ## 2. One order of compilation -/

/-- A walk looks at nothing but dependents. -/
theorem Walk.visit_congr {s s' : ValidatorSet} (h : s.dependents = s'.dependents) :
    Walk.visit s = Walk.visit s' := by
  funext fuel
  induction fuel with
  | zero => rfl
  | succ fuel ih =>
    funext w name
    rw [Walk.visit, Walk.visit, h, ih]

namespace Alike

variable {s s' : ValidatorSet} {name : String}

theorem refl (s : ValidatorSet) : s.Alike s := ⟨.refl Validator.Alike.refl _, rfl⟩

theorem symm (h : s.Alike s') : s'.Alike s :=
  ⟨h.validators.symm.imp fun _ _ ⟨hname, hv⟩ => ⟨hname, hv.symm⟩, h.modules.symm⟩

theorem dependents_eq (h : s.Alike s') : s.dependents = s'.dependents := by
  funext name
  rw [dependents, dependents, List.flatMap_def, List.flatMap_def]
  refine congrArg List.flatten (h.validators.map_entries_eq fun n v w hv => ?_)
  have hperm := (hv.externalDependencies_perm n).filter (· = name)
  simp only [List.map_const', hperm.length_eq]

theorem size_eq (h : s.Alike s') : s.size = s'.size := by
  have hlength := congrArg List.length h.validators.names_eq
  rwa [NameMap.names, NameMap.names, List.length_map, List.length_map] at hlength

theorem visitAll_eq (h : s.Alike s') : Walk.visitAll s = Walk.visitAll s' := by
  funext names
  rw [Walk.visitAll, Walk.visitAll, Walk.visit_congr h.dependents_eq, h.size_eq]

theorem cycleMembers_eq (h : s.Alike s') : s.cycleMembers = s'.cycleMembers := by
  have hleads : s.leadsTo = s'.leadsTo := by
    funext name other
    rw [leadsTo, leadsTo, h.visitAll_eq]
  have hcomponent : s.component = s'.component := by
    funext name
    rw [component, component, h.validators.names_eq, hleads]
  rw [cycleMembers, cycleMembers, components, components, h.validators.names_eq, hcomponent]

theorem get?_none (h : s.Alike s') (hv : s.validators.get? name = none) :
    s'.validators.get? name = none := by
  cases hw : s'.validators.get? name with
  | none => rfl
  | some w =>
    obtain ⟨v, hv', -⟩ := h.symm.validators.get? hw
    rw [hv] at hv'
    cases hv'

theorem inOrder_eq (h : s.Alike s') (before names : List String) :
    s.inOrder before names = s'.inOrder before names := by
  induction names generalizing before with
  | nil => rfl
  | cons name rest ih =>
    rw [inOrder, inOrder, ih]
    refine congrArg (· && _) ?_
    cases hv : s.validators.get? name with
    | none => rw [h.get?_none hv]
    | some v =>
      obtain ⟨w, hw, halike⟩ := h.validators.get? hv
      rw [hw]
      exact (halike.externalDependencies_perm name).all_eq

/-- **One order.**  Alike sets are compiled in the same order, or have the same cycles. -/
theorem hashOrder_eq (h : s.Alike s') : s.hashOrder = s'.hashOrder := by
  rw [hashOrder, hashOrder, h.visitAll_eq, h.validators.names_eq, h.inOrder_eq, h.cycleMembers_eq]

/-! ## 3. What a toolchain is asked -/

theorem indices_eq (h : s.Alike s') : s.indices = s'.indices :=
  indices_eq_of_names h.validators.names_eq

theorem references_eq (h : s.Alike s') (known : String → Option Bytes) :
    s.references known = s'.references known :=
  references_eq_of_purposes (h.validators.map_eq fun _ _ _ hv => hv.purpose) known

theorem importedModules_eq (h : s.Alike s') {v w : Validator} (hv : v.Alike w) (name : String) :
    s.importedModules name v = s'.importedModules name w := by
  rw [importedModules, importedModules, hv.modules, h.modules]

end Alike

end ValidatorSet

section

variable {P : Type} {set set' : ValidatorSet} {options options' : BuildOptions} {v w : Validator}

theorem firstRequest_eq (hset : set.Alike set') (hoptions : options.Alike options')
    (hv : v.Alike w) (known : NameMap Bytes) (name : String) (modules : List (String × String)) :
    firstRequest options set known name v modules =
      firstRequest options' set' known name w modules := by
  have hknown : (fun n => if (v.externalDependencies name).contains n then known.get? n else none) =
      fun n => if (w.externalDependencies name).contains n then known.get? n else none := by
    funext n
    rw [(hv.externalDependencies_perm name).contains_eq]
  rw [firstRequest, firstRequest, hset.references_eq, hknown, hv.source, hv.needsOwnHash_eq,
    hoptions.network, hoptions.parameters]

theorem embeddedHashes_eq (hv : v.Alike w) (hashes : NameMap Bytes) :
    embeddedHashes hashes v = embeddedHashes hashes w := by
  refine NameMap.ofList_eq_of_mem_iff ?_ fun e => (hv.hashDependencies.filterMap _).mem_iff
  intro name b b' hb hb'
  obtain ⟨d, -, hd⟩ := List.mem_filterMap.mp hb
  obtain ⟨d', -, hd'⟩ := List.mem_filterMap.mp hb'
  obtain ⟨hash, hhash, heq⟩ := Option.map_eq_some_iff.mp hd
  obtain ⟨hash', hhash', heq'⟩ := Option.map_eq_some_iff.mp hd'
  cases heq
  cases heq'
  exact Option.some.inj (hhash.symm.trans hhash')

/-- What follows from a build follows from one with like options. -/
theorem Bundle.IsOf.of_alike {σ : Type} [Program P] {t : Toolchain σ P} {indices : NameMap Nat}
    {b : Bundle P} (h : b.IsOf t options indices) (hoptions : options.Alike options') :
    b.IsOf t options' indices := by
  refine ⟨fun name v hmem => ?_, fun name f hmem => ?_⟩
  · obtain ⟨hname, hversion, hhash, hredeemer, hdatum⟩ := h.validators name v hmem
    rw [hoptions.network] at hredeemer hdatum
    exact ⟨hname, hversion, hhash, hredeemer, hdatum⟩
  · obtain ⟨hname, hindices, hnetwork, hchecks⟩ := h.userFuncs name f hmem
    rw [hoptions.network] at hnetwork
    rw [hoptions.debug] at hchecks
    exact ⟨hname, hindices, hnetwork, hchecks⟩

/-- What two validators were resolved to is the same. -/
structure Resolved.Alike (r r' : Resolved P) : Prop where
  validator : r.validator.Alike r'.validator
  program : r.program = r'.program
  hash : r.hash = r'.hash
  diagnostics : r.diagnostics = r'.diagnostics

theorem secondRequest_eq (hset : set.Alike set') (hoptions : options.Alike options')
    {r r' : Resolved P} (hr : r.Alike r') (hashes : NameMap Bytes) (excluded : List String)
    (name : String) (modules : List (String × String)) :
    secondRequest options set hashes excluded name r modules =
      secondRequest options' set' hashes excluded name r' modules := by
  rw [secondRequest, secondRequest, hset.references_eq, hr.validator.source,
    hr.validator.needsOwnHash_eq, hr.hash, hoptions.network, hoptions.parameters]

end

/-! ## 4. Alike builds give the same -/

section

variable {σ P : Type} [Nonempty σ] [Program P] {t : Toolchain σ P} {set set' : ValidatorSet}
  {options options' : BuildOptions} {name : String}

/-- A validator is resolved alike, unless its hash is refused. -/
theorem gives_resolve_of_alike (ht : t.Faithful) (hset : set.Alike set')
    (hoptions : options.Alike options') {v w : Validator} (hv : v.Alike w)
    {resolved resolved' next : NameMap (Resolved P)}
    (hresolved : NameMap.Rel Resolved.Alike resolved resolved')
    (h : Gives (resolve t options set resolved name v) next)
    (hexpected : ∀ r, next.get? name = some r → options'.checkExpected name r.hash = .ok ()) :
    ∃ next', Gives (resolve t options' set' resolved' name w) next' ∧
      NameMap.Rel Resolved.Alike next next' := by
  obtain ⟨modules, output, emitted, hmodules, hcompile, -, rfl⟩ := (gives_resolve_iff ht).mp h
  have hhashes : resolvedHashes resolved = resolvedHashes resolved' :=
    hresolved.map_eq fun _ _ _ hr => hr.hash
  rw [hset.importedModules_eq hv] at hmodules
  rw [firstRequest_eq hset hoptions hv, hhashes] at hcompile
  refine ⟨_, (gives_resolve_iff ht).mpr ⟨modules, output, emitted, hmodules, hcompile, ?_, rfl⟩, ?_⟩
  · exact hexpected ⟨v, output.program, Program.hash output.program, output.diagnostics⟩
      (by rw [NameMap.get?_insert, if_pos rfl])
  · exact hresolved.insert ⟨hv, rfl, rfl, rfl⟩

/-- The first pass resolves alike whatever it resolves, unless a hash is refused. -/
theorem gives_resolveFrom_of_alike (ht : t.Faithful) (hset : set.Alike set')
    (hoptions : options.Alike options') {order : List String} (hnodup : order.Nodup)
    {resolved resolved' last : NameMap (Resolved P)}
    (hresolved : NameMap.Rel Resolved.Alike resolved resolved')
    (h : Gives (resolveFrom t options set resolved order) last)
    (hexpected : ∀ n r, last.get? n = some r → options'.checkExpected n r.hash = .ok ()) :
    ∃ last', Gives (resolveFrom t options' set' resolved' order) last' ∧
      NameMap.Rel Resolved.Alike last last' := by
  induction order generalizing resolved resolved' with
  | nil =>
    obtain rfl := gives_pure_iff.mp h
    exact ⟨resolved', gives_pure _, hresolved⟩
  | cons name rest ih =>
    obtain ⟨hname, hrest⟩ := List.nodup_cons.mp hnodup
    cases hv : set.validators.get? name with
    | none =>
      rw [resolveFrom_cons_of_none hv] at h
      rw [resolveFrom_cons_of_none (hset.get?_none hv)]
      exact ih hrest hresolved h
    | some v =>
      obtain ⟨w, hw, halike⟩ := hset.validators.get? hv
      obtain ⟨next, hstep, hlast⟩ := (gives_resolveFrom_cons_iff ht hv).mp h
      -- The hash is refused here or not at all: the name does not come up again.
      have hkept := get?_of_gives_resolveFrom hlast hname
      obtain ⟨next', hstep', hnext⟩ := gives_resolve_of_alike ht hset hoptions halike hresolved
        hstep fun r hr => hexpected name r (hkept.trans hr)
      obtain ⟨last', hlast', hrel⟩ := ih hrest hnext hlast
      exact ⟨last', (gives_resolveFrom_cons_iff ht hw).mpr ⟨next', hstep', hlast'⟩, hrel⟩

theorem gives_assemble_of_alike (ht : t.Faithful) (hset : set.Alike set')
    (hoptions : options.Alike options') {r r' : Resolved P} (hr : r.Alike r')
    {hashes : NameMap Bytes} {excluded : List String}
    {x : CompiledValidator P × List (Emission P)}
    (h : Gives (assemble t options set hashes excluded name r) x) :
    Gives (assemble t options' set' hashes excluded name r') x := by
  obtain ⟨modules, output, redeemer, datum, hmodules, hcompile, hredeemer, hdatum, hx⟩ :=
    (gives_assemble_iff ht).mp h
  rw [hset.importedModules_eq hr.validator] at hmodules
  rw [secondRequest_eq hset hoptions hr] at hcompile
  rw [hr.validator.redeemer, hoptions.network] at hredeemer
  rw [hr.validator.datum, hoptions.network] at hdatum
  have hsame : assembled t options hashes name r output redeemer datum =
      assembled t options' hashes name r' output redeemer datum := by
    rw [assembled, assembled, hr.validator.purpose, hr.hash, hr.program, hr.diagnostics,
      embeddedHashes_eq hr.validator, hoptions.keep_eq]
  rw [hsame] at hx
  exact (gives_assemble_iff ht).mpr
    ⟨modules, output, redeemer, datum, hmodules, hcompile, hredeemer, hdatum, hx⟩

/-- The second pass assembles the same from what was resolved alike. -/
theorem gives_assembleFrom_of_alike (ht : t.Faithful) (hset : set.Alike set')
    (hoptions : options.Alike options') {hashes : NameMap Bytes}
    {gathered : NameMap (Emission P)} {entries entries' : List (String × Resolved P)}
    (hentries : List.Forall₂ (fun e e' => e.1 = e'.1 ∧ e.2.Alike e'.2) entries entries')
    {x : Assembly P entries}
    (h : Gives (assembleFrom t options set hashes gathered entries) x) :
    ∃ x' : Assembly P entries', Gives (assembleFrom t options' set' hashes gathered entries') x' ∧
      x'.1.1 = x.1.1 ∧ x'.2 = x.2 := by
  induction hentries generalizing gathered with
  | nil =>
    obtain rfl := gives_pure_iff.mp h
    exact ⟨_, gives_pure _, rfl, rfl⟩
  | @cons e e' rest rest' he _ ih =>
    obtain ⟨name, r⟩ := e
    obtain ⟨name', r'⟩ := e'
    obtain ⟨rfl, hr⟩ := he
    obtain ⟨v, emitted, y, hassemble, hrest, hvalidators, hgathered⟩ :=
      (gives_assembleFrom_cons_iff ht).mp h
    obtain ⟨y', hrest', hv', hg'⟩ := ih hrest
    refine ⟨(⟨(name, v) :: y'.1.1, by simp [y'.1.2]⟩, y'.2), ?_, ?_, ?_⟩
    · exact (gives_assembleFrom_cons_iff ht).mpr
        ⟨v, emitted, y', gives_assemble_of_alike ht hset hoptions hr hassemble, hrest', rfl, rfl⟩
    · rw [hvalidators, ← hv']
    · rw [hgathered, ← hg']

/-- **Alike builds.**  What one of two alike builds gives, the other gives too, unless it refuses a
hash. -/
theorem gives_compileSet_of_alike (ht : t.Faithful) (hset : set.Alike set')
    (hoptions : options.Alike options')
    (hkey : buildKey t set options = buildKey t set' options') {b : Bundle P}
    (h : Gives (compileSet t set options) b) (hexpected : checkHashes options' b = .ok ()) :
    Gives (compileSet t set' options') b := by
  obtain ⟨-, -, hb, -⟩ := isOf_of_gives_compileSet h
  obtain ⟨order, resolved, x, horder, hresolved, hx, rfl⟩ := (gives_compileSet_iff ht).mp h
  have hsound := isSound_of_gives_resolveFrom hresolved fun _ _ hr => by cases hr
  have hassembled := isOf_of_gives_assembleFrom hx fun e he =>
    (hsound e.1 e.2 (NameMap.get?_eq_some_iff.mpr he)).hash_eq
  have hnotRefused : ∀ n r, resolved.get? n = some r →
      options'.checkExpected n r.hash = .ok () := by
    intro n r hr
    have hname : n ∈ x.1.1.map (·.1) := by
      rw [x.1.2]
      exact NameMap.mem_names_iff.mpr ⟨r, hr⟩
    obtain ⟨⟨n, v⟩, hmem, rfl⟩ := List.mem_map.mp hname
    obtain ⟨e, he, hname, -, hhash⟩ := hassembled (n, v) hmem
    obtain rfl := NameMap.eq_of_mem_entries he (NameMap.get?_eq_some_iff.mp hr) hname
    have hv := (checkHashes_iff hb).mp hexpected n v hmem
    rwa [hhash] at hv
  have hnodup : order.Nodup :=
    (order_of_compilationOrder horder).1.nodup_iff.mpr set.validators.names_nodup
  obtain ⟨resolved', hresolved', hrel⟩ := gives_resolveFrom_of_alike ht hset hoptions hnodup
    (.empty _) hresolved hnotRefused
  obtain ⟨x', hx', hvalidators, hgathered⟩ :=
    gives_assembleFrom_of_alike ht hset hoptions hrel hx
  have hhashes : resolvedHashes resolved = resolvedHashes resolved' :=
    hrel.map_eq fun _ _ _ hr => hr.hash
  rw [hhashes] at hx'
  rw [compilationOrder_eq_ok_iff, hset.hashOrder_eq, ← compilationOrder_eq_ok_iff] at horder
  refine (gives_compileSet_iff ht).mpr ⟨order, resolved', x', horder, hresolved', hx', ?_⟩
  have huserFunc : options'.userFunc set'.indices = options.userFunc (P := P) set.indices := by
    funext name e
    rw [BuildOptions.userFunc, BuildOptions.userFunc, hset.indices_eq, hoptions.network,
      hoptions.debug, hoptions.keep_eq]
  have hentries : resolved'.withNames x'.1.1 x'.1.2 = resolved.withNames x.1.1 x.1.2 :=
    NameMap.ext hvalidators
  rw [assembledBundle, assembledBundle, hkey, hentries, hgathered, huserFunc]

/-- Once one of two alike builds gives a bundle, the other gives the same one or refuses a hash of
it. -/
theorem gives_compileSet_alike_iff (ht : t.Faithful) (hset : set.Alike set')
    (hoptions : options.Alike options')
    (hkey : buildKey t set options = buildKey t set' options') {b b' : Bundle P}
    (h : Gives (compileSet t set options) b) :
    Gives (compileSet t set' options') b' ↔ b' = b ∧ checkHashes options' b = .ok () := by
  constructor
  · intro h'
    -- Neither bundle is refused if no hash is expected.
    have hb := gives_compileSet_of_alike ht (.refl set) (.anyHash ⟨rfl, rfl, rfl⟩) rfl h
      (checkHashes_anyHash options b)
    have hb' := gives_compileSet_of_alike ht hset.symm hoptions.anyHash hkey.symm h'
      (checkHashes_anyHash options b')
    obtain rfl := hb'.unique hb
    exact ⟨rfl, checkHashes_of_gives_compileSet h'⟩
  · rintro ⟨rfl, hexpected⟩
    exact gives_compileSet_of_alike ht hset hoptions hkey h hexpected

end

end ScriptBundle

/-
# Bundles in which everything fits together

In a bundle that a build returns every validator stands under its name and has the hash of its
program, and a hash that it embeds is that of another validator of the bundle
(`Bundle.Consistent`).  For a bundle that was compiled this is read off the two passes.

For a bundle that was restored, restoring itself sees to the names and compares each hash with its
program, but believes the record for what a validator embeds.  That it may do so follows from how
records come about: all of them were made of compiled bundles.  In such a record the text of each
embedded hash is the text of that validator's hash (`BuildRecord.Consistent`), and two texts that
are the same are the same bytes again.  So all that a cache has to serve is consistent if builds
alone have filled it, whatever their sets, their settings and their toolchains were
(`Cache.Filled.allOffered_consistent`), and so are all bundles (`consistent_of_build`).
-/
import ScriptBundle.Proofs.Build.Expected
import ScriptBundle.Proofs.Build.Repair
import ScriptBundle.Proofs.Build.Requests

namespace ScriptBundle

open Work

variable {σ κ P : Type} {set : ValidatorSet} {options : BuildOptions} {t : Toolchain σ P}
  {s s' : σ} {name : String}

/-! ## 1. What fits together -/

/-- A validator that stands under a name in a bundle has this name and the hash of its optimized
program, and what it embeds are hashes of validators of the bundle. -/
structure CompiledValidator.FitsIn [Program P] (b : Bundle P) (name : String)
    (v : CompiledValidator P) : Prop where
  name_eq : v.name = name
  hash_eq : v.hash = Program.hash v.programs.optimized
  dependencies : ∀ d hash, v.dependencies.get? d = some hash →
    ∃ w, b.validators.get? d = some w ∧ w.hash = hash

/-- All validators of the bundle fit together. -/
def Bundle.Consistent [Program P] (b : Bundle P) : Prop :=
  ∀ name v, b.validators.get? name = some v → v.FitsIn b name

/-- Every validator of the bundle embeds what it declares in a set, and nothing else. -/
def Bundle.EmbedsDeclared (b : Bundle P) (set : ValidatorSet) : Prop :=
  ∀ name v, b.validators.get? name = some v → ∃ w, set.validators.get? name = some w ∧
    ∀ d, d ∈ v.dependencies.names ↔ d ∈ w.hashDependencies

/-- The text of every hash that is embedded is that of the validator's hash. -/
def BuildRecord.Consistent (r : BuildRecord) : Prop :=
  ∀ name v, r.validators.get? name = some v → ∀ d text, v.dependencies.get? d = some text →
    ∃ w, r.validators.get? d = some w ∧ w.hash = text

/-- A consistent bundle is recorded so. -/
theorem Bundle.Consistent.record [Program P] {b : Bundle P} (h : b.Consistent) (debug : Bool)
    (version : String) : (b.record debug version).Consistent := by
  intro name r hr d text htext
  rw [Bundle.record, NameMap.get?_map, Option.map_eq_some_iff] at hr
  obtain ⟨v, hv, rfl⟩ := hr
  rw [CompiledValidator.record, NameMap.get?_map, Option.map_eq_some_iff] at htext
  obtain ⟨hash, hhash, rfl⟩ := htext
  obtain ⟨w, hw, rfl⟩ := (h name v hv).dependencies d hash hhash
  refine ⟨w.record, ?_, rfl⟩
  rw [Bundle.record, NameMap.get?_map, hw]
  rfl

/-! ## 2. Compiled bundles -/

section

variable [Program P]

/-- What is resolved in the end is a validator of the set. -/
theorem validator_of_runs_resolveFrom {resolved last : NameMap (Resolved P)} {order : List String}
    (h : Runs (resolveFrom t options set resolved order) s last s')
    (hresolved : ∀ n r, resolved.get? n = some r → set.validators.get? n = some r.validator) :
    ∀ n r, last.get? n = some r → set.validators.get? n = some r.validator := by
  induction order generalizing resolved s with
  | nil =>
    obtain ⟨rfl, -⟩ := runs_pure_iff.mp h
    exact hresolved
  | cons name rest ih =>
    cases hv : set.validators.get? name with
    | none =>
      rw [resolveFrom_cons_of_none hv] at h
      exact ih h hresolved
    | some v =>
      obtain ⟨next, _, hstep, hrest⟩ := (runs_resolveFrom_cons_iff hv).mp h
      obtain ⟨_, _, _, -, -, -, rfl⟩ := runs_resolve_iff.mp hstep
      refine ih hrest fun n r hr => ?_
      rw [NameMap.get?_insert] at hr
      split at hr
      · rename_i heq
        cases hr
        rw [heq, hv]
      · exact hresolved n r hr

omit [Program P] in
/-- A validator embeds the hashes of what it declares, as far as they are known. -/
theorem get?_embeddedHashes {hashes : NameMap Bytes} {v : Validator} {hash : Bytes} :
    (embeddedHashes hashes v).get? name = some hash ↔
      name ∈ v.hashDependencies ∧ hashes.get? name = some hash := by
  have hmem : ∀ d bytes, (d, bytes) ∈ v.hashDependencies.filterMap
      (fun d => (hashes.get? d).map (d, ·)) ↔ d ∈ v.hashDependencies ∧
        hashes.get? d = some bytes := by
    intro d bytes
    simp only [List.mem_filterMap, Option.map_eq_some_iff, Prod.mk.injEq]
    constructor
    · rintro ⟨_, hd, _, hbytes, rfl, rfl⟩
      exact ⟨hd, hbytes⟩
    · rintro ⟨hd, hbytes⟩
      exact ⟨d, hd, bytes, hbytes, rfl, rfl⟩
  rw [embeddedHashes, NameMap.get?_ofList, hmem]
  intro d bytes bytes' hbytes hbytes'
  exact Option.some.inj (((hmem d bytes).mp hbytes).2.symm.trans ((hmem d bytes').mp hbytes').2)

/-- **The two passes.**  A validator of a compiled bundle embeds the bundle's hashes of what it
declares in the set. -/
theorem embedded_of_runs_compileAlong {order : List String} {b : Bundle P}
    (h : Runs (compileAlong t set options order) s b s') {v : CompiledValidator P}
    (hv : b.validators.get? name = some v) : ∃ w, set.validators.get? name = some w ∧
      v.dependencies = embeddedHashes b.hashes w := by
  obtain ⟨resolved, _, x, hresolved, hx, rfl⟩ := runs_compileAlong_iff.mp h
  have hset := validator_of_runs_resolveFrom hresolved fun _ _ hr => by cases hr
  obtain ⟨⟨_, r⟩, hr, rfl, _, _, _, _, hassemble⟩ :=
    of_runs_assembleFrom hx (name, v) (NameMap.get?_eq_some_iff.mp hv)
  obtain ⟨_, _, _, _, -, -, -, -, rfl⟩ := runs_assemble_iff.mp hassemble
  refine ⟨r.validator, hset _ r (NameMap.get?_eq_some_iff.mpr hr), ?_⟩
  rw [hashes_assembledBundle hx fun e he => (isSound_of_runs_resolveAll hresolved e he).hash_eq]
  rfl

/-- **Compiled bundles** are consistent, and what is embedded is what is declared. -/
theorem consistent_of_runs_compileSet (hdeclared : checkDeclared set options = .ok ())
    {b : Bundle P} (h : Runs (compileSet t set options) s b s') :
    b.Consistent ∧ b.EmbedsDeclared set := by
  obtain ⟨order, horder, halong⟩ := runs_compileSet_iff.mp h
  obtain ⟨-, -, hof, -⟩ := isOf_of_runs_compileAlong halong
  constructor
  · intro name v hv
    obtain ⟨w, -, hdependencies⟩ := embedded_of_runs_compileAlong halong hv
    have hv' := hof.validators name v (NameMap.get?_eq_some_iff.mp hv)
    refine ⟨hv'.name_eq, hv'.hash_eq.symm, fun d hash hd => ?_⟩
    rw [hdependencies] at hd
    exact Bundle.get?_hashes.mp (get?_embeddedHashes.mp hd).2
  · intro name v hv
    obtain ⟨w, hw, hdependencies⟩ := embedded_of_runs_compileAlong halong hv
    refine ⟨w, hw, fun d => ?_⟩
    simp only [NameMap.mem_names_iff, hdependencies, get?_embeddedHashes, exists_and_left]
    refine ⟨And.left, fun hd => ⟨hd, ?_⟩⟩
    -- What is declared is in the set, so it has been compiled.
    have hcheck := (checkDeclared_iff.mp hdeclared).1
    have hmem := (ValidatorSet.flaw?_eq_none_iff.mp
      (ValidatorSet.check_eq_ok_iff.mp hcheck name w hw)).2.2 d hd
    rw [← names_of_runs_compileSet h] at hmem
    rwa [← NameMap.mem_names_iff, Bundle.hashes, NameMap.names_map]

end

/-! ## 3. Restored bundles -/

theorem NameMap.of_traverseList {α β ε : Type} {f : String → α → Except ε β}
    {es : List (String × α)} {x : { bs : List (String × β) // bs.map (·.1) = es.map (·.1) }}
    (h : traverseList f es = .ok x) : ∀ e ∈ x.1, ∃ a, (e.1, a) ∈ es ∧ f e.1 a = .ok e.2 := by
  induction es with
  | nil =>
    cases h
    exact List.forall_mem_nil _
  | cons e es ih =>
    obtain ⟨b, hb, h⟩ := bind_eq_ok_iff.mp h
    obtain ⟨y, hy, h⟩ := bind_eq_ok_iff.mp h
    obtain rfl := pure_eq_ok_iff.mp h
    refine List.forall_mem_cons.mpr ⟨⟨e.2, List.mem_cons_self, hb⟩, fun e' he' => ?_⟩
    obtain ⟨a, ha, hf⟩ := ih hy e' he'
    exact ⟨a, List.mem_cons_of_mem _ ha, hf⟩

/-- What stands in a map that was converted was converted from what stood under its name. -/
theorem NameMap.of_traverse {α β ε : Type} {f : String → α → Except ε β} {m : NameMap α}
    {m' : NameMap β} (h : m.traverse f = .ok m') {b : β} (hb : m'.get? name = some b) :
    ∃ a, m.get? name = some a ∧ f name a = .ok b := by
  obtain ⟨x, hx, h⟩ := bind_eq_ok_iff.mp h
  obtain rfl := pure_eq_ok_iff.mp h
  obtain ⟨a, ha, hf⟩ := of_traverseList hx (name, b) (get?_eq_some_iff.mp hb)
  exact ⟨a, get?_eq_some_iff.mpr ha, hf⟩

/-- If a map cannot be converted, one of its entries cannot. -/
theorem NameMap.of_traverse_error {α β ε : Type} {f : String → α → Except ε β} {m : NameMap α}
    {e : ε} (h : m.traverse f = .error e) :
    ∃ name a, m.get? name = some a ∧ f name a = .error e := by
  have hlist : ∀ es : List (String × α), traverseList f es = .error e →
      ∃ entry ∈ es, f entry.1 entry.2 = .error e := by
    intro es
    induction es with
    | nil => exact fun h => (by cases h)
    | cons entry es ih =>
      intro h
      rcases bind_eq_error_iff.mp h with hfirst | ⟨b, -, h⟩
      · exact ⟨entry, List.mem_cons_self, hfirst⟩
      · rcases bind_eq_error_iff.mp h with hrest | ⟨x, -, h⟩
        · obtain ⟨entry', hmem, he⟩ := ih hrest
          exact ⟨entry', List.mem_cons_of_mem _ hmem, he⟩
        · cases h
  rcases bind_eq_error_iff.mp h with hentries | ⟨x, -, h⟩
  · obtain ⟨entry, hmem, he⟩ := hlist m.entries hentries
    exact ⟨entry.1, entry.2, get?_eq_some_iff.mpr hmem, he⟩
  · cases h

theorem NameMap.names_of_traverse {α β ε : Type} {f : String → α → Except ε β} {m : NameMap α}
    {m' : NameMap β} (h : m.traverse f = .ok m') : m'.names = m.names := by
  obtain ⟨x, -, h⟩ := bind_eq_ok_iff.mp h
  obtain rfl := pure_eq_ok_iff.mp h
  exact names_withNames m x.1 x.2

theorem recordedBytes_eq_ok_iff {part text : String} {bytes : Bytes} :
    recordedBytes name part text = .ok bytes ↔ Hex.decode text = .ok bytes := by
  unfold recordedBytes
  split
  · rename_i found hfound
    rw [hfound]
    simp only [Except.ok.injEq]
  · rename_i cause hcause
    rw [hcause]
    exact ⟨fun h => (by cases h), fun h => (by cases h)⟩

section

variable [Program P]

/-- What restoring a validator sees to by itself: its name, its hash, and that it embeds what its
record says. -/
structure CompiledValidator.RestoredFrom (name : String) (r : ValidatorRecord)
    (v : CompiledValidator P) : Prop where
  name_eq : v.name = name
  hash_eq : v.hash = Program.hash v.programs.optimized
  hash_text : Hex.decode r.hash = .ok v.hash
  dependencies : ∀ d hash, v.dependencies.get? d = some hash →
    ∃ text, r.dependencies.get? d = some text ∧ Hex.decode text = .ok hash

theorem restoredFrom_of_runs_ofRecord {r : ValidatorRecord} {v : CompiledValidator P}
    (h : Runs (CompiledValidator.ofRecord t name r) s v s') : v.RestoredFrom name r := by
  simp only [CompiledValidator.ofRecord, runs_bind_iff, runs_ofResult_iff] at h
  obtain ⟨_, _, -, hash, _, ⟨hhash, -⟩, programs, _, -, h⟩ := h
  split at h
  · obtain ⟨_, _, hthrow, -⟩ := runs_bind_iff.mp h
    cases hthrow
  · rename_i hsame
    simp only [runs_bind_iff, runs_ofResult_iff, runs_pure_iff] at h
    obtain ⟨dependencies, _, ⟨hdependencies, -⟩, _, _, -, _, _, -, rfl, -⟩ := h
    refine ⟨rfl, (not_not.mp hsame).symm, recordedBytes_eq_ok_iff.mp hhash, fun d bytes hd => ?_⟩
    obtain ⟨text, htext, hbytes⟩ := NameMap.of_traverse hdependencies hd
    exact ⟨text, htext, recordedBytes_eq_ok_iff.mp hbytes⟩

/-- A restored validator was restored from the record of its name, and every record was. -/
theorem restoredFrom_of_runs_restoreSet {record : BuildRecord} {b : Bundle P}
    (h : Runs (restoreSet t set options record) s b s') :
    b.validators.names = record.validators.names ∧
      ∀ name v, b.validators.get? name = some v →
        ∃ r, record.validators.get? name = some r ∧ v.RestoredFrom name r := by
  simp only [restoreSet, Bundle.ofRecord, runs_bind_iff, runs_ofResult_iff, runs_pure_iff] at h
  obtain ⟨_, _, ⟨validators, _, hvalidators, userFuncs, _, -, rfl, -⟩, _, _, -, rfl, -⟩ := h
  obtain ⟨hnames, hrestored⟩ := of_runs_onEach hvalidators
  refine ⟨hnames, fun name v hv => ?_⟩
  obtain ⟨r, _, _, hr, hruns⟩ := hrestored (name, v) (NameMap.get?_eq_some_iff.mp hv)
  exact ⟨r, NameMap.get?_eq_some_iff.mpr hr, restoredFrom_of_runs_ofRecord hruns⟩

/-- **Restored bundles.**  What is restored from a consistent record is consistent. -/
theorem consistent_of_runs_restoreSet {record : BuildRecord} {b : Bundle P}
    (h : Runs (restoreSet t set options record) s b s') (hrecord : record.Consistent) :
    b.Consistent := by
  obtain ⟨hnames, hrestored⟩ := restoredFrom_of_runs_restoreSet h
  intro name v hv
  obtain ⟨r, hr, hfrom⟩ := hrestored name v hv
  refine ⟨hfrom.name_eq, hfrom.hash_eq, fun d hash hd => ?_⟩
  obtain ⟨text, htext, hhash⟩ := hfrom.dependencies d hash hd
  obtain ⟨r', hr', rfl⟩ := hrecord name r hr d text htext
  obtain ⟨w, hw⟩ := NameMap.mem_names_iff.mp (hnames ▸ NameMap.mem_names_iff.mpr ⟨r', hr'⟩)
  obtain ⟨r'', hr'', hfrom'⟩ := hrestored d w hw
  obtain rfl : r'' = r' := Option.some.inj (hr''.symm.trans hr')
  exact ⟨w, hw, Except.ok.inj (hfrom'.hash_text.symm.trans hhash)⟩

end

/-! ## 4. Any number of builds -/

variable [Backend κ]

/-- **Caches that builds have filled** have consistent records to serve only. -/
theorem Cache.Filled.allOffered_consistent {c : Cache κ} (h : c.Filled) :
    c.AllOffered fun _ record => record.Consistent := by
  refine FilledBy.allOffered h fun {_ _ _ t _ options} _ s b s' hdeclared hruns => ?_
  exact (consistent_of_runs_compileSet hdeclared hruns).1.record options.debug t.format

/-- **Consistent bundles.**  Whatever a build returns, without a cache or with one that has started
empty and has been filled by any builds, is consistent; and if it was not restored, what its
validators embed is what they declare.

This is so for every kind of place that entries are kept in.  Of memory and folders, those start
empty in which nothing is (`Cache.isBlank_of_isVacant`), and so does every positional cache without
records (`Cache.isBlank_replay`). -/
theorem consistent_of_build [Program P] {cache : Option (Cache κ)}
    (hcache : ∀ c ∈ cache, c.Filled) {b : Bundle P}
    (h : (build t set options cache s).outcome = .ok b) :
    b.Consistent ∧ (b.fromCache = false → b.EmbedsDeclared set) := by
  obtain ⟨hdeclared, ⟨s', hruns⟩ | ⟨c, c', record, s', rfl, hlookup, hruns⟩⟩ :=
    compiled_or_restored h
  · obtain ⟨hconsistent, hembeds⟩ := consistent_of_runs_compileSet hdeclared hruns
    exact ⟨hconsistent, fun _ => hembeds⟩
  · obtain ⟨⟨_, hrecord⟩, -⟩ := (hcache c rfl).allOffered_consistent.of_lookup hlookup
    refine ⟨consistent_of_runs_restoreSet hruns hrecord, fun hfresh => ?_⟩
    cases hfresh.symm.trans (of_runs_restoreSet hruns).1

namespace Example

/-- An empty folder. -/
def emptyFolder : FolderStore := ⟨(FileTree.empty none).put ["cache"] .folder, "cache"⟩

theorem isVacant_emptyFolder : (AnyStore.folder emptyFolder).IsVacant := by
  change FolderStore.IsVacant emptyFolder
  rw [FolderStore.IsVacant]
  decide +kernel

/-- Every entry can be put into the folder. -/
theorem write_emptyFolder {key : String} (hkey : IsHexKey key) (content : Bytes) :
    ∃ next, emptyFolder.write key content = (.ok (), next) := by
  have hname := FolderStore.isName_entry hkey
  have hpath : '\x00' ∉ (emptyFolder.entryPath key).toList := by
    rw [FolderStore.entryPath, FileTree.join, if_neg (by rw [hname.isAbsolute]; decide),
      if_neg (by decide), if_neg (by decide)]
    simp only [emptyFolder, String.toList_append, List.mem_append, not_or]
    exact ⟨⟨by decide, by decide⟩, fun hmem => absurd (hkey _ hmem) (by decide), by decide⟩
  have hplace :
      emptyFolder.tree.resolve (emptyFolder.entryPath key) = .ok ["cache", key ++ ".plc"] :=
    (FileTree.resolve_join_eq_ok_iff hname).mpr
      ⟨FileTree.checkPath_eq_ok_iff.mpr ⟨hpath, rfl⟩, rfl, ["cache"], rfl, rfl, rfl⟩
  have hfree : emptyFolder.tree.node? ["cache", key ++ ".plc"] ≠ some .folder := by
    rw [emptyFolder, FileTree.node?_put (List.cons_ne_nil _ _), if_neg (by simp)]
    exact fun hnode => by cases hnode
  exact ⟨_, FolderStore.write_eq_ok_iff.mpr ⟨_, _, rfl, hplace, hfree, rfl⟩⟩

theorem set_emptyFolder {key : String} (hkey : IsHexKey key) (content : Bytes) :
    ∃ store, Backend.set (AnyStore.folder emptyFolder) key content = (.ok (), store) ∧
      Backend.get store key = some content := by
  obtain ⟨next, hwrite⟩ := write_emptyFolder hkey content
  have hset := AnyStore.set_folder_eq_ok_iff.mpr ⟨next, hwrite, rfl⟩
  refine ⟨_, hset, ?_⟩
  rw [(isVacant_emptyFolder.holds_empty.set hkey hset).get_eq hkey, NameMap.get?_insert, if_pos rfl]

/-- A policy embeds its own hash and another's, and still does when it has been restored from the
folder that an earlier build has stored it in. -/
theorem consistent_of_build_shop :
    (AnyStore.folder emptyFolder).IsVacant ∧
    ∃ c, (build compiler shop plain (some (.keyed (.folder emptyFolder))) ()).cache =
        some (c : Cache AnyStore) ∧
      ∃ b, (build compiler shop plain (some c) ()).outcome = .ok b ∧ b.fromCache = true ∧
        (b.validators.get? "sale").map (·.dependencies.names) = some ["sale", "vault"] ∧
        b.Consistent := by
  have hfaithful : compiler.Faithful := LineScript.Settings.faithful _
  have hchecks : ((freshBuild compiler shop plain ()).toOption.any fun b =>
      (b.record false compiler.format).toDocument.nesting ≤ Document.textDepth ∧
        (b.validators.get? "sale").map (·.dependencies.names) = some ["sale", "vault"]) = true := by
    decide +kernel
  obtain ⟨b, hb, hb_checks⟩ := exists_ok_of_any hchecks
  obtain ⟨hnesting, hdependencies⟩ := of_decide_eq_true hb_checks
  have hkey := (buildKey compiler shop plain).isHexKey_text
  have hmiss : ((Cache.keyed (AnyStore.folder emptyFolder)).lookup
      (buildKey compiler shop plain)).1 = none := by
    rw [Cache.lookup, isVacant_emptyFolder.holds_empty.get_eq hkey]
    rfl
  obtain ⟨store, hcache, -, houtcome, -, hstored⟩ :=
    build_of_miss hfaithful hmiss (set_emptyFolder hkey) ()
  have hfilled : (Cache.keyed store).Filled :=
    .build (.start (Cache.isBlank_of_isVacant isVacant_emptyFolder)) trivial () hcache
  have hcompiles := (freshBuild_eq_ok_iff hfaithful).mp hb
  obtain ⟨hserved, -⟩ := build_of_recorded hfaithful hcompiles
    (hstored b ((houtcome ()).trans hb)) hnesting ()
  obtain ⟨hconsistent, -⟩ := consistent_of_build (fun _ hc => Option.some.inj hc ▸ hfilled) hserved
  exact ⟨isVacant_emptyFolder, .keyed store, hcache, _, hserved, rfl, hdependencies, hconsistent⟩

end Example

end ScriptBundle

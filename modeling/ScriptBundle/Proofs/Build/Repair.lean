/-
# Damaged entries are harmless

A build whose entry is damaged comes to what it comes to without a cache, since damage is a miss.
If it succeeds its record takes the place of the damaged entry, and the next build of the same
inputs is served that record; entries under other keys are left alone either way
(`damaged_exact`).

The one record that is no use to the next build is one that nests too deeply to be read back.  It is
a damaged entry again, so the next build comes to the same once more, without the cache's help.
-/
import ScriptBundle.Proofs.Build.Cached
import ScriptBundle.Proofs.Build.Failure
import ScriptBundle.Proofs.Store.Damage

namespace ScriptBundle

section

variable {σ P : Type} [Program P] {t : Toolchain σ P} {set : ValidatorSet}
  {options : BuildOptions} {store store' : AnyStore}

/-- The same comes of a build without a cache wherever the toolchain starts. -/
theorem freshBuild_eq_of_compile (ht : t.Faithful) {s : σ} {o : Except BuildError (Bundle P)}
    (hdeclared : checkDeclared set options = .ok ())
    (hcompile : ((compileSet t set options).outcome s).1 = o) (s' : σ) :
    freshBuild t set options s' = o := by
  rw [freshBuild, build, hdeclared, ← hcompile]
  exact settled_compileSet ht s' s

/-- **A miss.**  A build that finds nothing comes to what it comes to without a cache, and puts
nothing in but under its key.  If it succeeds its record is found from then on, provided that it can
be put in; if it fails nothing is put in. -/
theorem build_of_miss (ht : t.Faithful)
    (hmiss : ((Cache.keyed store).lookup (buildKey t set options)).1 = none)
    (hset : ∀ content, ∃ store',
      Backend.set store (buildKey t set options).text content = (.ok (), store') ∧
        Backend.get store' (buildKey t set options).text = some content) (s : σ) :
    ∃ store', (build t set options (some (.keyed store)) s).cache = some (.keyed store') ∧
      (store' = store ∨ ∃ content,
        Backend.set store (buildKey t set options).text content = (.ok (), store')) ∧
      (∀ s', (build t set options (some (.keyed store)) s).outcome = freshBuild t set options s') ∧
      (∀ e, (build t set options (some (.keyed store)) s).outcome = .error e → store' = store) ∧
      ∀ b, (build t set options (some (.keyed store)) s).outcome = .ok b →
        Backend.get store' (buildKey t set options).text =
          some (b.record options.debug t.format).toBytes := by
  have hrun := cachedBuild t set options (.keyed store) s
  generalize build t set options (some (.keyed store)) s = run at hrun ⊢
  cases hrun with
  | refused hdeclared =>
    refine ⟨store, rfl, .inl rfl, fun s' => ?_, fun _ _ => rfl, fun b hb => by cases hb⟩
    rw [freshBuild, build, hdeclared]
  | hit hdeclared hlookup hrestore =>
    rw [hlookup] at hmiss
    cases hmiss
  | failed hdeclared hlookup hcompile =>
    refine ⟨store, rfl, .inl rfl, fun s' => ?_, fun _ _ => rfl, fun b hb => by cases hb⟩
    exact (freshBuild_eq_of_compile ht hdeclared (congrArg Prod.fst hcompile) s').symm
  | @compiled b c' o s'' hdeclared hlookup hcompile hstore =>
    have : Nonempty σ := ⟨s⟩
    have hb : CompilesTo t set options b :=
      ⟨hdeclared, (settled_compileSet ht).gives (congrArg Prod.fst hcompile)⟩
    obtain ⟨hkey, -⟩ := isOf_of_gives_compileSet hb.gives
    obtain ⟨store', hput, hget⟩ := hset (b.record options.debug t.format).toBytes
    have hstored : storeBundle t options (.keyed store) b = (.ok b, .keyed store') := by
      simp only [storeBundle, Cache.store, hkey, hput]
      rfl
    obtain ⟨rfl, rfl⟩ := Prod.mk.inj (hstored.symm.trans hstore)
    refine ⟨store', rfl, .inr ⟨_, hput⟩, fun s' => ?_, fun e he => (by cases he), fun b' hb' => ?_⟩
    · exact (freshBuild_eq_of_compile ht hdeclared (congrArg Prod.fst hcompile) s').symm
    · cases hb'
      exact hget

/-- **A damaged entry is a miss** and is replaced, if there is something to replace it. -/
theorem build_damaged (ht : t.Faithful)
    (hdamaged : store.Damaged (buildKey t set options).text) (s : σ) :
    ∃ store', (build t set options (some (.keyed store)) s).cache = some (.keyed store') ∧
      AnyStore.SameBut (buildKey t set options).text store store' ∧
      (∀ s', (build t set options (some (.keyed store)) s).outcome = freshBuild t set options s') ∧
      (∀ e, (build t set options (some (.keyed store)) s).outcome = .error e → store' = store) ∧
      ∀ b, (build t set options (some (.keyed store)) s).outcome = .ok b →
        Backend.get store' (buildKey t set options).text =
          some (b.record options.debug t.format).toBytes := by
  obtain ⟨bytes, hkept⟩ := hdamaged.exists_kept
  have hput := fun content =>
    AnyStore.set_of_kept (buildKey t set options).isHexKey_text hkept content
  obtain ⟨store', hcache, hplace, hrest⟩ := build_of_miss ht hdamaged.miss (fun content => by
    obtain ⟨next, hset, hget, -⟩ := hput content
    exact ⟨next, hset, hget⟩) s
  refine ⟨store', hcache, ?_, hrest⟩
  rcases hplace with rfl | ⟨content, hset⟩
  · exact .refl _ _
  · obtain ⟨next, hset', -, hsame⟩ := hput content
    obtain rfl : next = store' := congrArg Prod.snd (hset'.symm.trans hset)
    exact hsame

/-- A build whose record is in the cache is served it, and is the same but for that. -/
theorem build_of_recorded (ht : t.Faithful) {b : Bundle P} (hb : CompilesTo t set options b)
    (hget : Backend.get store (buildKey t set options).text =
      some (b.record options.debug t.format).toBytes)
    (hnesting : (b.record options.debug t.format).toDocument.nesting ≤ Document.textDepth)
    (s : σ) :
    (build t set options (some (.keyed store)) s).outcome = .ok { b with fromCache := true } ∧
      (build t set options (some (.keyed store)) s).cache = some (.keyed store) := by
  have : Nonempty σ := ⟨s⟩
  have hlookup : (Cache.keyed store).lookup (buildKey t set options) =
      (some (b.record options.debug t.format), .keyed store) := by
    rw [Cache.lookup, hget, Option.bind_some, BuildRecord.ofBytes?_toBytes_exact, if_pos hnesting]
  obtain ⟨hkey, -, hof, -⟩ := isOf_of_gives_compileSet hb.gives
  have hrestored : Work.Gives (restoreSet t set options (b.record options.debug t.format))
      { b with fromCache := true } :=
    (gives_restoreSet_iff ht hof options.debug).mpr
      ⟨by rw [← hkey], checkHashes_of_gives_compileSet hb.gives⟩
  unfold build
  rw [hb.declared]
  dsimp only
  rw [hlookup]
  exact ⟨hrestored s, rfl⟩

/-- A record that cannot be read back is as good as a damaged entry. -/
theorem damaged_of_recorded {b : Bundle P} (hget : Backend.get store (buildKey t set options).text =
      some (b.record options.debug t.format).toBytes)
    (hnesting : Document.textDepth < (b.record options.debug t.format).toDocument.nesting) :
    store.Damaged (buildKey t set options).text :=
  .payload hget (by rw [BuildRecord.ofBytes?_toBytes_exact, if_neg (Nat.not_le.mpr hnesting)])

/-- **Damaged entries are harmless.**  With a faithful toolchain, and a cache over a place in memory
or in a folder in which the entry under the key of a build is damaged, whatever the damage:

* the build comes to what it comes to without a cache;
* the entries under other keys are as they were, and so is the damaged one if the build fails;
* if it succeeds its record is under the key, and the next build of the same inputs is served it:
  it comes to the same bundle, which was restored this time, and the cache stays as it is;
* only if the record nests more lists and tables than a text may, the next build cannot read it, and
  comes to the bundle by itself once more. -/
theorem damaged_exact (ht : t.Faithful)
    (hdamaged : store.Damaged (buildKey t set options).text) (s : σ) :
    ∃ store', (build t set options (some (.keyed store)) s).cache = some (.keyed store') ∧
      (∀ s', (build t set options (some (.keyed store)) s).outcome = freshBuild t set options s') ∧
      AnyStore.SameBut (buildKey t set options).text store store' ∧
      (∀ e, (build t set options (some (.keyed store)) s).outcome = .error e → store' = store) ∧
      ∀ b, (build t set options (some (.keyed store)) s).outcome = .ok b →
        Backend.get store' (buildKey t set options).text =
          some (b.record options.debug t.format).toBytes ∧
        ((b.record options.debug t.format).toDocument.nesting ≤ Document.textDepth → ∀ s',
          (build t set options (some (.keyed store')) s').outcome =
              .ok { b with fromCache := true } ∧
            (build t set options (some (.keyed store')) s').cache = some (.keyed store')) ∧
        (Document.textDepth < (b.record options.debug t.format).toDocument.nesting → ∀ s',
          (build t set options (some (.keyed store')) s').outcome = .ok b) := by
  obtain ⟨store', hcache, hsame, hfresh, hkept, hstored⟩ := build_damaged ht hdamaged s
  refine ⟨store', hcache, hfresh, hsame, hkept, fun b hb => ?_⟩
  have hget := hstored b hb
  have hcompiles : CompilesTo t set options b :=
    (freshBuild_eq_ok_iff ht).mp ((hfresh s).symm.trans hb)
  refine ⟨hget, fun hnesting => build_of_recorded ht hcompiles hget hnesting, ?_⟩
  intro hnesting s'
  obtain ⟨-, -, -, hagain, -⟩ := build_damaged ht (damaged_of_recorded hget hnesting) s'
  exact (hagain s).trans ((hfresh s).symm.trans hb)

end

namespace Example

/-- A folder in which the entry of a build has been overwritten. -/
def overwritten : FolderStore where
  tree := ((FileTree.empty none).put ["cache"] .folder).put
    ["cache", "03f083d544a1b8c5d13cf4c3c6e185a5.plc"] (.file [1, 2, 3])
  folder := "cache"

open KeyInputs in
/-- The key of the build.  One item is in order already, so there is nothing to sort. -/
theorem buildKey_sole :
    (buildKey compiler (sole "sale") plain).text = "03f083d544a1b8c5d13cf4c3c6e185a5" := by
  have hone : ∀ {α : Type} (name : α → String) (a : α), byName name [a] = [a] :=
    fun _ _ => List.mergeSort_singleton _
  have hnone : ∀ {α : Type} (name : α → String), byName name [] = [] :=
    fun _ => List.mergeSort_nil
  simp only [buildKey, key, stream, counted, validatorStream, keyInputs, sole, minting, plain,
    NameMap.empty, List.map_cons, List.map_nil, hone, hnone, List.flatMap_cons, List.flatMap_nil]
  decide +kernel

/-- The build does not mind, and the one after it is served its record. -/
theorem damaged_exact_overwritten :
    compiler.Faithful ∧
    (AnyStore.folder overwritten).Damaged (buildKey compiler (sole "sale") plain).text ∧
    ∃ b store', (build compiler (sole "sale") plain (some (.keyed (AnyStore.folder overwritten)))
        ()).outcome = .ok b ∧
      (build compiler (sole "sale") plain (some (.keyed (AnyStore.folder overwritten))) ()).cache =
        some (.keyed store') ∧
      (build compiler (sole "sale") plain (some (.keyed store')) ()).outcome =
        .ok { b with fromCache := true } := by
  have hfaithful : compiler.Faithful := LineScript.Settings.faithful _
  have hdamaged : (AnyStore.folder overwritten).Damaged
      (buildKey compiler (sole "sale") plain).text := by
    rw [buildKey_sole]
    exact .file (by decide +kernel : overwritten.kept? _ = some [1, 2, 3]) rfl
  have hchecks : ((freshBuild compiler (sole "sale") plain ()).toOption.any fun b =>
      (b.record false compiler.format).toDocument.nesting ≤ Document.textDepth) = true := by
    decide +kernel
  obtain ⟨b, hb, hnesting⟩ := exists_ok_of_any hchecks
  obtain ⟨store', hcache, hfresh, -, -, hstored⟩ := damaged_exact hfaithful hdamaged ()
  have houtcome := (hfresh ()).trans hb
  obtain ⟨-, hnext, -⟩ := hstored b houtcome
  exact ⟨hfaithful, hdamaged, b, store', houtcome, hcache,
    (hnext (of_decide_eq_true hnesting) ()).1⟩

end Example

end ScriptBundle

/-
# Accepted configurations do not fail late

A configuration is checked when it is read.  Loading the project goes over the same names, hashes
and schemas again, with the sources, and a build looks at them once more.  None of that finds
anything that the check has let pass: loading fails only for what the check has not looked at, a
file that cannot be read or a purpose that nobody knows (`Refused`), and builds are timely
(`ofConfig_exact`).
-/
import ScriptBundle.Project
import ScriptBundle.Build.LineScript
import ScriptBundle.Proofs.Build.Late

namespace ScriptBundle

/-! ## 1. What the check of a configuration finds -/

namespace Config

variable {c : Config} {name : String}

theorem refuseIf_eq_ok_iff {condition : Bool} {cause : Error} :
    refuseIf condition cause = .ok () ↔ condition = false := by
  cases condition with
  | false => exact ⟨fun _ => rfl, fun _ => rfl⟩
  | true => exact ⟨fun h => (by cases h), fun h => (by cases h)⟩

theorem check_of_checkSchema {cause : Schema.Defect → Error} {s : Schema}
    (h : checkSchema cause s = .ok ()) : s.check = .ok () := by
  unfold checkSchema at h
  split at h
  · assumption
  · cases h

theorem schemas_of_checkValidator {v : ValidatorConfig} (h : checkValidator name v = .ok ()) :
    v.redeemer.check = .ok () ∧ ∀ s ∈ v.datum, s.check = .ok () := by
  simp only [checkValidator, bind_eq_ok_iff] at h
  obtain ⟨⟨⟩, -, ⟨⟩, -, ⟨⟩, -, ⟨⟩, hredeemer, hdatum⟩ := h
  refine ⟨check_of_checkSchema hredeemer, fun s hs => ?_⟩
  rw [Option.mem_def.mp hs] at hdatum
  exact check_of_checkSchema hdatum

/-- **Checked configurations.**  The schemas of validators are well formed, and what is expected are
hashes of validators that are there. -/
theorem of_check (hc : c.check = .ok ()) :
    (∀ name v, c.validators.get? name = some v →
      v.redeemer.check = .ok () ∧ ∀ s ∈ v.datum, s.check = .ok ()) ∧
    ∀ name text, c.expected.get? name = some text →
      name ∈ c.validators.names ∧ ∃ bytes, Hex.decode text = .ok bytes := by
  obtain ⟨⟨⟩, -, hc⟩ := bind_eq_ok_iff.mp hc
  obtain ⟨⟨⟩, hvalidators, hexpected⟩ := bind_eq_ok_iff.mp hc
  refine ⟨fun name v hv => ?_, fun name text htext => ?_⟩
  · have hentry := forM_eq_ok_iff.mp hvalidators (name, v) (NameMap.get?_eq_some_iff.mp hv)
    exact schemas_of_checkValidator hentry
  · have hentry := forM_eq_ok_iff.mp hexpected (name, text) (NameMap.get?_eq_some_iff.mp htext)
    obtain ⟨⟨⟩, hname, hhex⟩ := bind_eq_ok_iff.mp hentry
    have hname := refuseIf_eq_ok_iff.mp hname
    have hhex := refuseIf_eq_ok_iff.mp hhex
    rw [Bool.not_eq_false'] at hname
    refine ⟨NameMap.contains_iff.mp hname, ?_⟩
    cases hdecode : Hex.decode text with
    | ok bytes => exact ⟨bytes, rfl⟩
    | error e =>
      rw [Hex.decode?, hdecode] at hhex
      cases hhex

end Config

/-! ## 2. Loading -/

namespace Project

variable {tree : FileTree} {root name : String} {c : Config} {p : Project} {e : Error}

/-- Why a project is not loaded whose configuration is in order. -/
inductive Refused (tree : FileTree) (root : String) (c : Config) : Error → Prop
  | module {name path : String} (h : c.modules.get? name = some path)
    (hread : readText tree (FileTree.join root path) = none) :
    Refused tree root c (.unreadable path)
  | source {name : String} {v : ValidatorConfig} (h : c.validators.get? name = some v)
    (hread : readText tree (FileTree.join root v.source) = none) :
    Refused tree root c (.unreadable v.source)
  | purpose {name : String} {v : ValidatorConfig} {cause : Purpose.ParseError}
    (h : c.validators.get? name = some v) (hparse : Purpose.parse v.purpose = .error cause) :
    Refused tree root c (.unknownPurpose name v.purpose)

theorem readSource_eq_error_iff {path : String} :
    readSource tree root path = .error e ↔
      readText tree (FileTree.join root path) = none ∧ e = .unreadable path := by
  unfold readSource
  cases readText tree (FileTree.join root path) with
  | none => exact ⟨fun h => (by cases h; exact ⟨rfl, rfl⟩), fun ⟨_, h⟩ => h ▸ rfl⟩
  | some text => exact ⟨fun h => (by cases h), fun ⟨h, _⟩ => (by cases h)⟩

theorem refused_of_readValidator {v : ValidatorConfig} (hv : c.validators.get? name = some v)
    (h : readValidator tree root name v = .error e) : Refused tree root c e := by
  unfold readValidator at h
  split at h
  · rename_i hparse
    cases h
    exact .purpose hv hparse
  split at h
  · rename_i hsource
    cases h
    obtain ⟨hread, rfl⟩ := readSource_eq_error_iff.mp hsource
    exact .source hv hread
  · cases h

/-- What is read of a validator has the schemas that were configured. -/
theorem schemas_of_readValidator {v : ValidatorConfig} {w : Validator}
    (h : readValidator tree root name v = .ok w) : w.redeemer = v.redeemer ∧ w.datum = v.datum := by
  unfold readValidator at h
  split at h
  · cases h
  split at h
  · cases h
  · cases h
    exact ⟨rfl, rfl⟩

theorem readHash_of_decode {text : String} {bytes : Bytes} (h : Hex.decode text = .ok bytes) :
    readHash name text = .ok bytes := by
  rw [readHash, h]

theorem refused_of_ofConfig (hc : c.check = .ok ()) (h : ofConfig tree root c = .error e) :
    Refused tree root c e := by
  rcases bind_eq_error_iff.mp h with hmodules | ⟨modules, -, h⟩
  · obtain ⟨name, path, hpath, hread⟩ := NameMap.of_traverse_error hmodules
    obtain ⟨hnone, rfl⟩ := readSource_eq_error_iff.mp hread
    exact .module hpath hnone
  rcases bind_eq_error_iff.mp h with hvalidators | ⟨validators, -, h⟩
  · obtain ⟨name, v, hv, hread⟩ := NameMap.of_traverse_error hvalidators
    exact refused_of_readValidator hv hread
  rcases bind_eq_error_iff.mp h with hexpected | ⟨expected, -, h⟩
  · obtain ⟨name, text, htext, hread⟩ := NameMap.of_traverse_error hexpected
    obtain ⟨-, bytes, hbytes⟩ := (Config.of_check hc).2 name text htext
    cases hread.symm.trans (readHash_of_decode hbytes)
  · cases h

/-- A project that was loaded has well-formed schemas, expects hashes of its validators only, and
has the cache that it is configured to have. -/
theorem of_ofConfig (hc : c.check = .ok ()) (h : ofConfig tree root c = .ok p) :
    p.set.WellFormed ∧ (∀ n ∈ p.options.expected.names, n ∈ p.set.validators.names) ∧
      p.cache = cacheOf tree root c.cache := by
  obtain ⟨hschemas, hexpected⟩ := Config.of_check hc
  simp only [ofConfig, bind_eq_ok_iff, pure_eq_ok_iff] at h
  obtain ⟨modules, -, validators, hvalidators, expected, hhashes, rfl⟩ := h
  refine ⟨fun name w hw => ?_, fun n hn => ?_, rfl⟩
  · obtain ⟨v, hv, hread⟩ := NameMap.of_traverse hvalidators hw
    obtain ⟨hredeemer, hdatum⟩ := schemas_of_readValidator hread
    rw [hredeemer, hdatum]
    exact hschemas name v hv
  · change n ∈ expected.names at hn
    rw [NameMap.names_of_traverse hhashes] at hn
    obtain ⟨text, htext⟩ := NameMap.mem_names_iff.mp hn
    change n ∈ validators.names
    rw [NameMap.names_of_traverse hvalidators]
    exact (hexpected n text htext).1

/-! ## 3. Building -/

/-- The cache that a project starts with is filled by builds alone, if its folder is empty or not
there yet. -/
theorem filled_cacheOf {settings : CacheConfig}
    (h : ∀ store, cacheOf tree root settings = some (.keyed store) → store.IsVacant) :
    ∀ k ∈ cacheOf tree root settings, k.Filled := by
  intro k hk
  have hk := Option.mem_def.mp hk
  cases k with
  | keyed store => exact .start (Cache.isBlank_of_isVacant (h store hk))
  | positional entries cursor =>
    unfold cacheOf at hk
    split at hk
    · cases hk
    split at hk
    · cases hk
      exact .start Cache.isBlank_replay
    split at hk <;> cases hk

/-- **Accepted configurations do not fail late.**  Of a configuration that has passed its check,
wherever the project is:

* loading the project fails for a file that cannot be read or a purpose that nobody knows, and never
  for the configuration;
* a build of the loaded project, by whichever toolchain, without a cache or with one that builds
  have filled, does not fail for a purpose, for an unknown validator or for a schema. -/
theorem ofConfig_exact (hc : c.check = .ok ()) (tree : FileTree) (root : String) :
    (∀ e, ofConfig tree root c = .error e → Refused tree root c e ∧ ∀ cause, e ≠ .config cause) ∧
    ∀ p, ofConfig tree root c = .ok p →
      ∀ {σ P : Type} [Program P] (t : Toolchain σ P) (s : σ) (cache : Option (Cache AnyStore)),
        (∀ k ∈ cache, k.Filled) →
          ∀ e, (ScriptBundle.build t p.set p.options cache s).outcome = .error e → ¬ e.IsLate := by
  refine ⟨fun e he => ?_, fun p hp σ P _ t s cache hcache e he => ?_⟩
  · have hrefused := refused_of_ofConfig hc he
    refine ⟨hrefused, ?_⟩
    rintro cause rfl
    cases hrefused
  · obtain ⟨hset, hexpected, -⟩ := of_ofConfig hc hp
    exact timely_of_build hset hexpected hcache he

namespace Example

/-- A configuration of one policy that is to have a hash of one byte. -/
def shopConfig : Config where
  network := .mainnet
  debug := false
  cache := ⟨true, some "cache", false⟩
  expected := ⟨[("sale", "00")], by simp⟩
  modules := .empty
  validators := ⟨[("sale", ⟨"minting", "sale.src", [], [], false, .primitive .int, none⟩)], by simp⟩

/-- A tree with the source of the policy. -/
def shopTree : FileTree := (FileTree.empty none).put ["sale.src"] (.file [])

/-- What comes of building the project with its own cache. -/
def builtWith (p : Project) : BuildRun Unit AnyStore LineScript.Code :=
  ScriptBundle.build ScriptBundle.Example.compiler p.set p.options p.cache ()

/-- Without its source the project is not loaded; with it, the build fails, but not late. -/
theorem ofConfig_exact_shop :
    shopConfig.check = .ok () ∧
    Refused (FileTree.empty none) "" shopConfig (.unreadable "sale.src") ∧
    ∃ p, ofConfig shopTree "" shopConfig = .ok p ∧ (∀ k ∈ p.cache, k.Filled) ∧
      ∃ e, (builtWith p).outcome = .error e ∧ ¬ e.IsLate := by
  have hcheck : shopConfig.check = .ok () := rfl
  have hmissing : ofConfig (FileTree.empty none) "" shopConfig =
      .error (.unreadable "sale.src") := rfl
  have hfails : ((ofConfig shopTree "" shopConfig).toOption.any fun p =>
      (builtWith p).outcome.toOption.isNone) = true := by decide +kernel
  obtain ⟨p, hp, hnone⟩ := exists_ok_of_any hfails
  have hfilled : ∀ k ∈ p.cache, k.Filled := by
    rw [(of_ofConfig hcheck hp).2.2]
    refine filled_cacheOf ?_
    rintro store ⟨⟩
    change FolderStore.IsVacant _
    rw [FolderStore.IsVacant]
    decide +kernel
  refine ⟨hcheck, ((ofConfig_exact hcheck _ "").1 _ hmissing).1, p, hp, hfilled, ?_⟩
  cases he : (builtWith p).outcome with
  | ok b =>
    rw [he] at hnone
    cases hnone
  | error e =>
    exact ⟨e, rfl, (ofConfig_exact hcheck shopTree "").2 p hp _ () p.cache hfilled e he⟩

end Example

end Project

end ScriptBundle

/-
# What a failed build leaves behind

A build with a cache takes one of four ways: it is refused for its declarations, it is served from
the cache, its compilation fails, or it is compiled and stored (`CachedBuild`).  All that is said of
builds with a cache goes by these four.

A build that fails leaves no record, and takes none away.  In one case it does not leave the cache
as it was: a positional cache passes the record that it serves before anybody knows whether a bundle
can be made of it, and stays there if none can (`cache_of_failed_build`).  A build that is tried
again is then served the record after that, or nothing.
-/
import ScriptBundle.Proofs.Build.Order
import ScriptBundle.Proofs.Build.Work
import ScriptBundle.Proofs.Store.Cache

namespace ScriptBundle

variable {σ κ P : Type} [Program P] [Backend κ]

/-! ## 1. Four ways -/

/-- What comes of a build with a cache, by the way that it takes. -/
inductive CachedBuild (t : Toolchain σ P) (set : ValidatorSet) (options : BuildOptions)
    (c : Cache κ) (s : σ) : BuildRun σ κ P → Prop
  | refused {e : BuildError} (hdeclared : checkDeclared set options = .error e) :
    CachedBuild t set options c s ⟨.error e, some c, s⟩
  | hit {record : BuildRecord} {c' : Cache κ} {o : Except BuildError (Bundle P)} {s' : σ}
    (hdeclared : checkDeclared set options = .ok ())
    (hlookup : c.lookup (buildKey t set options) = (some record, c'))
    (hrestore : (restoreSet t set options record).outcome s = (o, s')) :
    CachedBuild t set options c s ⟨o, some c', s'⟩
  | failed {e : BuildError} {s' : σ} (hdeclared : checkDeclared set options = .ok ())
    (hlookup : c.lookup (buildKey t set options) = (none, c))
    (hcompile : (compileSet t set options).outcome s = (.error e, s')) :
    CachedBuild t set options c s ⟨.error e, some c, s'⟩
  | compiled {b : Bundle P} {c' : Cache κ} {o : Except BuildError (Bundle P)} {s' : σ}
    (hdeclared : checkDeclared set options = .ok ())
    (hlookup : c.lookup (buildKey t set options) = (none, c))
    (hcompile : (compileSet t set options).outcome s = (.ok b, s'))
    (hstore : storeBundle t options c b = (o, c')) :
    CachedBuild t set options c s ⟨o, some c', s'⟩

/-- **Every build with a cache takes one of these ways.** -/
theorem cachedBuild (t : Toolchain σ P) (set : ValidatorSet) (options : BuildOptions) (c : Cache κ)
    (s : σ) : CachedBuild t set options c s (build t set options (some c) s) := by
  unfold build
  cases hdeclared : checkDeclared set options with
  | error e => exact .refused hdeclared
  | ok =>
    dsimp only
    rcases hlookup : c.lookup (buildKey t set options) with ⟨_ | record, c'⟩
    · obtain ⟨-, rfl⟩ := Cache.lookup_none hlookup
      rcases hcompile : (compileSet t set options).outcome s with ⟨e | b, s'⟩
      · exact .failed hdeclared hlookup hcompile
      · exact .compiled hdeclared hlookup hcompile rfl
    · exact .hit hdeclared hlookup rfl

variable {t : Toolchain σ P} {set : ValidatorSet} {options : BuildOptions} {c c' : Cache κ}

theorem storeBundle_error (hplace : Backend.Traceless κ) {b : Bundle P} {e : BuildError}
    (h : storeBundle t options c b = (.error e, c')) : c' = c := by
  unfold storeBundle at h
  split at h
  · cases h
  · rename_i cause next hstore
    cases h
    exact Cache.store_error hplace hstore

/-! ## 2. Failures -/

/-- **Failed builds.**  A build that fails leaves a cache with the records that it had, in the same
order.  The cache is as it was, unless the declarations hold together and a positional cache had a
record left to replay, which it has passed then. -/
theorem cache_of_failed_build (hplace : Backend.Traceless κ) {s : σ} {e : BuildError}
    (h : (build t set options (some c) s).outcome = .error e) :
    ∃ c', (build t set options (some c) s).cache = some c' ∧ c'.rewind = c.rewind ∧
      (c' = c ↔ ¬ (checkDeclared set options = .ok () ∧ c.Replays)) ∧
      (c' ≠ c → c'.cursor = c.cursor + 1) := by
  have hsame : ¬ (checkDeclared set options = .ok () ∧ c.Replays) → c.rewind = c.rewind ∧
      (c = c ↔ ¬ (checkDeclared set options = .ok () ∧ c.Replays)) ∧
      (c ≠ c → c.cursor = c.cursor + 1) :=
    fun hnot => ⟨rfl, iff_of_true rfl hnot, fun hne => absurd rfl hne⟩
  have hrun := cachedBuild t set options c s
  generalize build t set options (some c) s = run at h hrun ⊢
  cases hrun with
  | refused hdeclared => exact ⟨c, rfl, hsame fun hnot => by cases hdeclared.symm.trans hnot.1⟩
  | @hit record c' o s' hdeclared hlookup hrestore =>
    by_cases hreplays : c.Replays
    · obtain ⟨_, hadvanced⟩ := Cache.lookup_of_replays hreplays (buildKey t set options)
      rw [hadvanced] at hlookup
      cases hlookup
      exact ⟨c.advanced, rfl, c.rewind_advanced,
        iff_of_false hreplays.advanced_ne fun hnot => hnot ⟨hdeclared, hreplays⟩,
        fun _ => hreplays.cursor_advanced⟩
    · have hkept := Cache.lookup_of_not_replays hreplays (buildKey t set options)
      rw [hlookup] at hkept
      obtain rfl : c' = c := hkept
      exact ⟨c', rfl, hsame fun hnot => hreplays hnot.2⟩
  | failed hdeclared hlookup _ =>
    exact ⟨c, rfl, hsame fun hnot => (Cache.lookup_none hlookup).1 hnot.2⟩
  | @compiled b c' o s' hdeclared hlookup _ hstore =>
    obtain rfl : o = .error e := h
    obtain rfl := storeBundle_error hplace hstore
    exact ⟨c', rfl, hsame fun hnot => (Cache.lookup_none hlookup).1 hnot.2⟩

namespace Example

/-- A set of one policy. -/
def sole (name : String) : ValidatorSet := ⟨⟨[(name, minting [])], by simp⟩, .empty⟩

/-- The record of a build whose program is in a form that is not understood any more. -/
def outdated : BuildRecord where
  debug := false
  validators := ⟨[("sale", ⟨"minting", "", ⟨"", none, none, none, none, none, "0"⟩, .mainnet,
    .primitive .int, none, .empty⟩)], by decide⟩
  userFuncs := .empty

def replaying : Cache MemoryStore := .positional [outdated] 0

/-- What comes of a build that the record is replayed to. -/
def replayed : BuildRun Unit MemoryStore LineScript.Code :=
  build compiler (sole "sale") plain (some replaying) ()

/-- The build fails for the form of the program, and the cache has passed the record. -/
theorem cache_of_failed_build_replayed :
    (∃ e, replayed.outcome = .error e) ∧ replayed.cache ≠ some replaying := by
  have hnone : replayed.outcome.toOption.isNone := by decide +kernel
  cases he : replayed.outcome with
  | ok b =>
    rw [he] at hnone
    cases hnone
  | error e =>
    obtain ⟨c', hc', -, hkept, -⟩ := cache_of_failed_build MemoryStore.traceless he
    refine ⟨⟨e, rfl⟩, fun hsame => ?_⟩
    exact hkept.mp (Option.some.inj (hc'.symm.trans hsame)) ⟨rfl, by decide⟩

end Example

end ScriptBundle

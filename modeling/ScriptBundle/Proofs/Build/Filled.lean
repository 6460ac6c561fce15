/-
# Caches that builds have filled

A cache is used by one build after another, for any sets, with any settings and by any toolchains.
It is filled by builds (`Cache.FilledBy`) if it had nothing to serve at first, and all that has
happened to it since are builds, rewinds, and the loss of entries.  Whatever kind of place the
entries are kept in, that is enough to know where they come from.

What is in such a cache has been stored by one of its builds.  So a property that the record of
every bundle has that may be compiled is one that everything the cache has to serve has: one build
preserves it (`Cache.AllOffered.build`), and so does any number of them
(`Cache.FilledBy.allOffered`).
-/
import ScriptBundle.Proofs.Build.Failure
import ScriptBundle.Proofs.Build.Run
import ScriptBundle.Proofs.Store.Offers

namespace ScriptBundle

open Work

/-! ## 1. One build -/

section

variable {σ κ P : Type} [Program P] [Backend κ] {t : Toolchain σ P} {set : ValidatorSet}
  {options : BuildOptions} {s : σ} {c c' : Cache κ} {Q : Digest → BuildRecord → Prop}

theorem storeBundle_snd (t : Toolchain σ P) (options : BuildOptions) (c : Cache κ) (b : Bundle P) :
    (storeBundle t options c b).2 = (c.store b.key (b.record options.debug t.format)).2 := by
  unfold storeBundle
  split <;> rename_i hstore <;> rw [hstore]

/-- **One build** stores the record of a bundle that it has compiled, or nothing. -/
theorem Cache.AllOffered.build (h : c.AllOffered Q)
    (hQ : ∀ b s', checkDeclared set options = .ok () → Runs (compileSet t set options) s b s' →
      Q b.key (b.record options.debug t.format))
    (hc : (ScriptBundle.build t set options (some c) s).cache = some c') : c'.AllOffered Q := by
  have hrun := cachedBuild t set options c s
  generalize ScriptBundle.build t set options (some c) s = run at hc hrun
  cases hrun with
  | refused _ =>
    cases hc
    exact h
  | hit _ hlookup _ =>
    cases hc
    exact (h.of_lookup hlookup).2.2
  | failed _ _ _ =>
    cases hc
    exact h
  | @compiled b _ _ s' hdeclared _ hcompile hstore =>
    cases hc
    have hstored := h.store (hQ b s' hdeclared hcompile)
    rwa [← storeBundle_snd, hstore] at hstored

end

/-! ## 2. Any number of builds -/

namespace Cache

variable {κ : Type} [Backend κ] {c : Cache κ} {Q : Digest → BuildRecord → Prop}
  {Allowed : ∀ σ P : Type, Toolchain σ P → ValidatorSet → BuildOptions → Prop}

/-- A cache that was filled by nothing but builds that are allowed. -/
inductive FilledBy (Allowed : ∀ σ P : Type, Toolchain σ P → ValidatorSet → BuildOptions → Prop) :
    Cache κ → Prop
  | start {c : Cache κ} (h : c.IsBlank) : FilledBy Allowed c
  | build {σ P : Type} [Program P] {c c' : Cache κ} (h : FilledBy Allowed c) {t : Toolchain σ P}
    {set : ValidatorSet} {options : BuildOptions} (hallowed : Allowed σ P t set options) (s : σ)
    (hc : (ScriptBundle.build t set options (some c) s).cache = some c') : FilledBy Allowed c'
  | rewind {c : Cache κ} (h : FilledBy Allowed c) : FilledBy Allowed c.rewind
  /-- Entries are gone or damaged, or the tree around them has changed. -/
  | lost {store store' : κ} (h : FilledBy Allowed (.keyed store))
    (hlost : ∀ key content, Backend.Offers store' key content → Backend.Offers store key content) :
    FilledBy Allowed (.keyed store')

/-- A cache that was filled by nothing but builds, whichever they were. -/
def Filled (c : Cache κ) : Prop := c.FilledBy fun _ _ _ _ _ => True

/-- **Any number of builds.**  What is true of the records of all bundles that the builds may have
compiled is true of all that the cache has to serve. -/
theorem FilledBy.allOffered (h : c.FilledBy Allowed)
    (hQ : ∀ {σ P : Type} [Program P] {t : Toolchain σ P} {set : ValidatorSet}
      {options : BuildOptions}, Allowed σ P t set options → ∀ s (b : Bundle P) s',
        checkDeclared set options = .ok () → Runs (compileSet t set options) s b s' →
          Q b.key (b.record options.debug t.format)) : c.AllOffered Q := by
  induction h with
  | start h => exact h.imp fun _ _ hfalse => hfalse.elim
  | build _ hallowed s hc ih => exact ih.build (hQ hallowed s) hc
  | rewind _ ih => exact ih.rewind
  | lost _ hlost ih => exact fun key content hoffers => ih key content (hlost key content hoffers)

end Cache

end ScriptBundle

/-
# Builds with toolchains that answer alike

What comes of a build depends on a toolchain only through its answers.  Two toolchains may remember
different things; if what they remember is related in some way, they answer alike, and what they
remember next is related again, then validators compile to the same with either of them
(`simulates_compileAlong`).

Two cases occur.  A toolchain whose answers do not depend on what it remembers is related to itself
in every state, so its builds have one outcome; and a toolchain is related to itself while it is
watched, so watching a build changes nothing.
-/
import ScriptBundle.Build

namespace ScriptBundle

variable {σ τ α β P : Type}

namespace Work

/-! ## 1. Work that comes to the same -/

/-- From memories that are related both come to the same, and leave memories that are related. -/
def Simulates (rel : σ → τ → Prop) (w : Work σ α) (w' : Work τ α) : Prop :=
  ∀ s s', rel s s' → (w.outcome s).1 = (w'.outcome s').1 ∧ rel (w.outcome s).2 (w'.outcome s').2

theorem outcome_bind (w : Work σ α) (f : α → Work σ β) (s : σ) :
    (w >>= f).outcome s =
      match w.outcome s with
      | (.ok a, s') => (f a).outcome s'
      | (.error e, s') => (.error e, s') := by
  change outcome (EStateM.bind w f) s = _
  unfold outcome EStateM.bind
  cases w s <;> rfl

variable {rel : σ → τ → Prop}

theorem simulates_pure (a : α) : Simulates rel (pure a) (pure a) := fun _ _ h => ⟨rfl, h⟩

theorem simulates_ofResult (r : Except BuildError α) :
    Simulates rel (ofResult r) (ofResult r) := by
  cases r <;> exact fun _ _ h => ⟨rfl, h⟩

theorem simulates_ofTool {wrap : String → BuildError} {step : σ → Except String α × σ}
    {step' : τ → Except String α × τ}
    (h : ∀ s s', rel s s' → (step s).1 = (step' s').1 ∧ rel (step s).2 (step' s').2) :
    Simulates rel (ofTool wrap step) (ofTool wrap step') := by
  intro s s' hs
  obtain ⟨hanswer, hnext⟩ := h s s' hs
  unfold outcome ofTool
  generalize step s = x, step' s' = x' at hanswer hnext ⊢
  obtain ⟨_ | _, _⟩ := x <;> obtain ⟨_ | _, _⟩ := x' <;> cases hanswer <;> exact ⟨rfl, hnext⟩

theorem Simulates.bind {w : Work σ α} {w' : Work τ α} {f : α → Work σ β} {f' : α → Work τ β}
    (hw : Simulates rel w w') (hf : ∀ a, Simulates rel (f a) (f' a)) :
    Simulates rel (w >>= f) (w' >>= f') := by
  intro s s' hs
  obtain ⟨hanswer, hnext⟩ := hw s s' hs
  rw [outcome_bind, outcome_bind]
  generalize w.outcome s = x, w'.outcome s' = x' at hanswer hnext ⊢
  obtain ⟨_ | a, r⟩ := x <;> obtain ⟨_ | a', r'⟩ := x' <;> cases hanswer
  · exact ⟨rfl, hnext⟩
  · exact hf a r r' hnext

end Work

open Work

/-! ## 2. Toolchains that answer alike -/

/-- When what they remember is related, both toolchains answer a request alike, and what they
remember then is related. -/
structure Toolchain.Simulates (rel : σ → τ → Prop) (t : Toolchain σ P) (t' : Toolchain τ P) :
    Prop where
  version_eq : t.version = t'.version
  format_eq : t.format = t'.format
  compile : ∀ request s s', rel s s' → (t.compile request s).1 = (t'.compile request s').1 ∧
    rel (t.compile request s).2 (t'.compile request s').2

/-- The toolchain behind one that is watched answers like it. -/
theorem Toolchain.simulates_watched (t : Toolchain σ P) :
    t.Simulates (fun s (x : σ × Activity) => s = x.1) t.watched where
  version_eq := rfl
  format_eq := rfl
  compile := by
    rintro request _ x rfl
    exact ⟨rfl, rfl⟩

section

variable {rel : σ → τ → Prop} {t : Toolchain σ P} {t' : Toolchain τ P} {options : BuildOptions}
  {set : ValidatorSet}

theorem simulates_compileRequest (ht : t.Simulates rel t') (request : Request) :
    Work.Simulates rel (compileRequest t request) (compileRequest t' request) := by
  refine simulates_ofTool fun s s' hs => ?_
  obtain ⟨hanswer, hnext⟩ := ht.compile request s s' hs
  dsimp only
  rw [hanswer]
  exact ⟨rfl, hnext⟩

theorem simulates_assemble (ht : t.Simulates rel t') (hashes : NameMap Bytes)
    (excluded : List String) (name : String) (r : Resolved P) :
    Work.Simulates rel (assemble t options set hashes excluded name r)
      (assemble t' options set hashes excluded name r) := by
  refine (simulates_ofResult _).bind fun modules => ?_
  refine (simulates_compileRequest ht _).bind fun ⟨output, emitted⟩ => ?_
  refine (simulates_ofResult _).bind fun redeemer => ?_
  refine (simulates_ofResult _).bind fun datum => ?_
  rw [ht.format_eq]
  exact simulates_pure _

theorem simulates_assembleFrom (ht : t.Simulates rel t') (hashes : NameMap Bytes)
    (gathered : NameMap (Emission P)) (entries : List (String × Resolved P)) :
    Work.Simulates rel (assembleFrom t options set hashes gathered entries)
      (assembleFrom t' options set hashes gathered entries) := by
  induction entries generalizing gathered with
  | nil => exact simulates_pure _
  | cons e rest ih =>
    refine (simulates_assemble ht hashes gathered.names e.1 e.2).bind fun ⟨v, emitted⟩ => ?_
    exact (ih (gather gathered emitted)).bind fun _ => simulates_pure _

theorem simulates_assembleAll (ht : t.Simulates rel t') (key : Digest)
    (resolved : NameMap (Resolved P)) :
    Work.Simulates rel (assembleAll t options set key resolved)
      (assembleAll t' options set key resolved) :=
  (simulates_assembleFrom ht _ _ _).bind fun _ => simulates_pure _

variable [Program P]

theorem simulates_resolve (ht : t.Simulates rel t') (resolved : NameMap (Resolved P))
    (name : String) (v : Validator) :
    Work.Simulates rel (resolve t options set resolved name v)
      (resolve t' options set resolved name v) := by
  refine (simulates_ofResult _).bind fun modules => ?_
  refine (simulates_compileRequest ht _).bind fun ⟨output, _⟩ => ?_
  exact (simulates_ofResult _).bind fun _ => simulates_pure _

theorem simulates_resolveFrom (ht : t.Simulates rel t') (resolved : NameMap (Resolved P))
    (order : List String) :
    Work.Simulates rel (resolveFrom t options set resolved order)
      (resolveFrom t' options set resolved order) := by
  induction order generalizing resolved with
  | nil => exact simulates_pure _
  | cons name rest ih =>
    rw [resolveFrom, resolveFrom]
    cases set.validators.get? name with
    | none => exact ih resolved
    | some v => exact (simulates_resolve ht resolved name v).bind fun resolved => ih resolved

/-- Both passes, the first one in some order. -/
def compileAlong (t : Toolchain σ P) (set : ValidatorSet) (options : BuildOptions)
    (order : List String) : Work σ (Bundle P) := do
  let resolved ← resolveAll t options set order
  assembleAll t options set (buildKey t set options) resolved

/-- **Both passes.**  Validators compile to the same with toolchains that answer alike. -/
theorem simulates_compileAlong (ht : t.Simulates rel t') (order : List String) :
    Work.Simulates rel (compileAlong t set options order) (compileAlong t' set options order) := by
  refine (simulates_resolveFrom ht _ order).bind fun resolved => ?_
  have hkey : buildKey t set options = buildKey t' set options := by
    rw [buildKey, buildKey, keyInputs, keyInputs, ht.version_eq]
  rw [hkey]
  exact simulates_assembleAll ht _ resolved

theorem simulates_compileSet (ht : t.Simulates rel t') :
    Work.Simulates rel (compileSet t set options) (compileSet t' set options) :=
  (simulates_ofResult _).bind fun order => simulates_compileAlong ht order

end

end ScriptBundle

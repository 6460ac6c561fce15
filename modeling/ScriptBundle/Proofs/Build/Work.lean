/-
# Work that does not depend on what a toolchain remembers

A toolchain may remember things, but whether a build succeeds and with what must not depend on
them.  Work is `Settled` if its outcome does not, and it `Gives` a result if that is its outcome
whatever the toolchain remembers.  Settled work is a chain of steps like any other that can fail
(`gives_bind_iff`), so nothing has to be said about the toolchain's memory from here on.

A toolchain is `Faithful` if compiling depends on the request alone and programs are loaded back
from their bytes.  Such a toolchain answers alike whatever it remembers, so with it both passes are
settled (`settled_compileSet`).
-/
import Mathlib.Logic.Nonempty
import ScriptBundle.Build.LineScript
import ScriptBundle.Proofs.Build.Simulation
import ScriptBundle.Proofs.Outcome

namespace ScriptBundle

variable {σ α β P : Type}

namespace Work

/-! ## 1. Settled work -/

/-- The outcome does not depend on what the toolchain remembers. -/
def Settled (w : Work σ α) : Prop := ∀ s s', (w.outcome s).1 = (w.outcome s').1

/-- The outcome is a result, whatever the toolchain remembers. -/
def Gives (w : Work σ α) (a : α) : Prop := ∀ s, (w.outcome s).1 = .ok a

theorem settled_iff_simulates {w : Work σ α} : Settled w ↔ Simulates (fun _ _ => True) w w :=
  ⟨fun h s s' _ => ⟨h s s', trivial⟩, fun h s s' => (h s s' trivial).1⟩

theorem settled_ofResult (r : Except BuildError α) : Settled (ofResult r : Work σ α) :=
  settled_iff_simulates.mpr (simulates_ofResult r)

theorem settled_pure (a : α) : Settled (pure a : Work σ α) := fun _ _ => rfl

theorem Settled.bind {w : Work σ α} {f : α → Work σ β} (hw : Settled w)
    (hf : ∀ a, Settled (f a)) : Settled (w >>= f) :=
  settled_iff_simulates.mpr ((settled_iff_simulates.mp hw).bind fun a =>
    settled_iff_simulates.mp (hf a))

theorem Settled.gives {w : Work σ α} (hw : Settled w) {s : σ} {a : α}
    (h : (w.outcome s).1 = .ok a) : Gives w a :=
  fun s' => (hw s' s).trans h

theorem Gives.settled {w : Work σ α} {a : α} (h : Gives w a) : Settled w :=
  fun s s' => (h s).trans (h s').symm

theorem Gives.bind {w : Work σ α} {f : α → Work σ β} {a : α} {b : β} (hw : Gives w a)
    (hf : Gives (f a) b) : Gives (w >>= f) b := by
  intro s
  have h := hw s
  rw [outcome_bind]
  generalize w.outcome s = x at h ⊢
  obtain ⟨_ | a', r⟩ := x <;> cases h
  exact hf r

theorem gives_pure (a : α) : Gives (pure a : Work σ α) a := fun _ => rfl

theorem gives_ofResult {r : Except BuildError α} {a : α} (h : r = .ok a) :
    Gives (ofResult r : Work σ α) a := by
  subst h
  exact fun _ => rfl

theorem gives_ofTool {wrap : String → BuildError} {step : σ → Except String α × σ} {a : α}
    (h : ∀ s, (step s).1 = .ok a) : Gives (ofTool wrap step) a := by
  intro s
  have hstep := h s
  unfold outcome ofTool
  generalize step s = x at hstep ⊢
  obtain ⟨_ | _, _⟩ := x <;> cases hstep
  rfl

section Inversion

variable [Nonempty σ]

theorem Gives.unique {w : Work σ α} {a b : α} (ha : Gives w a) (hb : Gives w b) : a = b := by
  obtain ⟨s⟩ := ‹Nonempty σ›
  exact Except.ok.inj ((ha s).symm.trans (hb s))

theorem gives_pure_iff {a b : α} : Gives (pure a : Work σ α) b ↔ a = b :=
  ⟨(gives_pure a).unique, fun h => h ▸ gives_pure a⟩

theorem gives_ofResult_iff {r : Except BuildError α} {a : α} :
    Gives (ofResult r : Work σ α) a ↔ r = .ok a := by
  refine ⟨fun h => ?_, gives_ofResult⟩
  obtain ⟨s⟩ := ‹Nonempty σ›
  cases r with
  | ok b => exact h s
  | error e => cases h s

/-- **Chains of settled work.**  A chain gives a result iff its first step gives something and the
rest, on that, gives the result. -/
theorem gives_bind_iff {w : Work σ α} {f : α → Work σ β} {b : β} (hw : Settled w)
    (hf : ∀ a, Settled (f a)) : Gives (w >>= f) b ↔ ∃ a, Gives w a ∧ Gives (f a) b := by
  refine ⟨fun h => ?_, fun ⟨_, hw, hf⟩ => hw.bind hf⟩
  obtain ⟨s⟩ := ‹Nonempty σ›
  have hs := h s
  rw [outcome_bind] at hs
  rcases hstep : w.outcome s with ⟨e | a, r⟩
  · rw [hstep] at hs
    cases hs
  · rw [hstep] at hs
    exact ⟨a, hw.gives (congrArg Prod.fst hstep), (hf a).gives hs⟩

end Inversion

end Work

open Work

/-! ## 2. Faithful toolchains -/

/-- Compiling depends on the request alone, and programs are loaded back from their bytes. -/
structure Toolchain.Faithful [Program P] (t : Toolchain σ P) : Prop where
  compile_eq : ∀ request s s', (t.compile request s).1 = (t.compile request s').1
  load_toBytes : ∀ p s, (t.load (Program.toBytes p) t.format s).1 = .ok p

/-- The small language's toolchain remembers nothing. -/
theorem LineScript.Settings.faithful (c : Settings) : c.toolchain.Faithful where
  compile_eq _ _ _ := rfl
  load_toBytes p _ := by
    change c.load (Bytes.ofText p.text) c.format = .ok p
    rw [load, if_neg fun h => h rfl, Bytes.toText?_ofText]

section

variable [Program P] {t : Toolchain σ P} {options : BuildOptions} {set : ValidatorSet}

/-- A faithful toolchain answers alike whatever it remembers. -/
theorem Toolchain.Faithful.simulates (ht : t.Faithful) : t.Simulates (fun _ _ => True) t :=
  ⟨rfl, rfl, fun request s s' _ => ⟨ht.compile_eq request s s', trivial⟩⟩

theorem settled_compileRequest (ht : t.Faithful) (request : Request) :
    Settled (compileRequest t request) :=
  settled_iff_simulates.mpr (simulates_compileRequest ht.simulates request)

theorem settled_resolve (ht : t.Faithful) (resolved : NameMap (Resolved P)) (name : String)
    (v : Validator) : Settled (resolve t options set resolved name v) :=
  settled_iff_simulates.mpr (simulates_resolve ht.simulates resolved name v)

theorem settled_resolveFrom (ht : t.Faithful) (resolved : NameMap (Resolved P))
    (order : List String) : Settled (resolveFrom t options set resolved order) :=
  settled_iff_simulates.mpr (simulates_resolveFrom ht.simulates resolved order)

theorem settled_assemble (ht : t.Faithful) (hashes : NameMap Bytes) (excluded : List String)
    (name : String) (r : Resolved P) :
    Settled (assemble t options set hashes excluded name r) :=
  settled_iff_simulates.mpr (simulates_assemble ht.simulates hashes excluded name r)

theorem settled_assembleFrom (ht : t.Faithful) (hashes : NameMap Bytes)
    (gathered : NameMap (Emission P)) (entries : List (String × Resolved P)) :
    Settled (assembleFrom t options set hashes gathered entries) :=
  settled_iff_simulates.mpr (simulates_assembleFrom ht.simulates hashes gathered entries)

/-- **A build's passes are settled.** -/
theorem settled_compileSet (ht : t.Faithful) : Settled (compileSet t set options) :=
  settled_iff_simulates.mpr (simulates_compileSet ht.simulates)

end

namespace Example

/-- The settings of a build in which nothing is asked for. -/
def plain : BuildOptions := ⟨.mainnet, false, .empty, .empty⟩

/-- A toolchain that knows no parameters. -/
def compiler : Toolchain Unit LineScript.Code :=
  LineScript.Settings.toolchain ⟨"1.0", "1", .empty⟩

end Example

end ScriptBundle

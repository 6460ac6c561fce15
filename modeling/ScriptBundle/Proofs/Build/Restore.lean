/-
# What is compiled can be restored

A bundle that was compiled can be used again without compiling anything.  Its record is written as
JSON, read back, and restored in a build with the same key, indices, network and debug setting; what
comes out differs from the compiled bundle in nothing but that it was restored (`restored_exact`).

Three things have to fit together.  A compiled bundle carries the settings of its build
(`isOf_of_runs_compileAlong`), so nothing is lost that its record leaves out.  The record is read
back as long as no schema nests too deeply for a text (`BuildRecord.ofBytes?_toBytes`).  And what
was recorded is restored field by field (`Bundle.gives_ofRecord`).

Of the toolchain only that is asked which restoring uses: that it loads a program back from its
bytes.  What it compiles may depend on everything that it remembers.
-/
import ScriptBundle.Proofs.Build.Run
import ScriptBundle.Proofs.Store.Nesting

namespace ScriptBundle

open Work

variable {σ κ P : Type} [Program P] [Backend κ] {t : Toolchain σ P} {set : ValidatorSet}
  {options : BuildOptions}

/-- What is left of a function is settled by the network and the debug setting alone. -/
theorem Bundle.IsOf.of_settings {indices : NameMap Nat} {b : Bundle P}
    (h : b.IsOf t options indices) {options' : BuildOptions}
    (hnetwork : options'.network = options.network) (hdebug : options'.debug = options.debug) :
    b.IsOf t options' indices where
  validators name v hmem :=
    have hv := h.validators name v hmem
    { hv with
      redeemer_network := hv.redeemer_network.trans hnetwork.symm
      datum_network := fun c hc => (hv.datum_network c hc).trans hnetwork.symm }
  userFuncs name f hmem :=
    have hf := h.userFuncs name f hmem
    { hf with
      network_eq := hf.network_eq.trans hnetwork.symm
      checksDivergence_eq := hf.checksDivergence_eq.trans hdebug.symm }

/-- What a function of a bundle makes of a call, if the bundle has a function of the name. -/
def Bundle.answer (b : Bundle P) (name : String) (call : Call) : Option (Except CallError Value) :=
  (b.userFuncs.get? name).map fun f => f.call call

/-- **Restored bundles.**  If a set compiles, and the record of the bundle does not nest more lists
and tables than a text may, then the record is read back from its bytes and restored under the
bundle's key with the same indices, network and debug setting, whatever the toolchain remembers by
then.  The restored bundle is the compiled one but for where it is from, and its functions answer
every call as they did. -/
theorem restored_exact (ht : t.LoadsBack) {s : σ} {b : Bundle P}
    (h : (build t set options (none : Option (Cache κ)) s).outcome = .ok b)
    (hnesting : (b.record options.debug t.format).toDocument.nesting ≤ Document.textDepth)
    {options' : BuildOptions} (hnetwork : options'.network = options.network)
    (hdebug : options'.debug = options.debug) :
    ∃ record, BuildRecord.ofBytes? (b.record options.debug t.format).toBytes = some record ∧
      ∀ s', ∃ b', ((Bundle.ofRecord t options' set.indices b.key record).outcome s').1 = .ok b' ∧
        b' = { b with fromCache := true } ∧
        ∀ name call, b'.answer name call = b.answer name call := by
  have hread : BuildRecord.ofBytes? (b.record options.debug t.format).toBytes =
      some (b.record options.debug t.format) := by
    rw [BuildRecord.ofBytes?_toBytes, if_pos (BuildRecord.isShallow_iff.mpr hnesting)]
  obtain ⟨order, _, -, hruns⟩ := exists_runs_of_build h
  obtain ⟨-, -, hof, -⟩ := isOf_of_runs_compileAlong hruns
  have hgives := Bundle.gives_ofRecord ht (hof.of_settings hnetwork hdebug) b.key options.debug
  exact ⟨_, hread, fun s' => ⟨_, hgives s', rfl, fun _ _ => rfl⟩⟩

namespace Example

/-- A policy, and a validator that embeds its hash, emits a function and carries a datum. -/
def counter : ValidatorSet where
  validators :=
    ⟨[("count", ⟨.spending, "func bump\nhash vault", [], ["vault"], true, .primitive .int,
        some (.option (.primitive .int))⟩),
      ("vault", ⟨.minting, "", [], [], false, .primitive .int, none⟩)], by decide⟩
  modules := .empty

/-- The settings of a build for debugging. -/
def debugging : BuildOptions := { plain with debug := true }

theorem restored_exact_counter :
    compiler.LoadsBack ∧
    ∃ b, (build compiler counter debugging (none : Option (Cache MemoryStore)) ()).outcome = .ok b ∧
      b.userFuncs.names = ["bump"] ∧
      (b.record true compiler.format).toDocument.nesting ≤ Document.textDepth ∧
      ∃ record, BuildRecord.ofBytes? (b.record true compiler.format).toBytes = some record ∧
        ∃ b', ((Bundle.ofRecord compiler debugging counter.indices b.key record).outcome ()).1 =
            .ok b' ∧
          b' = { b with fromCache := true } ∧
          ∀ name call, b'.answer name call = b.answer name call := by
  have hload : compiler.LoadsBack := (LineScript.Settings.faithful _).load_toBytes
  refine ⟨hload, ?_⟩
  have hchecks : ((build compiler counter debugging (none : Option (Cache MemoryStore))
      ()).outcome.toOption.any fun b => b.userFuncs.names = ["bump"] &&
        (b.record true compiler.format).toDocument.nesting ≤ Document.textDepth) = true := by
    decide +kernel
  obtain ⟨b, hb, hb_checks⟩ := exists_ok_of_any hchecks
  obtain ⟨hnames, hnesting⟩ :
      b.userFuncs.names = ["bump"] ∧
        (b.record true compiler.format).toDocument.nesting ≤ Document.textDepth := by
    simpa using hb_checks
  have hnetwork : debugging.network = debugging.network := rfl
  obtain ⟨record, hread, hrestored⟩ := restored_exact hload hb hnesting hnetwork rfl
  exact ⟨b, hb, hnames, hnesting, record, hread, hrestored ()⟩

end Example

end ScriptBundle

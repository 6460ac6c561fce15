/-
# A bundle is restored from its record

Everything in a bundle is either written into its record or follows from the build it is restored
in.  What follows from the build is said by `Bundle.IsOf`: the names under which things stand, the
version of programs, the indices and the settings that functions carry.  A bundle of which that is
true is restored from its record, and differs in nothing but that it was restored
(`gives_ofRecord`).
-/
import ScriptBundle.Proofs.Build.Work
import ScriptBundle.Proofs.NameMap

namespace ScriptBundle

variable {σ α β P : Type}

/-! ## 1. Walking over maps -/

theorem traverseList_map_eq_ok {ε : Type} {f : String → β → Except ε α} {g : String → α → β}
    (h : ∀ name a, f name (g name a) = .ok a) (es : List (String × α)) : ∃ hnames,
      NameMap.traverseList f (es.map fun (name, a) => (name, g name a)) = .ok ⟨es, hnames⟩ := by
  induction es with
  | nil => exact ⟨_, rfl⟩
  | cons e es ih =>
    obtain ⟨hnames, ih⟩ := ih
    refine ⟨by simp [Function.comp_def], ?_⟩
    refine bind_eq_ok_iff.mpr ⟨e.2, h e.1 e.2, ?_⟩
    exact bind_eq_ok_iff.mpr ⟨_, ih, rfl⟩

theorem traverse_map_eq_ok {ε : Type} {f : String → β → Except ε α} {g : String → α → β}
    (h : ∀ name a, f name (g name a) = .ok a) (m : NameMap α) : (m.map g).traverse f = .ok m := by
  obtain ⟨hnames, hread⟩ := traverseList_map_eq_ok h m.entries
  exact bind_eq_ok_iff.mpr ⟨_, hread, rfl⟩

namespace Work

theorem gives_eachEntry {f : String → β → Work σ α} {g : String → α → β}
    {es : List (String × α)} (h : ∀ e ∈ es, Gives (f e.1 (g e.1 e.2)) e.2) : ∃ hnames,
      Gives (eachEntry f (es.map fun (name, a) => (name, g name a))) ⟨es, hnames⟩ := by
  induction es with
  | nil => exact ⟨_, gives_pure _⟩
  | cons e es ih =>
    obtain ⟨he, hes⟩ := List.forall_mem_cons.mp h
    obtain ⟨hnames, ih⟩ := ih hes
    refine ⟨by simp [Function.comp_def], ?_⟩
    exact he.bind (ih.bind (gives_pure _))

theorem gives_onEach {f : String → β → Work σ α} {g : String → α → β} {m : NameMap α}
    (h : ∀ e ∈ m.entries, Gives (f e.1 (g e.1 e.2)) e.2) : Gives (onEach f (m.map g)) m := by
  obtain ⟨hnames, hread⟩ := gives_eachEntry h
  exact hread.bind (gives_pure _)

end Work

open Work

/-! ## 2. Recorded parts -/

theorem recordedBytes_encode (name part : String) (bytes : Bytes) :
    recordedBytes name part (Hex.encode bytes) = .ok bytes := by
  rw [recordedBytes, Hex.decode_encode]

theorem ofSchema_schema (c : Codec) : Codec.ofSchema c.schema c.network = .ok c := by
  unfold Codec.ofSchema
  split
  · rfl
  · rename_i h
    rw [c.check_schema] at h
    cases h

theorem validatorCodec_schema (name : String) (c : Codec) :
    validatorCodec name c.schema c.network = .ok c := by
  rw [validatorCodec, ofSchema_schema]

theorem optionalCodec_schema {network : Network} (name : String) {c : Option Codec}
    (h : ∀ d ∈ c, d.network = network) :
    optionalCodec name (c.map (·.schema)) network = .ok c := by
  cases c with
  | none => rfl
  | some d =>
    obtain rfl := h d rfl
    rw [Option.map_some, optionalCodec, validatorCodec_schema]
    rfl

section

variable [Program P] {t : Toolchain σ P} {options : BuildOptions} {indices : NameMap Nat}

/-- Programs are loaded back from their bytes, whatever the toolchain remembers. -/
def Toolchain.LoadsBack (t : Toolchain σ P) : Prop :=
  ∀ p s, (t.load (Program.toBytes p) t.format s).1 = .ok p

theorem gives_loadProgram (ht : t.LoadsBack) (name : String) (p : P) :
    Gives (loadProgram t name t.format (programText p)) p :=
  (gives_ofResult (recordedBytes_encode name "bytecode" _)).bind
    (gives_ofTool fun s => ht p s)

theorem gives_loadPrograms (ht : t.LoadsBack) (name : String) (programs : Programs P)
    (diagnostics unoptimizedDiagnostics : Diagnostics) :
    Gives (loadPrograms t name (codeRecord programs diagnostics unoptimizedDiagnostics t.format))
      programs := by
  obtain ⟨optimized, unoptimized⟩ := programs
  refine (gives_loadProgram ht name optimized).bind ?_
  cases unoptimized with
  | none => exact gives_pure _
  | some p => exact (gives_loadProgram ht name p).bind (gives_pure _)

/-! ## 3. What follows from the build -/

/-- A compiled validator stands under its name, and its version and hash are those of its
programs. -/
structure CompiledValidator.IsOf (t : Toolchain σ P) (options : BuildOptions) (name : String)
    (v : CompiledValidator P) : Prop where
  name_eq : v.name = name
  version_eq : v.version = t.format
  hash_eq : v.programs.hash = v.hash
  redeemer_network : v.redeemer.network = options.network
  datum_network : ∀ c ∈ v.datum, c.network = options.network

/-- A function stands under its name and carries the settings of the build. -/
structure UserFunc.IsOf (options : BuildOptions) (indices : NameMap Nat) (name : String)
    (f : UserFunc P) : Prop where
  name_eq : f.name = name
  indices_eq : f.indices = indices
  network_eq : f.network = options.network
  checksDivergence_eq : f.checksDivergence = options.debug

/-- All of a bundle is as the build that it is of makes it. -/
structure Bundle.IsOf (t : Toolchain σ P) (options : BuildOptions) (indices : NameMap Nat)
    (b : Bundle P) : Prop where
  validators : ∀ name v, (name, v) ∈ b.validators.entries → v.IsOf t options name
  userFuncs : ∀ name f, (name, f) ∈ b.userFuncs.entries → f.IsOf options indices name

theorem CompiledValidator.gives_ofRecord (ht : t.LoadsBack) {name : String}
    {v : CompiledValidator P} (h : v.IsOf t options name) :
    Gives (CompiledValidator.ofRecord t name v.record) v := by
  obtain ⟨name', purpose, hash, programs, version, redeemer, datum, dependencies, diagnostics,
    unoptimizedDiagnostics⟩ := v
  obtain ⟨rfl, rfl, hhash, hredeemer, hdatum⟩ := h
  have hpurpose : recordedPurpose name' (record ⟨name', purpose, hash, programs, t.format, redeemer,
      datum, dependencies, diagnostics, unoptimizedDiagnostics⟩) = .ok purpose := by
    simp only [recordedPurpose, record, Purpose.parse_name]
  refine (gives_ofResult hpurpose).bind ?_
  refine (gives_ofResult (recordedBytes_encode name' "hash" hash)).bind ?_
  refine (gives_loadPrograms ht name' programs diagnostics unoptimizedDiagnostics).bind ?_
  rw [if_neg (not_not.mpr hhash)]
  have hdependencies : (dependencies.map fun _ hash => Hex.encode hash).traverse
      (fun d text => recordedBytes name' d text) = .ok dependencies :=
    traverse_map_eq_ok (fun d hash => recordedBytes_encode name' d hash) dependencies
  refine (gives_ofResult hdependencies).bind ?_
  refine (gives_ofResult (validatorCodec_schema name' redeemer)).bind ?_
  have hdatum' : ∀ c ∈ datum, c.network = redeemer.network :=
    fun c hc => (hdatum c hc).trans hredeemer.symm
  exact (gives_ofResult (optionalCodec_schema name' hdatum')).bind (gives_pure _)

theorem argument_record (a : Argument) : a.record.argument = a := rfl

theorem signature_record (f : UserFunc P) (version : String) :
    (f.record version).signature = f.signature := by
  have harguments : (f.signature.arguments.map Argument.record).map ArgumentRecord.argument =
      f.signature.arguments := by
    rw [List.map_map]
    exact List.map_id'' argument_record _
  rw [UserFuncRecord.signature, UserFunc.record, harguments]

theorem UserFunc.gives_ofRecord (ht : t.LoadsBack) {name : String} {f : UserFunc P}
    (h : f.IsOf options indices name) :
    Gives (UserFunc.ofRecord t options indices name (f.record t.format)) f := by
  have hsignature := signature_record f t.format
  obtain ⟨name', programs, signature, indices', network, checksDivergence, diagnostics,
    unoptimizedDiagnostics⟩ := f
  obtain ⟨rfl, rfl, rfl, rfl⟩ := h
  refine (gives_loadPrograms ht _ programs diagnostics unoptimizedDiagnostics).bind ?_
  rw [hsignature]
  exact gives_pure _

/-- **Restoring what was recorded.**  A bundle is restored from its record, if what the record does
not say is as the build makes it. -/
theorem Bundle.gives_ofRecord (ht : t.LoadsBack) {b : Bundle P} (h : b.IsOf t options indices)
    (key : Digest) (debug : Bool) :
    Gives (Bundle.ofRecord t options indices key (b.record debug t.format))
      { b with key, fromCache := true } := by
  have hvalidators := gives_onEach (f := CompiledValidator.ofRecord t) (g := fun _ v => v.record)
    fun e he => CompiledValidator.gives_ofRecord ht (h.validators e.1 e.2 he)
  have huserFuncs := gives_onEach (f := UserFunc.ofRecord t options indices)
    (g := fun _ f => f.record t.format)
    fun e he => UserFunc.gives_ofRecord ht (h.userFuncs e.1 e.2 he)
  exact hvalidators.bind (huserFuncs.bind (gives_pure _))

end

end ScriptBundle

/-
# The second pass, and the functions it gathers

What a toolchain emits while it compiles one validator changes what it is told with the next: the
functions that are gathered by then need not be emitted again.  A logged toolchain remembers each
request together with what was emitted while it was compiled, so both directions of this can be
read off the log of a build (`buildLog`).

The second pass asks once for each validator, in the order of names.  Each one is told all the
hashes of the bundle, and to leave out the names of all that was emitted before in this pass
(`Request.IsSecond`).  Nothing is assumed of the toolchain, which may emit them all the same: a
bundle has the functions whose names were emitted in the second pass, each as it was emitted first
(`harvest_exact`).  What is emitted in the first pass makes no difference to anything
(`build_emittingFirst`).

The invariant of the second pass is that what is gathered is what the log so far has emitted,
gathered.
-/
import ScriptBundle.Proofs.Build.Requests

namespace ScriptBundle

open Work

variable {σ κ P : Type} {t : Toolchain σ P} {options : BuildOptions} {set : ValidatorSet}
  {name : String}

/-! ## 1. Gathering -/

/-- Of the functions of a name the first one stays. -/
theorem get?_gather (gathered : NameMap (Emission P)) (emitted : List (Emission P))
    (name : String) :
    (gather gathered emitted).get? name =
      (gathered.get? name).or (emitted.find? (·.name = name)) := by
  induction emitted generalizing gathered with
  | nil => exact (Option.or_none).symm
  | cons e rest ih =>
    change (gather (if gathered.contains e.name then gathered else gathered.insert e.name e)
      rest).get? name = _
    rw [ih, List.find?_cons]
    by_cases hname : e.name = name
    · subst hname
      rw [decide_eq_true rfl]
      -- Either the name was known, and nothing changes, or the function is put in.
      cases hknown : gathered.get? e.name with
      | some e' => simp [NameMap.contains, hknown]
      | none => simp [NameMap.contains, hknown, NameMap.get?_insert]
    · rw [decide_eq_false hname]
      split
      · rfl
      · rw [NameMap.get?_insert, if_neg fun h => hname h.symm]

theorem mem_names_gather {gathered : NameMap (Emission P)} {emitted : List (Emission P)} :
    name ∈ (gather gathered emitted).names ↔
      name ∈ gathered.names ∨ name ∈ emitted.map (·.name) := by
  simp only [NameMap.mem_names_iff, ← Option.isSome_iff_exists, get?_gather, Option.isSome_or,
    Bool.or_eq_true, List.find?_isSome, decide_eq_true_eq, List.mem_map]

theorem gather_append (gathered : NameMap (Emission P)) (emitted emitted' : List (Emission P)) :
    gather (gather gathered emitted) emitted' = gather gathered (emitted ++ emitted') :=
  List.foldl_append.symm

/-! ## 2. Logs -/

/-- A request, and the functions that were emitted while it was compiled. -/
structure Exchange (P : Type) where
  request : Request
  emitted : List (Emission P)

/-- All functions that were emitted, in that order. -/
def emissions (log : List (Exchange P)) : List (Emission P) := log.flatMap (·.emitted)

/-- The toolchain, logged: it does the same and remembers what it was asked to compile and what it
emitted then. -/
def Toolchain.logged (t : Toolchain σ P) : Toolchain (σ × List (Exchange P)) P where
  version := t.version
  format := t.format
  compile request s :=
    let (compilation, state) := t.compile request s.1
    (compilation, state, s.2 ++ [⟨request, compilation.emitted⟩])
  load bytes format s :=
    let (program, state) := t.load bytes format s.1
    (program, state, s.2)

/-- The toolchain behind one that is logged answers like it. -/
theorem Toolchain.simulates_logged (t : Toolchain σ P) :
    t.Simulates (fun s (x : σ × List (Exchange P)) => s = x.1) t.logged where
  version_eq := rfl
  format_eq := rfl
  compile := by
    rintro request _ x rfl
    exact ⟨rfl, rfl⟩

/-- What is logged from one state of a log to another. -/
def Logged (x x' : σ × List (Exchange P)) (log : List (Exchange P)) : Prop := x'.2 = x.2 ++ log

theorem Logged.append {x x' x'' : σ × List (Exchange P)} {log log' : List (Exchange P)}
    (h : Logged x x' log) (h' : Logged x' x'' log') : Logged x x'' (log ++ log') := by
  rw [Logged, h', h, List.append_assoc]

theorem logged_of_runs_compileRequest {request : Request} {x x' : σ × List (Exchange P)}
    {y : Output P × List (Emission P)} (h : Runs (compileRequest t.logged request) x y x') :
    Logged x x' [⟨request, y.2⟩] := by
  have hstep := runs_ofTool_iff.mp h
  rcases hcompile : t.compile request x.1 with ⟨⟨emitted, outcome⟩, state⟩
  simp only [Toolchain.logged, hcompile, Prod.mk.injEq] at hstep
  obtain ⟨houtcome, rfl⟩ := hstep
  cases outcome <;> cases houtcome
  rfl

/-! ## 3. The log of the first pass -/

/-- The first pass asks once for each name, and always for an optimized program. -/
theorem logged_of_runs_resolveFrom [Program P] {resolved last : NameMap (Resolved P)}
    {order : List String} {x x' : σ × List (Exchange P)}
    (h : Runs (resolveFrom t.logged options set resolved order) x last x')
    (horder : ∀ n ∈ order, n ∈ set.validators.names) :
    ∃ log, Logged x x' log ∧ log.map (·.request.name) = order ∧
      ∀ c ∈ log, c.request.optimize = true := by
  induction order generalizing resolved x with
  | nil =>
    obtain ⟨-, rfl⟩ := runs_pure_iff.mp h
    exact ⟨[], (List.append_nil _).symm, rfl, List.forall_mem_nil _⟩
  | cons name rest ih =>
    obtain ⟨hname, hrest⟩ := List.forall_mem_cons.mp horder
    obtain ⟨v, hv⟩ := NameMap.mem_names_iff.mp hname
    obtain ⟨next, x₁, hstep, hlast⟩ := (runs_resolveFrom_cons_iff hv).mp h
    obtain ⟨log, hlog, hnames, hfirst⟩ := ih hlast hrest
    obtain ⟨modules, output, emitted, -, hcompile, -, -⟩ := runs_resolve_iff.mp hstep
    refine ⟨_ :: log, (logged_of_runs_compileRequest hcompile).append hlog, ?_, ?_⟩
    · exact congrArg (name :: ·) hnames
    · exact List.forall_mem_cons.mpr ⟨rfl, hfirst⟩

/-! ## 4. The log of the second pass -/

/-- What is asked for an entry in the second pass, when some functions have been emitted in it. -/
def Request.IsFor (options : BuildOptions) (set : ValidatorSet) (hashes : NameMap Bytes)
    (entries : List (String × Resolved P)) (emitted : List (Emission P)) (r : Request) : Prop :=
  ∃ e ∈ entries, ∃ modules,
    r = secondRequest options set hashes (gather .empty emitted).names e.1 e.2 modules

/-- **The loop of the second pass.**  If what is gathered is what was emitted before, then each
request excludes the names of all that was emitted before it, and in the end all that was emitted is
gathered. -/
theorem logged_of_runs_assembleFrom {hashes : NameMap Bytes} {emitted : List (Emission P)}
    {entries : List (String × Resolved P)} {y : Assembly P entries}
    {x x' : σ × List (Exchange P)}
    (h : Runs (assembleFrom t.logged options set hashes (gather .empty emitted) entries) x y x') :
    ∃ log, Logged x x' log ∧ log.map (·.request.name) = entries.map (·.1) ∧
      y.2 = gather .empty (emitted ++ emissions log) ∧
      ∀ before c after, log = before ++ c :: after →
        c.request.IsFor options set hashes entries (emitted ++ emissions before) := by
  induction entries generalizing emitted x with
  | nil =>
    obtain ⟨rfl, rfl⟩ := runs_pure_iff.mp h
    refine ⟨[], (List.append_nil _).symm, rfl, by rw [emissions, List.flatMap_nil, List.append_nil],
      fun before c after heq => ?_⟩
    cases (List.append_eq_nil_iff.mp heq.symm).2
  | cons e rest ih =>
    obtain ⟨v, emitted', x₁, y', hassemble, hrest, -, hgathered⟩ :=
      runs_assembleFrom_cons_iff.mp h
    obtain ⟨modules, output, _, _, -, hcompile, -, -, -⟩ := runs_assemble_iff.mp hassemble
    rw [gather_append] at hrest
    obtain ⟨log, hlog, hnames, hlast, hrequests⟩ := ih hrest
    refine ⟨_ :: log, (logged_of_runs_compileRequest hcompile).append hlog, ?_, ?_, ?_⟩
    · exact congrArg (e.1 :: ·) hnames
    · rw [hgathered, hlast, List.append_assoc]
      rfl
    · intro before c after heq
      cases before with
      | nil =>
        obtain ⟨rfl, -⟩ := List.cons.inj heq
        refine ⟨e, List.mem_cons_self, modules, ?_⟩
        rw [emissions, List.flatMap_nil, List.append_nil]
      | cons c' before =>
        obtain ⟨rfl, htail⟩ := List.cons.inj heq
        obtain ⟨e', he', hrequest⟩ := hrequests before c after htail
        refine ⟨e', List.mem_cons_of_mem _ he', ?_⟩
        rwa [List.append_assoc] at hrequest

/-! ## 5. What the second pass tells -/

/-- What a validator is told of a validator of the set in the second pass: its place, the type of
its hash, and the hash that it has in the bundle. -/
structure Reference.IsFinal (set : ValidatorSet) (b : Bundle P) (ref : Reference) : Prop where
  index : set.indices.get? ref.name = some ref.index
  hashType : ∃ v, set.validators.get? ref.name = some v ∧ ref.hashType = v.purpose.hashType
  hash : ∃ v, b.validators.get? ref.name = some v ∧ ref.hash = v.hash

/-- What a validator is told in the second pass, when some functions have been emitted in it: its
own hash in the bundle and those of all validators, in the order of names, and to leave out the
names that were emitted. -/
structure Request.IsSecond (set : ValidatorSet) (b : Bundle P) (emitted : List (Emission P))
    (r : Request) : Prop where
  optimize : r.optimize = false
  ownHash : ∃ v, b.validators.get? r.name = some v ∧ r.ownHash = some v.hash
  names : r.references.map (·.name) = set.validators.names
  references : ∀ ref ∈ r.references, ref.IsFinal set b
  excluded : ∀ n, n ∈ r.excluded ↔ n ∈ emitted.map (·.name)
  sorted : r.excluded.Pairwise (· < ·)

/-- With the hashes of the bundle known, what is asked for is told what is final. -/
theorem Request.IsFor.isSecond {b : Bundle P} {resolved : NameMap (Resolved P)}
    {emitted : List (Emission P)} {r : Request}
    (h : r.IsFor options set b.hashes resolved.entries emitted)
    (hnames : b.validators.names = set.validators.names)
    (hhashes : b.hashes = resolvedHashes resolved) : r.IsSecond set b emitted := by
  obtain ⟨e, he, modules, rfl⟩ := h
  have hown : b.hashes.get? e.1 = some e.2.hash := by
    rw [hhashes, resolvedHashes, NameMap.get?_map, NameMap.get?_eq_some_iff.mpr he]
    rfl
  refine ⟨rfl, ?_, names_references set _, fun ref href => ?_, fun n => ?_, ?_⟩
  · obtain ⟨v, hv, heq⟩ := Bundle.get?_hashes.mp hown
    exact ⟨v, hv, congrArg some heq.symm⟩
  · obtain ⟨hindex, ⟨w, hw, htype⟩, hhash⟩ := reference_eq href
    obtain ⟨v, hv⟩ := NameMap.mem_names_iff.mp (hnames ▸ NameMap.mem_names_iff.mpr ⟨w, hw⟩)
    refine ⟨hindex, ⟨w, hw, htype⟩, v, hv, ?_⟩
    rw [hhash, Bundle.get?_hashes.mpr ⟨v, hv, rfl⟩]
    rfl
  · exact mem_names_gather.trans (or_iff_right List.not_mem_nil)
  · exact (gather .empty emitted).sorted

/-- How the functions of a bundle come about.  Each validator is asked for once in the first pass,
and then once in the second one, in the order of names.  The bundle has the functions whose names
were emitted in the second pass, each as it was emitted first. -/
def Bundle.HarvestedFrom (b : Bundle P) (set : ValidatorSet) (options : BuildOptions)
    (log : List (Exchange P)) : Prop :=
  ∃ first second, log = first ++ second ∧
    (∀ c ∈ first, c.request.optimize = true) ∧
    (first.map (·.request.name)).Perm set.validators.names ∧
    second.map (·.request.name) = set.validators.names ∧
    (∀ before c after, second = before ++ c :: after →
      c.request.IsSecond set b (emissions before)) ∧
    (∀ n, n ∈ b.userFuncs.names ↔ n ∈ (emissions second).map (·.name)) ∧
    ∀ n, b.userFuncs.get? n =
      ((emissions second).find? (·.name = n)).map (options.userFunc set.indices n)

variable [Program P]

theorem harvestedFrom_of_runs_compileAlong {order : List String} {b : Bundle P}
    {x x' : σ × List (Exchange P)}
    (h : Runs (compileAlong t.logged set options order) x b x')
    (hperm : order.Perm set.validators.names) :
    ∃ log, Logged x x' log ∧ b.HarvestedFrom set options log := by
  have hnames := names_of_runs_compileAlong h fun n => hperm.mem_iff
  obtain ⟨resolved, x₁, y, hresolved, hy, rfl⟩ := runs_compileAlong_iff.mp h
  have hhashes := hashes_assembledBundle hy fun e he =>
    (isSound_of_runs_resolveAll hresolved e he).hash_eq
  obtain ⟨first, hfirst, hfirstNames, hoptimize⟩ :=
    logged_of_runs_resolveFrom hresolved fun n => hperm.mem_iff.mp
  have hy' : Runs (assembleFrom t.logged options set (resolvedHashes resolved) (gather .empty [])
      resolved.entries) x₁ y x' := hy
  obtain ⟨second, hsecond, hsecondNames, hgathered, hrequests⟩ := logged_of_runs_assembleFrom hy'
  have hresolvedNames : resolved.entries.map (·.1) = set.validators.names :=
    (NameMap.names_withNames resolved y.1.1 y.1.2).symm.trans hnames
  refine ⟨first ++ second, hfirst.append hsecond, first, second, rfl, hoptimize,
    hfirstNames ▸ hperm, hsecondNames.trans hresolvedNames, fun before c after heq => ?_,
    fun n => ?_, fun n => ?_⟩
  · rw [← hhashes] at hrequests
    exact (hrequests before c after heq).isSecond hnames hhashes
  · change n ∈ (y.2.map (options.userFunc set.indices)).names ↔ _
    rw [NameMap.names_map, hgathered, mem_names_gather]
    exact or_iff_right List.not_mem_nil
  · change (y.2.map (options.userFunc set.indices)).get? n = _
    rw [NameMap.get?_map, hgathered, get?_gather]
    rfl

/-! ## 6. What the first pass emits -/

/-- The toolchain, but for what it emits while it compiles optimized programs. -/
def Toolchain.emittingFirst (t : Toolchain σ P) (emit : Request → σ → List (Emission P)) :
    Toolchain σ P where
  version := t.version
  format := t.format
  compile request s :=
    let (compilation, state) := t.compile request s
    (if request.optimize then { compilation with emitted := emit request s } else compilation,
      state)
  load := t.load

variable {emit : Request → σ → List (Emission P)}

omit [Program P] in
theorem compileRequest_apply (request : Request) (s : σ) :
    compileRequest t request s =
      match (t.compile request s).1.outcome with
      | .ok output => .ok (output, (t.compile request s).1.emitted) (t.compile request s).2
      | .error complaint => .error (.frontend request.name complaint) (t.compile request s).2 := by
  unfold compileRequest ofTool
  beta_reduce
  rcases t.compile request s with ⟨⟨_, _ | _⟩, _⟩ <;> rfl

omit [Program P] in
/-- Work that drops what was emitted does not depend on it. -/
theorem bind_compileRequest_emittingFirst {α : Type} (request : Request)
    (f : Output P → Work σ α) :
    (compileRequest (t.emittingFirst emit) request >>= fun x => f x.1) =
      compileRequest t request >>= fun x => f x.1 := by
  funext s
  have houtcome : ((t.emittingFirst emit).compile request s).1.outcome =
      (t.compile request s).1.outcome := by
    change (if request.optimize then _ else _ : Compilation P).outcome = _
    split <;> rfl
  change EStateM.bind _ _ s = EStateM.bind _ _ s
  unfold EStateM.bind
  rw [compileRequest_apply, compileRequest_apply, houtcome]
  cases (t.compile request s).1.outcome <;> rfl

omit [Program P] in
theorem compileRequest_emittingFirst {request : Request} (h : request.optimize = false) :
    compileRequest (t.emittingFirst emit) request = compileRequest t request := by
  have hcompile : (t.emittingFirst emit).compile request = t.compile request := by
    funext s
    change (if request.optimize then _ else _, _) = _
    rw [h]
    rfl
  rw [compileRequest, compileRequest, hcompile]

theorem resolveFrom_emittingFirst (resolved : NameMap (Resolved P)) (order : List String) :
    resolveFrom (t.emittingFirst emit) options set resolved order =
      resolveFrom t options set resolved order := by
  induction order generalizing resolved with
  | nil => rfl
  | cons name rest ih =>
    rw [resolveFrom, resolveFrom]
    cases set.validators.get? name with
    | none => exact ih resolved
    | some v =>
      have hresolve : resolve (t.emittingFirst emit) options set resolved name v =
          resolve t options set resolved name v :=
        bind_congr fun modules => bind_compileRequest_emittingFirst _ fun output => do
          ofResult (options.checkExpected name (Program.hash output.program))
          pure (resolved.insert name
            ⟨v, output.program, Program.hash output.program, output.diagnostics⟩)
      simp only [hresolve, ih]

omit [Program P] in
theorem assembleFrom_emittingFirst (hashes : NameMap Bytes) (gathered : NameMap (Emission P))
    (entries : List (String × Resolved P)) :
    assembleFrom (t.emittingFirst emit) options set hashes gathered entries =
      assembleFrom t options set hashes gathered entries := by
  induction entries generalizing gathered with
  | nil => rfl
  | cons e rest ih =>
    have hassemble : assemble (t.emittingFirst emit) options set hashes gathered.names e.1 e.2 =
        assemble t options set hashes gathered.names e.1 e.2 :=
      bind_congr fun modules => by rw [compileRequest_emittingFirst rfl]; rfl
    rw [assembleFrom, assembleFrom, hassemble]
    simp only [ih]

/-- **Emissions of the first pass.**  A build comes to the same, with a cache or without one,
whatever is emitted while optimized programs are compiled. -/
theorem build_emittingFirst [Backend κ] (cache : Option (Cache κ)) (s : σ) :
    build (t.emittingFirst emit) set options cache s = build t set options cache s := by
  have hcompile : compileSet (t.emittingFirst emit) set options = compileSet t set options := by
    unfold compileSet resolveAll assembleAll
    simp only [resolveFrom_emittingFirst, assembleFrom_emittingFirst]
    rfl
  unfold build
  rw [hcompile]
  rfl

/-! ## 7. Builds -/

/-- What a toolchain is asked to compile in a build without a cache, and what it emits then. -/
def buildLog (t : Toolchain σ P) (set : ValidatorSet) (options : BuildOptions) (s : σ) :
    List (Exchange P) :=
  (build t.logged set options (none : Option (Cache MemoryStore)) (s, [])).state.2

/-- **The second pass.**  If a build without a cache succeeds, then after the first pass it has
asked for every validator once more, in the order of names.  Each was told all the hashes of the
bundle and to leave out exactly the names that were emitted before in this pass.  The bundle has
exactly the functions whose names were emitted in this pass, each as it was emitted first.  The
toolchain may emit what it likes: functions that are excluded, the same function several times, or
functions in the first pass, which make no difference. -/
theorem harvest_exact [Backend κ] {s : σ} {b : Bundle P}
    (h : (build t set options (none : Option (Cache κ)) s).outcome = .ok b) :
    b.HarvestedFrom set options (buildLog t set options s) ∧
      ∀ emit : Request → σ → List (Emission P),
        (build (t.emittingFirst emit) set options (none : Option (Cache κ)) s).outcome = .ok b := by
  refine ⟨?_, fun emit => by rw [build_emittingFirst, h]⟩
  cases hdeclared : checkDeclared set options with
  | error e =>
    rw [build, hdeclared] at h
    cases h
  | ok =>
    rw [build_none hdeclared, (simulates_compileSet t.simulates_logged s (s, []) rfl).1] at h
    rw [buildLog, build_none hdeclared]
    obtain ⟨order, horder, hruns⟩ := runs_compileSet_iff.mp (Prod.ext h rfl)
    obtain ⟨hperm, -⟩ := order_of_compilationOrder horder
    obtain ⟨log, hlog, hharvested⟩ := harvestedFrom_of_runs_compileAlong hruns hperm
    rw [hlog]
    exact hharvested

namespace Example

/-- Two policies along with which a function of the same name is emitted, twice along with the
first one, and although it is excluded along with the second. -/
def desk : ValidatorSet where
  validators :=
    ⟨[("cash", { minting [] with source := "force fee\nforce tax\nforce fee" }),
      ("stock", { minting ["cash"] with source := "force fee\nfunc tax\nfunc count" })], by decide⟩
  modules := .empty

theorem harvest_exact_desk :
    ∃ b, (build compiler desk plain (none : Option (Cache MemoryStore)) ()).outcome = .ok b ∧
      b.HarvestedFrom desk plain (buildLog compiler desk plain ()) ∧
      (build (compiler.emittingFirst fun _ _ => []) desk plain (none : Option (Cache MemoryStore))
        ()).outcome = .ok b ∧
      (buildLog compiler desk plain ()).map
          (fun c => (c.request.name, c.request.excluded, c.emitted.map (·.name))) =
        [("cash", [], ["fee", "tax", "fee"]), ("stock", [], ["fee"]),
          ("cash", [], ["fee", "tax", "fee"]), ("stock", ["fee", "tax"], ["fee", "count"])] ∧
      b.userFuncs.names = ["count", "fee", "tax"] := by
  have hchecks : (build compiler desk plain (none : Option (Cache MemoryStore))
      ()).outcome.toOption.any (fun b => b.userFuncs.names = ["count", "fee", "tax"]) = true := by
    decide +kernel
  obtain ⟨b, hb, hnames⟩ := exists_ok_of_any hchecks
  obtain ⟨hharvested, hemitting⟩ := harvest_exact hb
  exact ⟨b, hb, hharvested, hemitting _, by decide +kernel, of_decide_eq_true hnames⟩

end Example

end ScriptBundle

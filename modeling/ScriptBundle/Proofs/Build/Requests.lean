/-
# What the toolchain is told in a build

A watched toolchain remembers what it was asked to compile, so what a build asks for can be read off
what its watched toolchain remembers in the end (`buildRequests`).  Watching does not change what
the build comes to.

The first pass asks once for each validator, and tells it of every validator of the set.  A hash is
told if the validator declares that it embeds it, and then it is the hash that stands in the bundle
in the end; no other hash is told, although others may be known by then (`firstPass_exact`).

A validator whose hash is not told looks like a placeholder to the toolchain, which tests whether
the hash is empty and nothing else.  A program may have the empty hash.  Its validator looks like a
placeholder even where its hash is told, and so placeholders are the validators that are not
declared only in a bundle without empty hashes.

The invariant of the first pass is that what comes before in the order is resolved, and that what is
resolved is not touched again.  So a declared hash is known when its turn comes, and final.  The
order matters in no other way: the same holds along every order in which dependencies come first.
-/
import ScriptBundle.Proofs.Build.Inputs
import ScriptBundle.Proofs.Build.Order
import ScriptBundle.Proofs.Build.Run

namespace ScriptBundle

open Work

variable {σ κ P : Type} {t : Toolchain σ P} {options : BuildOptions} {set : ValidatorSet}
  {name : String}

/-! ## 1. Tables of references -/

theorem names_references (set : ValidatorSet) (known : String → Option Bytes) :
    (set.references known).map (·.name) = set.validators.names := by
  rw [ValidatorSet.references, List.map_map, NameMap.names]
  conv_rhs => rw [← List.zipIdx_map_fst 0 set.validators.entries, List.map_map]
  rfl

/-- A reference has the place and the type of its validator, and the hash that is known. -/
theorem reference_eq {known : String → Option Bytes} {ref : Reference}
    (h : ref ∈ set.references known) :
    set.indices.get? ref.name = some ref.index ∧
      (∃ v, set.validators.get? ref.name = some v ∧ ref.hashType = v.purpose.hashType) ∧
      ref.hash = (known ref.name).getD [] := by
  obtain ⟨⟨⟨n, v⟩, index⟩, hmem, rfl⟩ := List.mem_map.mp h
  have hat := List.mem_zipIdx_iff_getElem?.mp hmem
  refine ⟨NameMap.get?_eq_some_iff.mpr (List.mem_zipIdx_iff_getElem?.mpr ?_),
    ⟨v, NameMap.get?_eq_some_iff.mpr (List.mem_of_getElem? hat), rfl⟩, rfl⟩
  change (set.validators.entries.map (·.1))[index]? = some n
  rw [List.getElem?_map, hat]
  rfl

/-! ## 2. Watching -/

/-- What a toolchain is asked to compile, from one state of a watch to another. -/
def Asked (x x' : σ × Activity) (requests : List Request) : Prop :=
  x'.2.requests = x.2.requests ++ requests

theorem Asked.append {x x' x'' : σ × Activity} {requests requests' : List Request}
    (h : Asked x x' requests) (h' : Asked x' x'' requests') :
    Asked x x'' (requests ++ requests') := by
  rw [Asked, h', h, List.append_assoc]

theorem asked_of_runs_compileRequest {request : Request} {x x' : σ × Activity}
    {y : Output P × List (Emission P)} (h : Runs (compileRequest t.watched request) x y x') :
    Asked x x' [request] := by
  have hstate : (t.watched.compile request x).2 = x' :=
    congrArg Prod.snd (runs_ofTool_iff.mp h)
  rw [Asked, ← hstate]
  rfl

/-! ## 3. The first pass -/

/-- What a validator is told in the first pass, by the hashes that are known in the end. -/
structure Request.IsFirst (set : ValidatorSet) (hashes : NameMap Bytes) (r : Request) : Prop where
  optimize : r.optimize = true
  ownHash : r.ownHash = none
  references : ∃ v, set.validators.get? r.name = some v ∧ r.references = set.references fun n =>
    if (v.externalDependencies r.name).contains n then hashes.get? n else none

/-- Only the hashes of what a validator depends on are told it. -/
theorem firstRequest_congr {hashes hashes' : NameMap Bytes} {v : Validator}
    (hhashes : ∀ d ∈ v.externalDependencies name, hashes.get? d = hashes'.get? d)
    (modules : List (String × String)) :
    firstRequest options set hashes name v modules =
      firstRequest options set hashes' name v modules := by
  have hknown : ∀ n,
      (if (v.externalDependencies name).contains n then hashes.get? n else none) =
        if (v.externalDependencies name).contains n then hashes'.get? n else none := by
    intro n
    split
    · rename_i hdep
      exact hhashes n (List.contains_iff_mem.mp hdep)
    · rfl
  rw [firstRequest, firstRequest, funext hknown]

/-- A validator is told what it is told by the hashes that are known in the end, if all that it
depends on is resolved and stays as it is. -/
theorem firstRequest_of_kept {resolved last : NameMap (Resolved P)} {v : Validator}
    (hv : set.validators.get? name = some v)
    (hkept : ∀ d, set.DependsOn name d → last.get? d = resolved.get? d)
    (modules : List (String × String)) :
    firstRequest options set (resolvedHashes resolved) name v modules =
      firstRequest options set (resolvedHashes last) name v modules := by
  refine firstRequest_congr (fun d hd => ?_) modules
  rw [resolvedHashes, resolvedHashes, NameMap.get?_map, NameMap.get?_map,
    hkept d (ValidatorSet.dependsOn_iff.mpr ⟨v, hv, hd⟩)]

/-- Names that do not come up again stay so as a walk goes on. -/
theorem not_mem_of_not_mem_cons {before rest : List String} (hnew : name ∉ rest)
    (hbefore : ∀ n ∈ before, n ∉ name :: rest) : ∀ n ∈ name :: before, n ∉ rest := by
  rintro n (_ | ⟨_, hn⟩)
  · exact hnew
  · exact fun hmem => hbefore n hn (List.mem_cons_of_mem _ hmem)

section

variable [Program P]

/-- What a step of the first pass leaves to the rest of it: nothing that the validator depends on
comes up again. -/
theorem kept_of_runs_resolveFrom {resolved last : NameMap (Resolved P)} {r : Resolved P}
    {before rest : List String} {s s' : σ}
    (h : Runs (resolveFrom t options set (resolved.insert name r) rest) s last s')
    (hdeps : ∀ d, set.DependsOn name d → d ∈ before) (hbefore : ∀ n ∈ name :: before, n ∉ rest) :
    last.get? name = some r ∧ ∀ d, set.DependsOn name d → last.get? d = resolved.get? d := by
  constructor
  · rw [get?_of_runs_resolveFrom h (hbefore name List.mem_cons_self), NameMap.get?_insert,
      if_pos rfl]
  · intro d hd
    have hd' := hdeps d hd
    obtain ⟨_, _, _, hne⟩ := hd
    rw [get?_of_runs_resolveFrom h (hbefore d (List.mem_cons_of_mem _ hd')), NameMap.get?_insert,
      if_neg hne]

/-- **The loop of the first pass.**  What comes first is resolved, so that all the rest are told
their dependencies' final hashes. -/
theorem asked_of_runs_resolveFrom {resolved last : NameMap (Resolved P)}
    {before order : List String} {x x' : σ × Activity}
    (h : Runs (resolveFrom t.watched options set resolved order) x last x')
    (horder : set.inOrder before order) (hnodup : order.Nodup)
    (hbefore : ∀ n ∈ before, n ∉ order) :
    ∃ requests, Asked x x' requests ∧ requests.map (·.name) = order ∧
      ∀ r ∈ requests, r.IsFirst set (resolvedHashes last) := by
  induction order generalizing resolved before x with
  | nil =>
    obtain ⟨-, rfl⟩ := runs_pure_iff.mp h
    exact ⟨[], (List.append_nil _).symm, rfl, List.forall_mem_nil _⟩
  | cons name rest ih =>
    obtain ⟨⟨hname, hdeps⟩, hrest⟩ := ValidatorSet.inOrder_cons_iff.mp horder
    obtain ⟨hnew, hnodup⟩ := List.nodup_cons.mp hnodup
    obtain ⟨v, hv⟩ := NameMap.mem_names_iff.mp hname
    obtain ⟨next, x₁, hstep, hlast⟩ := (runs_resolveFrom_cons_iff hv).mp h
    have hbefore' := not_mem_of_not_mem_cons hnew hbefore
    obtain ⟨requests, hasked, hnames, hfirst⟩ := ih hlast hrest hnodup hbefore'
    obtain ⟨modules, output, emitted, -, hcompile, -, rfl⟩ := runs_resolve_iff.mp hstep
    obtain ⟨-, hkept⟩ := kept_of_runs_resolveFrom hlast hdeps hbefore'
    refine ⟨_ :: requests, (asked_of_runs_compileRequest hcompile).append hasked, ?_, ?_⟩
    · exact congrArg (name :: ·) hnames
    · refine List.forall_mem_cons.mpr ⟨?_, hfirst⟩
      rw [firstRequest_of_kept hv hkept]
      exact ⟨rfl, rfl, v, hv, rfl⟩

end

/-! ## 4. The second pass -/

/-- The second pass asks once for each entry, and never for an optimized program. -/
theorem asked_of_runs_assembleFrom {hashes : NameMap Bytes} {gathered : NameMap (Emission P)}
    {entries : List (String × Resolved P)} {y : Assembly P entries} {x x' : σ × Activity}
    (h : Runs (assembleFrom t.watched options set hashes gathered entries) x y x') :
    ∃ requests, Asked x x' requests ∧ requests.map (·.name) = entries.map (·.1) ∧
      ∀ r ∈ requests, r.optimize = false := by
  induction entries generalizing gathered x with
  | nil =>
    obtain ⟨-, rfl⟩ := runs_pure_iff.mp h
    exact ⟨[], (List.append_nil _).symm, rfl, List.forall_mem_nil _⟩
  | cons e rest ih =>
    obtain ⟨v, emitted, _, y', hassemble, hrest, -, -⟩ := runs_assembleFrom_cons_iff.mp h
    obtain ⟨modules, _, _, _, -, hcompile, -, -, -⟩ := runs_assemble_iff.mp hassemble
    obtain ⟨requests, hasked, hnames, hsecond⟩ := ih hrest
    refine ⟨_ :: requests, (asked_of_runs_compileRequest hcompile).append hasked, ?_, ?_⟩
    · exact congrArg (e.1 :: ·) hnames
    · exact List.forall_mem_cons.mpr ⟨rfl, hsecond⟩

/-! ## 5. Both passes -/

/-- What a validator is told of a validator of the set: its place and the type of its hash, and the
hash that it has in a bundle if the one declares that it embeds the other's. -/
structure Reference.IsDeclared (set : ValidatorSet) (b : Bundle P) (name : String)
    (ref : Reference) : Prop where
  index : set.indices.get? ref.name = some ref.index
  hashType : ∃ v, set.validators.get? ref.name = some v ∧ ref.hashType = v.purpose.hashType
  declared : set.DependsOn name ref.name →
    ∃ v, b.validators.get? ref.name = some v ∧ ref.hash = v.hash
  undeclared : ¬ set.DependsOn name ref.name → ref.hash = []

/-- How a bundle is asked for: by one request for each validator in the first pass, all of them
before those of the second pass.  In the first pass every validator is told of all validators of
the set, in the order of names, with the hashes that it declares. -/
def Bundle.AskedBy (b : Bundle P) (set : ValidatorSet) (requests : List Request) : Prop :=
  ∃ first second, requests = first ++ second ∧
    (∀ r ∈ first, r.optimize = true) ∧ (∀ r ∈ second, r.optimize = false) ∧
    (first.map (·.name)).Perm set.validators.names ∧
    ∀ r ∈ first, r.ownHash = none ∧ r.references.map (·.name) = set.validators.names ∧
      ∀ ref ∈ r.references, ref.IsDeclared set b r.name

/-- With the hashes of a bundle known in the end, what a validator is told is what is declared. -/
theorem Request.IsFirst.isDeclared {b : Bundle P} {r : Request} (h : r.IsFirst set b.hashes)
    (hnames : b.validators.names = set.validators.names) :
    r.references.map (·.name) = set.validators.names ∧
      ∀ ref ∈ r.references, ref.IsDeclared set b r.name := by
  obtain ⟨v, hv, hreferences⟩ := h.references
  rw [hreferences]
  refine ⟨names_references set _, fun ref href => ?_⟩
  obtain ⟨hindex, ⟨w, hw, htype⟩, hhash⟩ := reference_eq href
  refine ⟨hindex, ⟨w, hw, htype⟩, fun hdep => ?_, fun hdep => ?_⟩
  · obtain ⟨v', hv', hmem⟩ := ValidatorSet.dependsOn_iff.mp hdep
    obtain rfl := Option.some.inj (hv.symm.trans hv')
    obtain ⟨c, hc⟩ := NameMap.mem_names_iff.mp (hnames ▸ NameMap.mem_names_iff.mpr ⟨w, hw⟩)
    refine ⟨c, hc, ?_⟩
    rw [hhash, if_pos (List.contains_iff_mem.mpr hmem), Bundle.hashes, NameMap.get?_map, hc]
    rfl
  · rw [hhash, if_neg fun hmem => hdep (ValidatorSet.dependsOn_iff.mpr
      ⟨v, hv, List.contains_iff_mem.mp hmem⟩)]
    rfl

variable [Program P]

/-- Along an order in which dependencies come first, both passes ask for their bundle so. -/
theorem askedBy_of_runs_compileAlong {order : List String} {b : Bundle P} {x x' : σ × Activity}
    (h : Runs (compileAlong t.watched set options order) x b x')
    (hperm : order.Perm set.validators.names) (horder : set.inOrder [] order) :
    ∃ requests, Asked x x' requests ∧ b.AskedBy set requests := by
  have hnames := names_of_runs_compileAlong h fun n => hperm.mem_iff
  obtain ⟨resolved, x₁, y, hresolved, hy, rfl⟩ := runs_compileAlong_iff.mp h
  have hhashes := hashes_assembledBundle hy fun e he =>
    (isSound_of_runs_resolveAll hresolved e he).hash_eq
  obtain ⟨first, hasked, hfirstNames, hfirst⟩ := asked_of_runs_resolveFrom hresolved horder
    (hperm.nodup_iff.mpr set.validators.names_nodup) (List.forall_mem_nil _)
  obtain ⟨second, hasked', -, hsecond⟩ := asked_of_runs_assembleFrom hy
  refine ⟨first ++ second, hasked.append hasked', first, second, rfl,
    fun r hr => (hfirst r hr).optimize, hsecond, hfirstNames ▸ hperm, fun r hr => ?_⟩
  have hr' := hfirst r hr
  rw [← hhashes] at hr'
  exact ⟨hr'.ownHash, hr'.isDeclared hnames⟩

/-! ## 6. Builds -/

/-- What a toolchain is asked to compile along an order. -/
def requestsAlong (t : Toolchain σ P) (set : ValidatorSet) (options : BuildOptions)
    (order : List String) (s : σ) : List Request :=
  ((compileAlong t.watched set options order).outcome (s, .none)).2.2.requests

theorem askedBy_requestsAlong {order : List String} {b : Bundle P} {s : σ}
    (h : ((compileAlong t set options order).outcome s).1 = .ok b)
    (hperm : order.Perm set.validators.names)
    (horder : ∀ n d, set.DependsOn n d → order.idxOf d < order.idxOf n) :
    b.AskedBy set (requestsAlong t set options order s) := by
  rw [(simulates_compileAlong t.simulates_watched order s (s, .none) rfl).1] at h
  obtain ⟨requests, hasked, hby⟩ := askedBy_of_runs_compileAlong (Prod.ext h rfl) hperm
    (ValidatorSet.inOrder_of_idxOf_lt hperm horder)
  rw [requestsAlong, hasked]
  exact hby

variable [Backend κ]

/-- What a toolchain is asked to compile in a build without a cache. -/
def buildRequests (t : Toolchain σ P) (set : ValidatorSet) (options : BuildOptions) (s : σ) :
    List Request :=
  (build t.watched set options (none : Option (Cache MemoryStore)) (s, .none)).state.2.requests

theorem askedBy_buildRequests {s : σ} {b : Bundle P}
    (h : (build t set options (none : Option (Cache κ)) s).outcome = .ok b) :
    b.AskedBy set (buildRequests t set options s) := by
  cases hdeclared : checkDeclared set options with
  | error e =>
    rw [build, hdeclared] at h
    cases h
  | ok =>
    rw [build_none hdeclared, (simulates_compileSet t.simulates_watched s (s, .none) rfl).1] at h
    rw [buildRequests, build_none hdeclared]
    obtain ⟨order, horder, hruns⟩ := runs_compileSet_iff.mp (Prod.ext h rfl)
    obtain ⟨hperm, hin⟩ := order_of_compilationOrder horder
    obtain ⟨requests, hasked, hby⟩ := askedBy_of_runs_compileAlong hruns hperm hin
    rw [hasked]
    exact hby

/-- **The first pass.**  If a build without a cache succeeds, the toolchain was asked for an
optimized program once for each validator, before anything else, and each validator was told the
hashes of the bundle that it declares and no others.  The same holds along any other order in which
dependencies come first.  Unless a hash of the bundle is empty, a validator is a placeholder to
another exactly if that does not declare it; one whose hash is empty is a placeholder to all. -/
theorem firstPass_exact {s : σ} {b : Bundle P}
    (h : (build t set options (none : Option (Cache κ)) s).outcome = .ok b) :
    b.AskedBy set (buildRequests t set options s) ∧
    (∀ order b', order.Perm set.validators.names →
      (∀ n d, set.DependsOn n d → order.idxOf d < order.idxOf n) →
      ((compileAlong t set options order).outcome s).1 = .ok b' →
        b'.AskedBy set (requestsAlong t set options order s)) ∧
    ((∀ n v, b.validators.get? n = some v → v.hash ≠ []) →
      ∀ r ∈ buildRequests t set options s, r.optimize = true → ∀ ref ∈ r.references,
        (ref.isPlaceholder ↔ ¬ set.DependsOn r.name ref.name)) := by
  have hby := askedBy_buildRequests h
  refine ⟨hby, fun order b' hperm hlater hb' => askedBy_requestsAlong hb' hperm hlater, ?_⟩
  intro hhashes r hr hoptimize ref href
  obtain ⟨first, second, heq, -, hsecond, -, hfirst⟩ := hby
  rw [heq] at hr
  have hr : r ∈ first := by
    refine (List.mem_append.mp hr).resolve_right fun hmem => ?_
    cases hoptimize.symm.trans (hsecond r hmem)
  obtain ⟨-, -, hrefs⟩ := hfirst r hr
  rw [Reference.isPlaceholder, List.isEmpty_iff]
  refine ⟨fun hempty hdep => ?_, (hrefs ref href).undeclared⟩
  obtain ⟨v, hv, hhash⟩ := (hrefs ref href).declared hdep
  exact hhashes _ v hv (hhash.symm.trans hempty)

namespace Example

/-- A policy that embeds its own hash and another policy's. -/
def shop : ValidatorSet where
  validators := ⟨[("sale", minting ["sale", "vault"]), ("vault", minting [])], by decide⟩
  modules := .empty

theorem firstPass_exact_shop :
    ∃ b, (build compiler shop plain (none : Option (Cache MemoryStore)) ()).outcome = .ok b ∧
      b.AskedBy shop (buildRequests compiler shop plain ()) ∧
      (buildRequests compiler shop plain ()).map
          (fun r => (r.name, r.references.map (·.isPlaceholder))) =
        [("vault", [true, true]), ("sale", [true, false]), ("sale", [false, false]),
          ("vault", [false, false])] := by
  have hsome : (build compiler shop plain (none : Option (Cache MemoryStore))
      ()).outcome.toOption.isSome := by decide +kernel
  cases hb : (build compiler shop plain (none : Option (Cache MemoryStore)) ()).outcome with
  | error e =>
    rw [hb] at hsome
    cases hsome
  | ok b => exact ⟨b, rfl, (firstPass_exact hb).1, by decide +kernel⟩

end Example

end ScriptBundle

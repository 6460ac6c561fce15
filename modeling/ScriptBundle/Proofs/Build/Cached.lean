/-
# Builds that share a cache

Builds that are run one after another and share a cache in memory should come to what they come to
without one.  That is almost so.  The key of a build covers the modules that a validator imports,
but not the order in which the validator lists them, and in that order they are handed to the
toolchain.  A build whose key is known is served the bundle of an earlier build, whose validators
may list their modules in another order.

So each build comes to what the declarations that it is served come to without a cache, which are
those of an earlier build of the same inputs or its own (`servedBuild`); and to what its own come
to, as long as no earlier build of these inputs lists modules in another order (`buildAll_exact`).

The invariant is what the cache remembers: the record of a key is the one that the first build of
the key left, of those that left one that can be read (`Remembers`).  One build preserves it
(`build_keyed`).
-/
import ScriptBundle.Proofs.Build.Inputs
import ScriptBundle.Proofs.Store.Cache

namespace ScriptBundle

open Work

/-! ## 1. Builds without a cache -/

/-- The same comes of two builds: the same bundle, wherever it was taken from, or none at all. -/
def SameOutcome {P : Type} (o o' : Except BuildError (Bundle P)) : Prop :=
  o.toOption.map ({ · with fromCache := false }) = o'.toOption.map ({ · with fromCache := false })

namespace SameOutcome

variable {P : Type} {o o' o'' : Except BuildError (Bundle P)}

theorem refl (o : Except BuildError (Bundle P)) : SameOutcome o o := rfl

theorem symm (h : SameOutcome o o') : SameOutcome o' o := Eq.symm h

theorem trans (h : SameOutcome o o') (h' : SameOutcome o' o'') : SameOutcome o o'' := Eq.trans h h'

theorem of_ok_iff (h : ∀ b, o = .ok b ↔ o' = .ok b) : SameOutcome o o' := by
  cases o with
  | ok b => exact (h b).mp rfl ▸ .refl _
  | error e =>
    cases o' with
    | ok b => cases (h b).mpr rfl
    | error e' => exact .refl (.error e)

/-- Two builds of which the same bundle comes under the same condition. -/
theorem of_forall_iff {p : Prop} {b b' : Bundle P} (h : ∀ x, o = .ok x ↔ x = b ∧ p)
    (h' : ∀ x, o' = .ok x ↔ x = b' ∧ p)
    (hb : { b with fromCache := false } = { b' with fromCache := false }) : SameOutcome o o' := by
  by_cases hp : p
  · rw [(h b).mpr ⟨rfl, hp⟩, (h' b').mpr ⟨rfl, hp⟩]
    exact congrArg some hb
  · have hnone : ∀ (r : Except BuildError (Bundle P)) (c : Bundle P),
        (∀ x, r = .ok x ↔ x = c ∧ p) → r.toOption = none := by
      intro r c hr
      cases r with
      | error e => rfl
      | ok x => exact absurd ((hr x).mp rfl).2 hp
    rw [SameOutcome, hnone o b h, hnone o' b' h']

end SameOutcome

section

variable {σ P : Type} [Program P] {t : Toolchain σ P} {set : ValidatorSet}
  {options : BuildOptions}

/-- What comes of a build without a cache. -/
def freshBuild (t : Toolchain σ P) (set : ValidatorSet) (options : BuildOptions) (s : σ) :
    Except BuildError (Bundle P) :=
  (build t set options (none : Option (Cache MemoryStore)) s).outcome

/-- The declarations hold together and compile to a bundle. -/
structure CompilesTo (t : Toolchain σ P) (set : ValidatorSet) (options : BuildOptions)
    (b : Bundle P) : Prop where
  declared : checkDeclared set options = .ok ()
  gives : Gives (compileSet t set options) b

theorem freshBuild_eq_ok_iff (ht : t.Faithful) {s : σ} {b : Bundle P} :
    freshBuild t set options s = .ok b ↔ CompilesTo t set options b := by
  unfold freshBuild build
  cases hdeclared : checkDeclared set options with
  | error e =>
    refine ⟨fun h => (by cases h), fun h => ?_⟩
    cases hdeclared.symm.trans h.declared
  | ok =>
    exact ⟨fun h => ⟨hdeclared, (settled_compileSet ht).gives h⟩, fun h => h.gives s⟩

end

/-! ## 2. What a cache remembers -/

/-- What is to be built, and what is asked for. -/
abbrev BuildCall : Type := ValidatorSet × BuildOptions

section

variable {σ P : Type} [Program P] {t : Toolchain σ P}

/-- The record that a build leaves in a cache, if it succeeds. -/
def recordOf? (t : Toolchain σ P) (s : σ) (d : BuildCall) : Option BuildRecord :=
  (freshBuild t d.1 d.2 s).toOption.map fun b => b.record d.2.debug t.format

/-- Whether a build has a key and leaves a record that can be read. -/
def leavesRecord (t : Toolchain σ P) (s : σ) (key : Digest) (d : BuildCall) : Bool :=
  buildKey t d.1 d.2 = key && (recordOf? t s d).any BuildRecord.isShallow

/-- The build that another is served after some builds: the first of its key that leaves a record
that can be read, and itself if there is none. -/
def servedBuild (t : Toolchain σ P) (s : σ) (past : List BuildCall) (c : BuildCall) : BuildCall :=
  (past.find? (leavesRecord t s (buildKey t c.1 c.2))).getD c

theorem servedBuild_cases (t : Toolchain σ P) (s : σ) (past : List BuildCall) (c : BuildCall) :
    servedBuild t s past c = c ∨ servedBuild t s past c ∈ past ∧
        buildKey t (servedBuild t s past c).1 (servedBuild t s past c).2 = buildKey t c.1 c.2 := by
  unfold servedBuild
  cases hfind : past.find? (leavesRecord t s (buildKey t c.1 c.2)) with
  | none => exact .inl rfl
  | some d =>
    have hleaves := List.find?_some hfind
    rw [leavesRecord, Bool.and_eq_true, decide_eq_true_eq] at hleaves
    exact .inr ⟨List.mem_of_find?_eq_some hfind, hleaves.1⟩

/-- The key tells a build from some others: those that have its key have its inputs. -/
def KeyTells (t : Toolchain σ P) (past : List BuildCall) (c : BuildCall) : Prop :=
  ∀ d ∈ past, buildKey t d.1 d.2 = buildKey t c.1 c.2 →
    (keyInputs t d.1 d.2).Agrees (keyInputs t c.1 c.2)

/-- **The invariant.**  After some builds the record of a key is that of the first build of the key
that leaves one that can be read. -/
def Remembers (t : Toolchain σ P) (s : σ) (past : List BuildCall) (store : MemoryStore) : Prop :=
  ∀ key : Digest, (Backend.get store key.text).bind BuildRecord.ofBytes? =
    (past.find? (leavesRecord t s key)).bind (recordOf? t s)

variable {past : List BuildCall} {c d : BuildCall} {store : MemoryStore}
  {key : Digest} {s : σ}

theorem recordOf?_eq_some_iff (ht : t.Faithful) {record : BuildRecord} :
    recordOf? t s d = some record ↔
      ∃ b, CompilesTo t d.1 d.2 b ∧ b.record d.2.debug t.format = record := by
  simp only [← freshBuild_eq_ok_iff ht (s := s)]
  rw [recordOf?]
  cases freshBuild t d.1 d.2 s with
  | error e =>
    refine ⟨fun h => (by cases h), ?_⟩
    rintro ⟨b, hb, -⟩
    cases hb
  | ok b =>
    constructor
    · intro h
      exact ⟨b, rfl, Option.some.inj h⟩
    · rintro ⟨b', hb, hrecord⟩
      cases hb
      exact congrArg some hrecord

theorem leavesRecord_iff : leavesRecord t s key d ↔ buildKey t d.1 d.2 = key ∧
    ∃ record, recordOf? t s d = some record ∧ record.isShallow := by
  rw [leavesRecord, Bool.and_eq_true, decide_eq_true_eq, Option.any_eq_true]

theorem remembers_empty (t : Toolchain σ P) (s : σ) : Remembers t s [] .empty := fun _ => rfl

/-- A build that leaves no record, or not the first one, leaves a cache as it is. -/
theorem Remembers.append (h : Remembers t s past store)
    (hc : leavesRecord t s (buildKey t c.1 c.2) c →
      (past.find? (leavesRecord t s (buildKey t c.1 c.2))).isSome) :
    Remembers t s (past ++ [c]) store := by
  intro key
  rw [h key, List.find?_append]
  cases hfind : past.find? (leavesRecord t s key) with
  | some d => rfl
  | none =>
    rw [Option.none_or, List.find?_cons]
    split
    · rename_i hleaves
      obtain rfl := (leavesRecord_iff.mp hleaves).1
      rw [hfind] at hc
      cases hc hleaves
    · rfl

/-- A build that finds nothing and succeeds puts its record into the cache. -/
theorem Remembers.insert (h : Remembers t s past store)
    (hmiss : past.find? (leavesRecord t s (buildKey t c.1 c.2)) = none) {record : BuildRecord}
    (hrecord : recordOf? t s c = some record) : Remembers t s (past ++ [c])
      ⟨store.entries.insert (buildKey t c.1 c.2).text record.toBytes⟩ := by
  intro key
  change ((store.entries.insert _ _).get? key.text).bind _ = _
  rw [NameMap.get?_insert, List.find?_append]
  by_cases hkey : key = buildKey t c.1 c.2
  · subst hkey
    have hleaves : leavesRecord t s (buildKey t c.1 c.2) c = record.isShallow := by
      rw [leavesRecord, decide_eq_true rfl, hrecord]
      rfl
    rw [if_pos rfl, hmiss, Option.none_or, Option.bind_some, BuildRecord.ofBytes?_toBytes,
      List.find?_cons, hleaves]
    cases record.isShallow with
    | false => rfl
    | true => exact hrecord.symm
  · have hne : key.text ≠ (buildKey t c.1 c.2).text := fun heq => hkey (Digest.text_injective heq)
    have hother : ¬ leavesRecord t s key c := fun hleaves =>
      hkey (leavesRecord_iff.mp hleaves).1.symm
    rw [if_neg hne, List.find?_cons_of_neg hother, List.find?_nil, Option.or_none]
    exact h key

end

/-! ## 3. One build with a cache -/

section

variable {σ P : Type} [Nonempty σ] [Program P] {t : Toolchain σ P} {set set' : ValidatorSet}
  {options options' : BuildOptions}

/-- A bundle is restored from its record unless a hash of it is refused. -/
theorem gives_restoreSet_iff (ht : t.Faithful) {b b' : Bundle P}
    (hb : b.IsOf t options set.indices) (debug : Bool) :
    Gives (restoreSet t set options (b.record debug t.format)) b' ↔
      b' = { b with key := buildKey t set options, fromCache := true } ∧
        checkHashes options b = .ok () := by
  have hrestored := Bundle.gives_ofRecord ht.load_toBytes hb (buildKey t set options) debug
  have hgate := fun c : Bundle P =>
    (settled_ofResult (σ := σ) (checkHashes options c)).bind fun _ => settled_pure c
  refine (gives_bind_iff hrestored.settled hgate).trans ⟨?_, ?_⟩
  · rintro ⟨c, hc, h⟩
    obtain rfl := hc.unique hrestored
    obtain ⟨_, hcheck, h⟩ := (gives_bind_iff (settled_ofResult _) fun _ => settled_pure _).mp h
    exact ⟨(gives_pure_iff.mp h).symm, gives_ofResult_iff.mp hcheck⟩
  · rintro ⟨rfl, hcheck⟩
    exact ⟨_, hrestored, (gives_ofResult hcheck).bind (gives_pure _)⟩

omit [Nonempty σ] in
theorem settled_restoreSet (ht : t.Faithful) {b : Bundle P} (hb : b.IsOf t options set.indices)
    (debug : Bool) : Settled (restoreSet t set options (b.record debug t.format)) :=
  (Bundle.gives_ofRecord ht.load_toBytes hb (buildKey t set options) debug).settled.bind fun _ =>
    (settled_ofResult _).bind fun _ => settled_pure _

/-- **Hits.**  What is restored from the record of an earlier build is what the declarations of
that build come to with the settings of this one. -/
theorem sameOutcome_restoreSet (ht : t.Faithful) {b : Bundle P}
    (hbuilt : CompilesTo t set options b)
    (hagrees : (keyInputs t set options).Agrees (keyInputs t set' options'))
    (hdeclared : checkDeclared set options' = .ok ()) (s s' : σ) :
    SameOutcome ((restoreSet t set' options' (b.record options.debug t.format)).outcome s).1
      (freshBuild t set options' s') := by
  have hoptions := optionsAlike_of_agrees hagrees
  obtain ⟨hb_key, -, hof, -⟩ := isOf_of_gives_compileSet hbuilt.gives
  rw [ValidatorSet.indices_eq_of_names (rel_of_agrees hagrees).names_eq] at hof
  replace hof := hof.of_alike hoptions
  have hrestored : ∀ x, ((restoreSet t set' options' (b.record options.debug t.format)).outcome s).1
      = .ok x ↔ x = { b with key := buildKey t set' options', fromCache := true } ∧
        checkHashes options' b = .ok () := by
    intro x
    rw [← gives_restoreSet_iff ht hof options.debug]
    exact ⟨(settled_restoreSet ht hof _).gives, fun h => h s⟩
  have hfresh : ∀ x, freshBuild t set options' s' = .ok x ↔
      x = b ∧ checkHashes options' b = .ok () := by
    intro x
    rw [freshBuild_eq_ok_iff ht, ← gives_compileSet_alike_iff ht (.refl set) hoptions
      (buildKey_eq_of_alike hoptions) hbuilt.gives]
    exact ⟨fun h => h.gives, fun h => ⟨hdeclared, h⟩⟩
  refine .of_forall_iff hrestored hfresh ?_
  rw [← buildKey_eq_of_agrees hagrees, ← hb_key]

variable {past : List BuildCall} {c : BuildCall} {store : MemoryStore} {s₀ : σ}

/-- What is found in a cache is the record of an earlier build, and that build is served. -/
theorem sameOutcome_of_hit (ht : t.Faithful) (hstore : Remembers t s₀ past store)
    (hkey : KeyTells t past c) (hdeclared : checkDeclared c.1 c.2 = .ok ()) {record : BuildRecord}
    (hrecord : (Backend.get store (buildKey t c.1 c.2).text).bind BuildRecord.ofBytes? =
      some record) :
    ∃ d, past.find? (leavesRecord t s₀ (buildKey t c.1 c.2)) = some d ∧
      ∀ s s', SameOutcome ((restoreSet t c.1 c.2 record).outcome s).1
        (freshBuild t d.1 c.2 s') := by
  rw [hstore] at hrecord
  obtain ⟨d, hfind, hd⟩ := Option.bind_eq_some_iff.mp hrecord
  obtain ⟨b, hb, rfl⟩ := (recordOf?_eq_some_iff ht).mp hd
  have hsame := (leavesRecord_iff.mp (List.find?_some hfind)).1
  have hinputs := hkey d (List.mem_of_find?_eq_some hfind) hsame
  have hstands := (checkDeclared_iff_of_agrees hinputs).mpr hdeclared
  exact ⟨d, hfind, fun s s' => sameOutcome_restoreSet ht hb hinputs hstands s s'⟩

/-- A build that finds nothing in a cache comes to what it comes to without one. -/
theorem build_keyed_of_miss (ht : t.Faithful) (hstore : Remembers t s₀ past store)
    (hdeclared : checkDeclared c.1 c.2 = .ok ())
    (hmiss : (Backend.get store (buildKey t c.1 c.2).text).bind BuildRecord.ofBytes? = none)
    (s : σ) :
    ∃ store', (build t c.1 c.2 (some (.keyed store)) s).cache = some (.keyed store') ∧
      Remembers t s₀ (past ++ [c]) store' ∧
      past.find? (leavesRecord t s₀ (buildKey t c.1 c.2)) = none ∧
      ∀ s', SameOutcome (build t c.1 c.2 (some (.keyed store)) s).outcome
        (freshBuild t c.1 c.2 s') := by
  have hfresh : ∀ s', freshBuild t c.1 c.2 s' = ((compileSet t c.1 c.2).outcome s).1 := by
    intro s'
    rw [freshBuild, build, hdeclared]
    exact settled_compileSet ht s' s
  have hnone : past.find? (leavesRecord t s₀ (buildKey t c.1 c.2)) = none := by
    rw [hstore] at hmiss
    cases hfind : past.find? (leavesRecord t s₀ (buildKey t c.1 c.2)) with
    | none => rfl
    | some d =>
      obtain ⟨record, hrecord, -⟩ := (leavesRecord_iff.mp (List.find?_some hfind)).2
      rw [hfind, Option.bind_some, hrecord] at hmiss
      cases hmiss
  unfold build
  rw [hdeclared]
  dsimp only [Cache.lookup]
  rw [hmiss]
  rcases houtcome : (compileSet t c.1 c.2).outcome s with ⟨e | b, r⟩
  · refine ⟨store, rfl, hstore.append fun hleaves => ?_, hnone, fun s' => ?_⟩
    · obtain ⟨record, hrecord, -⟩ := (leavesRecord_iff.mp hleaves).2
      rw [recordOf?, hfresh, houtcome] at hrecord
      cases hrecord
    · rw [hfresh, houtcome]
      exact .refl _
  · have hb : CompilesTo t c.1 c.2 b :=
      ⟨hdeclared, (settled_compileSet ht).gives (congrArg Prod.fst houtcome)⟩
    have hstored := hstore.insert hnone ((recordOf?_eq_some_iff ht).mpr ⟨b, hb, rfl⟩)
    rw [← (isOf_of_gives_compileSet hb.gives).1] at hstored
    refine ⟨_, rfl, hstored, hnone, fun s' => ?_⟩
    rw [hfresh, houtcome]
    exact .refl _

omit [Nonempty σ] in
theorem agrees_servedBuild (s₀ : σ) (hkey : KeyTells t past c) :
    (keyInputs t (servedBuild t s₀ past c).1 (servedBuild t s₀ past c).2).Agrees
      (keyInputs t c.1 c.2) := by
  rcases servedBuild_cases t s₀ past c with hself | ⟨hmem, hsame⟩
  · rw [hself]
    exact .refl _
  · exact hkey _ hmem hsame

/-- **One build.**  It keeps the invariant, and comes to what the declarations of the build that it
is served come to. -/
theorem build_keyed (ht : t.Faithful) (hstore : Remembers t s₀ past store)
    (hkey : KeyTells t past c) (s : σ) :
    ∃ store', (build t c.1 c.2 (some (.keyed store)) s).cache = some (.keyed store') ∧
      Remembers t s₀ (past ++ [c]) store' ∧
      ∀ s', SameOutcome (build t c.1 c.2 (some (.keyed store)) s).outcome
        (freshBuild t (servedBuild t s₀ past c).1 c.2 s') := by
  cases hdeclared : checkDeclared c.1 c.2 with
  | error e =>
    have hnone : ¬ leavesRecord t s₀ (buildKey t c.1 c.2) c := by
      intro hleaves
      obtain ⟨record, hrecord, -⟩ := (leavesRecord_iff.mp hleaves).2
      obtain ⟨b, hb, -⟩ := (recordOf?_eq_some_iff ht).mp hrecord
      cases hdeclared.symm.trans hb.declared
    have hrefused := checkDeclared_iff_of_agrees (agrees_servedBuild s₀ hkey) (o := c.2)
    have hkept := hstore.append fun hleaves => absurd hleaves hnone
    rw [build, hdeclared]
    refine ⟨store, rfl, hkept, fun s' => ?_⟩
    cases hserved : checkDeclared (servedBuild t s₀ past c).1 c.2 with
    | error e' =>
      rw [freshBuild, build, hserved]
      exact .refl (.error e)
    | ok => cases hdeclared.symm.trans (hrefused.mp hserved)
  | ok =>
    cases hrecord : (Backend.get store (buildKey t c.1 c.2).text).bind BuildRecord.ofBytes? with
    | none =>
      obtain ⟨store', hcache, hstore', hnone, hsame⟩ :=
        build_keyed_of_miss ht hstore hdeclared hrecord s
      have hserved : servedBuild t s₀ past c = c := by rw [servedBuild, hnone, Option.getD_none]
      rw [hserved]
      exact ⟨store', hcache, hstore', hsame⟩
    | some record =>
      obtain ⟨d, hfind, hsame⟩ := sameOutcome_of_hit ht hstore hkey hdeclared hrecord
      have hserved : servedBuild t s₀ past c = d := by rw [servedBuild, hfind, Option.getD_some]
      have hkept := hstore.append (c := c) fun _ => by rw [hfind, Option.isSome_some]
      rw [hserved]
      unfold build
      rw [hdeclared]
      dsimp only [Cache.lookup]
      rw [hrecord]
      exact ⟨store, rfl, hkept, hsame s⟩

end

/-! ## 4. Builds one after another -/

/-- What comes of builds that are run one after another and share a cache. -/
def buildAll {σ κ P : Type} [Program P] [Backend κ] (t : Toolchain σ P) :
    List BuildCall → Option (Cache κ) → σ → List (Except BuildError (Bundle P))
  | [], _, _ => []
  | (set, options) :: rest, cache, s =>
    let run := build t set options cache s
    run.outcome :: buildAll t rest run.cache run.state

section

variable {σ P : Type} [Nonempty σ] [Program P] {t : Toolchain σ P}
  {past calls : List BuildCall} {c : BuildCall}

/-- Each build of a run comes to what the declarations of the build that it is served come to. -/
theorem sameOutcome_buildAll (ht : t.Faithful) {store : MemoryStore} {s₀ : σ}
    (hstore : Remembers t s₀ past store)
    (hkeys : ∀ c ∈ past ++ calls, KeyTells t (past ++ calls) c) (s : σ) {k : Nat}
    (hc : calls[k]? = some c) :
    ∃ o, (buildAll t calls (some (.keyed store)) s)[k]? = some o ∧
      ∀ s', SameOutcome o (freshBuild t (servedBuild t s₀ (past ++ calls.take k) c).1 c.2 s') := by
  induction calls generalizing past store s k with
  | nil => cases hc
  | cons first rest ih =>
    have hfirst : first ∈ past ++ first :: rest := List.mem_append_right _ List.mem_cons_self
    obtain ⟨store', hcache, hstore', hsame⟩ := build_keyed ht hstore
      (fun d hd => hkeys first hfirst d (List.mem_append_left _ hd)) s
    cases k with
    | zero =>
      obtain rfl := Option.some.inj hc
      rw [List.take_zero, List.append_nil]
      exact ⟨_, rfl, hsame⟩
    | succ k =>
      rw [List.append_cons] at hkeys
      obtain ⟨o, ho, hsame⟩ := ih hstore' hkeys
        (build t first.1 first.2 (some (.keyed store)) s).state hc
      rw [← hcache] at ho
      rw [List.append_assoc, List.singleton_append, ← List.take_succ_cons] at hsame
      exact ⟨o, ho, hsame⟩

/-- Declarations that agree, the order of modules included, come to the same. -/
theorem sameOutcome_of_agrees (ht : t.Faithful) {d : BuildCall}
    (hagrees : (keyInputs t d.1 d.2).Agrees (keyInputs t c.1 c.2))
    (hmodules : d.1.SameModules c.1) (s s' : σ) :
    SameOutcome (freshBuild t d.1 c.2 s) (freshBuild t c.1 c.2 s') := by
  have halike := alike_of_agrees hagrees hmodules
  have hkey' : buildKey t d.1 c.2 = buildKey t c.1 c.2 :=
    (buildKey_eq_of_alike (optionsAlike_of_agrees hagrees)).symm.trans
      (buildKey_eq_of_agrees hagrees)
  have hoptions : c.2.Alike c.2 := ⟨rfl, rfl, rfl⟩
  refine .of_ok_iff fun b => ?_
  rw [freshBuild_eq_ok_iff ht, freshBuild_eq_ok_iff ht]
  constructor
  · rintro ⟨hdeclared, hb⟩
    refine ⟨(checkDeclared_iff_of_agrees hagrees).mp hdeclared, ?_⟩
    exact gives_compileSet_of_alike ht halike hoptions hkey' hb
      (checkHashes_of_gives_compileSet hb)
  · rintro ⟨hdeclared, hb⟩
    refine ⟨(checkDeclared_iff_of_agrees hagrees).mpr hdeclared, ?_⟩
    exact gives_compileSet_of_alike ht halike.symm hoptions hkey'.symm hb
      (checkHashes_of_gives_compileSet hb)

end

/-- **Builds with a cache.**  With a faithful toolchain, and digests that tell the inputs of the
builds apart, each of some builds that share a cache comes to what the declarations that it is
served come to without one.  That is what its own come to exactly if both come to the same, and so
as long as no earlier build of the same inputs lists modules in another order. -/
theorem buildAll_exact {σ P : Type} [Program P] {t : Toolchain σ P} (ht : t.Faithful)
    {calls : List BuildCall}
    (hfits : ∀ c ∈ calls, (keyInputs t c.1 c.2).Fits)
    (hdigest : ∀ c ∈ calls, ∀ d ∈ calls, buildKey t c.1 c.2 = buildKey t d.1 d.2 →
      (keyInputs t c.1 c.2).stream = (keyInputs t d.1 d.2).stream)
    (s : σ) {k : Nat} {c : BuildCall} (hc : calls[k]? = some c) :
    ∃ o, (buildAll t calls (some Cache.inMemory) s)[k]? = some o ∧
      (∀ s', SameOutcome o (freshBuild t (servedBuild t s (calls.take k) c).1 c.2 s')) ∧
      (∀ s', SameOutcome o (freshBuild t c.1 c.2 s') ↔
        SameOutcome (freshBuild t (servedBuild t s (calls.take k) c).1 c.2 s')
          (freshBuild t c.1 c.2 s')) ∧
      ((∀ d ∈ calls.take k, (keyInputs t d.1 d.2).Agrees (keyInputs t c.1 c.2) →
          d.1.SameModules c.1) →
        ∀ s', SameOutcome o (freshBuild t c.1 c.2 s')) := by
  have : Nonempty σ := ⟨s⟩
  have hkeys : ∀ c ∈ [] ++ calls, KeyTells t ([] ++ calls) c := fun c hc d hd hsame =>
    KeyInputs.agrees_of_stream_eq (hfits d hd) (hfits c hc) (hdigest d hd c hc hsame)
  obtain ⟨o, ho, hsame⟩ := sameOutcome_buildAll ht (remembers_empty t s) hkeys s hc
  refine ⟨o, ho, hsame, fun s' => ⟨(hsame s').symm.trans, (hsame s').trans⟩, fun hmodules s' => ?_⟩
  rcases servedBuild_cases t s (calls.take k) c with hself | ⟨hmem, hkey⟩
  · rw [List.nil_append, hself] at hsame
    exact hsame s'
  · have hinputs := hkeys c (List.mem_of_getElem? hc) _ (List.mem_of_mem_take hmem) hkey
    exact (hsame s').trans (sameOutcome_of_agrees ht hinputs (hmodules _ hmem hinputs) s' s')

namespace Example

/-- A minting policy that imports modules in some order. -/
def imports (modules : List String) : ValidatorSet where
  validators := ⟨[("mint", ⟨.minting, "", modules, [], false, .primitive .int, none⟩)], by simp⟩
  modules := ⟨[("math", "x"), ("time", "y")], by decide⟩

/-- The policy twice, the second time with its modules in another order. -/
def twice : List BuildCall :=
  [(imports ["math", "time"], plain), (imports ["time", "math"], plain)]

theorem imports_fits : (keyInputs compiler (imports ["math", "time"]) plain).Fits where
  compilerVersion := (by decide : TextFits "1.0")
  validators := by
    refine ⟨(by decide : 1 < Feed.limit), List.forall_mem_singleton.mpr ?_⟩
    exact {
      name := (by decide : TextFits "mint")
      source := (by decide : TextFits "")
      purpose := (by decide : TextFits "minting")
      modules := (⟨by decide, by decide⟩ : ListFits TextFits ["math", "time"])
      hashDependencies := ⟨(by decide : 0 < Feed.limit), List.forall_mem_nil _⟩
      redeemer := (by decide : TextFits (Schema.primitive .int).toJson)
      datum := fun _ hs => by cases hs }
  modules := ⟨by decide, by decide⟩
  parameters := ⟨by decide, by decide⟩

theorem imports_agrees : (keyInputs compiler (imports ["math", "time"]) plain).Agrees
    (keyInputs compiler (imports ["time", "math"]) plain) := by
  have hmint : ((⟨.minting, "", ["math", "time"], [], false, .primitive .int, none⟩ :
      Validator).key "mint").Agrees
      ((⟨.minting, "", ["time", "math"], [], false, .primitive .int, none⟩ :
        Validator).key "mint") :=
    ⟨rfl, rfl, rfl, .swap _ _ _, .nil, rfl, rfl, rfl⟩
  exact ⟨rfl, rfl, rfl, ⟨_, .cons hmint .nil, .refl _⟩, .refl _, .refl _⟩

/-- The texts of the programs of a bundle. -/
def programs (o : Except BuildError (Bundle LineScript.Code)) : Option (List String) :=
  o.toOption.map fun b => b.validators.values.map fun v => v.programs.optimized.text

theorem programs_eq {o o' : Except BuildError (Bundle LineScript.Code)} (h : SameOutcome o o') :
    programs o = programs o' := by
  have hprograms := congrArg (Option.map fun b => b.validators.values.map fun v =>
    v.programs.optimized.text) h
  rwa [Option.map_map, Option.map_map] at hprograms

/-- The second build is served the first one's program, and comes to another without a cache. -/
theorem buildAll_exact_twice :
    ∃ o, (buildAll compiler twice (some Cache.inMemory) ())[1]? = some o ∧
      SameOutcome o (freshBuild compiler (imports ["math", "time"]) plain ()) ∧
      ¬ SameOutcome o (freshBuild compiler (imports ["time", "math"]) plain ()) := by
  have hkey := buildKey_eq_of_agrees imports_agrees
  have hfits : ∀ c ∈ twice, (keyInputs compiler c.1 c.2).Fits :=
    List.forall_mem_cons.mpr ⟨imports_fits,
      List.forall_mem_singleton.mpr (imports_fits.of_agrees imports_agrees)⟩
  have hstream : ∀ c ∈ twice, (keyInputs compiler c.1 c.2).stream =
      (keyInputs compiler (imports ["math", "time"]) plain).stream :=
    List.forall_mem_cons.mpr ⟨rfl, List.forall_mem_singleton.mpr
      (KeyInputs.stream_eq_of_agrees distinctNames_keyInputs distinctNames_keyInputs
        imports_agrees).symm⟩
  have hfaithful : compiler.Faithful := LineScript.Settings.faithful _
  obtain ⟨o, ho, hserved, -⟩ := buildAll_exact hfaithful hfits
    (fun c hc d hd _ => (hstream c hc).trans (hstream d hd).symm) ()
    (rfl : twice[1]? = some (imports ["time", "math"], plain))
  have hshallow : (recordOf? compiler () (imports ["math", "time"], plain)).any
      BuildRecord.isShallow := by decide +kernel
  have hleaves : leavesRecord compiler () (buildKey compiler (imports ["time", "math"]) plain)
      (imports ["math", "time"], plain) := by
    rw [leavesRecord, decide_eq_true hkey, hshallow]
    rfl
  have hfirst : servedBuild compiler () (twice.take 1) (imports ["time", "math"], plain) =
      (imports ["math", "time"], plain) := by
    rw [servedBuild, twice, List.take_succ_cons, List.find?_cons_of_pos hleaves, Option.getD_some]
  rw [hfirst] at hserved
  refine ⟨o, ho, hserved (), fun hsame => ?_⟩
  have hprograms := (programs_eq (hserved ())).symm.trans (programs_eq hsame)
  revert hprograms
  decide +kernel

end Example

end ScriptBundle

/-
# A folder of entries keeps them like memory

Nothing of a folder of entries is held but the tree and the path, so what it answers depends on what
is read at the paths of its entries (`FolderStore.Shows`).  An entry that is put in is read back
with the content that it was made of, and it is found at its own path and at the path of no other
key, since the key is a part of the name.  Making the folder, which comes with every entry that is
put in, shows no other files.

So a folder that shows what a map of contents holds goes on showing it (`FolderStore.Mirrors`), and
a folder that is empty to begin with answers as memory does (`FolderStore.answers_exact`).  Unlike
memory, a folder can be out of reach, and then no entry is put in at all.  Which entries can be put
in is settled before the first one is: none takes the place of another
(`FolderStore.write_after_write`).
-/
import ScriptBundle.Store.Backend
import ScriptBundle.Proofs.FileTree
import ScriptBundle.Proofs.Store.Entry

namespace ScriptBundle

/-! ## 1. Calls and answers -/

namespace Backend

/-- What is asked of a place for entries.  It can be opened anew between two calls. -/
inductive Call
  | has (key : String)
  | get (key : String)
  | set (key : String) (content : Bytes)
  | reopen
deriving DecidableEq

/-- The key that a call is about. -/
def Call.key? : Call → Option String
  | .has key => some key
  | .get key => some key
  | .set key _ => some key
  | .reopen => none

/-- What is answered. -/
inductive Answer
  | present (there : Bool)
  | found (content : Option Bytes)
  | stored (outcome : Except StoreError Unit)
  | opened

variable {σ : Type} [Backend σ]

/-- The answer to a call, and the place afterwards. -/
def answer (reopened : σ → σ) (s : σ) : Call → Answer × σ
  | .has key => (.present (has s key), s)
  | .get key => (.found (get s key), s)
  | .set key content => (.stored (set s key content).1, (set s key content).2)
  | .reopen => (.opened, reopened s)

/-- The answers to calls, in turn. -/
def answers (reopened : σ → σ) (s : σ) : List Call → List Answer
  | [] => []
  | call :: rest => (answer reopened s call).1 :: answers reopened (answer reopened s call).2 rest

end Backend

/-- Whether a character is a lower-case hexadecimal digit. -/
def isHexDigit (c : Char) : Bool := c.isDigit || ('a' ≤ c && c ≤ 'f')

/-- A key of lower-case hexadecimal digits, of any length. -/
def IsHexKey (key : String) : Prop := ∀ c ∈ key.toList, isHexDigit c = true

instance (key : String) : Decidable (IsHexKey key) := List.decidableBAll (isHexDigit ·) key.toList

namespace FolderStore

/-- The same folder opened again, of which nothing but the path is known. -/
def reopened (s : FolderStore) : FolderStore := ⟨s.tree, s.folder⟩

/-- The folder has nothing in it, or will have nothing in it when it is made. -/
def IsVacant (s : FolderStore) : Prop := (s.tree.makeFolder s.folder).2.names s.folder = []

variable {s s' : FolderStore} {m : NameMap Bytes} {t : FileTree} {folder key key' : String}
  {content content' : Bytes}

/-! ## 2. The names of entries -/

theorem isName_entry (h : IsHexKey key) : FileTree.IsName (key ++ ".plc") := by
  have hne : ∀ short : String, short.toList.length < 4 → key ++ ".plc" ≠ short := by
    rintro _ hshort rfl
    rw [String.toList_append, List.length_append] at hshort
    exact Nat.not_lt.mpr (Nat.le_add_left 4 _) hshort
  refine ⟨?_, ?_, hne ".." (by decide)⟩
  · rw [String.toList_append, List.mem_append, not_or]
    exact ⟨fun hslash => absurd (h _ hslash) (by decide), by decide⟩
  · rw [FileTree.isIdle, decide_eq_false (hne "" (by decide)),
      decide_eq_false (hne "." (by decide))]
    rfl

/-- No two keys share a path. -/
theorem entryPath_inj (hkey : IsHexKey key) (hkey' : IsHexKey key') :
    s.entryPath key = s.entryPath key' ↔ key = key' := by
  refine ⟨fun h => ?_, fun h => h ▸ rfl⟩
  obtain ⟨front, hparts, -⟩ := FileTree.exists_parts_join s.folder (isName_entry hkey)
  obtain ⟨front', hparts', -⟩ := FileTree.exists_parts_join s.folder (isName_entry hkey')
  rw [entryPath, entryPath] at h
  rw [h, hparts'] at hparts
  exact (String.append_left_inj _).mp
    (List.singleton_inj.mp (List.append_inj_right' hparts rfl)).symm

/-- **No two keys share a place.** -/
theorem key_eq_of_resolve {p : Place} (hkey : IsHexKey key) (hkey' : IsHexKey key')
    (h : t.resolve (FileTree.join folder (key ++ ".plc")) = .ok p)
    (h' : t.resolve (FileTree.join folder (key' ++ ".plc")) = .ok p) : key = key' := by
  obtain ⟨-, -, there, -, -, rfl⟩ := (FileTree.resolve_join_eq_ok_iff (isName_entry hkey)).mp h
  obtain ⟨-, -, there', -, -, heq⟩ := (FileTree.resolve_join_eq_ok_iff (isName_entry hkey')).mp h'
  have hname : key' ++ ".plc" = key ++ ".plc" :=
    List.singleton_inj.mp (List.append_inj_right' heq rfl)
  exact (String.append_left_inj _).mp hname.symm

/-! ## 3. Entries that are shown -/

/-- At the paths of entries, a tree shows what a map holds. -/
def Shows (t : FileTree) (folder : String) (m : NameMap Bytes) : Prop :=
  ∀ key, IsHexKey key → ∀ entry, t.read (FileTree.join folder (key ++ ".plc")) = .ok entry ↔
    (m.get? key).map Entry.ofContent = some entry

theorem Shows.has_eq (h : Shows s.tree s.folder m) (hkey : IsHexKey key) :
    Backend.has s key = m.contains key := by
  change s.tree.isFile (s.entryPath key) = (m.get? key).isSome
  have hread := h key hkey
  rw [FileTree.isFile]
  cases hm : m.get? key with
  | none =>
    rw [hm] at hread
    split
    · rename_i entry hentry
      cases (hread entry).mp hentry
    · rfl
  | some content =>
    rw [hm] at hread
    rw [entryPath, (hread _).mpr rfl]
    rfl

theorem Shows.get_eq (h : Shows s.tree s.folder m) (hkey : IsHexKey key) :
    Backend.get s key = m.get? key := by
  change (s.read key).toOption.join = m.get? key
  have hread := h key hkey
  unfold read
  dsimp only [entryPath]
  cases hm : m.get? key with
  | none =>
    rw [hm] at hread
    cases htree : s.tree.read (FileTree.join s.folder (key ++ ".plc")) with
    | ok entry => cases (hread entry).mp htree
    | error cause => cases cause <;> rfl
  | some content =>
    rw [hm] at hread
    rw [(hread _).mpr rfl]
    dsimp only
    rw [Entry.content_ofContent]
    rfl

/-! ## 4. Putting an entry in -/

theorem write_eq_ok_iff :
    s.write key content = (.ok (), s') ↔
      ∃ made p, s.tree.makeFolder s.folder = (.ok (), made) ∧
        made.resolve (s.entryPath key) = .ok p ∧ made.node? p ≠ some .folder ∧
        ⟨made.put p (.file (Entry.ofContent content)), s.folder⟩ = s' := by
  unfold write
  split
  · rename_i hmade
    rw [hmade]
    exact ⟨fun h => (by cases h), fun ⟨_, _, h, _⟩ => (by cases h)⟩
  rename_i made hmade
  rw [hmade]
  dsimp only
  split
  · rename_i hwrite
    refine ⟨fun h => (by cases h), ?_⟩
    rintro ⟨made', p, hmade', hp, hfile, -⟩
    cases hmade'
    rw [FileTree.write_eq_ok_iff.mpr ⟨p, hp, hfile, rfl⟩] at hwrite
    cases hwrite
  · rename_i written hwrite
    obtain ⟨p, hp, hfile, rfl⟩ := FileTree.write_eq_ok_iff.mp hwrite
    constructor
    · intro h
      exact ⟨made, p, rfl, hp, hfile, congrArg Prod.snd h⟩
    · rintro ⟨made', p', hmade', hp', -, rfl⟩
      cases hmade'
      obtain rfl : p = p' := Except.ok.inj (hp.symm.trans hp')
      rfl

/-- Once an entry has been put in, the folder is there and stays so. -/
theorem makeFolder_of_write (h : s.write key content = (.ok (), s')) :
    s'.tree.makeFolder s'.folder = (.ok (), s'.tree) := by
  obtain ⟨made, p, hmade, -, hfile, rfl⟩ := write_eq_ok_iff.mp h
  exact FileTree.makeFolder_again hmade (FileTree.keeps_put_file hfile).1

/-- **Entries do not keep each other out.**  What could be put in before an entry was, can be
afterwards. -/
theorem write_after_write (h : s.write key content = (.ok (), s'))
    (hother : (s.write key' content').1 = .ok ()) : (s'.write key' content').1 = .ok () := by
  have hmade' := makeFolder_of_write h
  obtain ⟨made, p, hmade, -, hfile, rfl⟩ := write_eq_ok_iff.mp h
  obtain ⟨made', p', hother, hp', hfile', -⟩ := write_eq_ok_iff.mp (Prod.ext hother rfl)
  obtain rfl : made = made' := congrArg Prod.snd (hmade.symm.trans hother)
  have hkept : (made.put p (.file (Entry.ofContent content))).node? p' ≠ some .folder := by
    rw [FileTree.node?_put_file hfile]
    split
    · exact fun hnode => (by cases hnode)
    · exact hfile'
  exact congrArg Prod.fst (write_eq_ok_iff.mpr
    ⟨_, p', hmade', (FileTree.keeps_put_file hfile).1.resolve hp', hkept, rfl⟩)

/-- **An entry that is put in** is shown under its key, and all others as before. -/
theorem Shows.write (h : Shows (s.tree.makeFolder s.folder).2 s.folder m) (hkey : IsHexKey key)
    (hwrite : s.write key content = (.ok (), s')) :
    Shows s'.tree s'.folder (m.insert key content) := by
  obtain ⟨made, p, hmade, hp, hfile, rfl⟩ := write_eq_ok_iff.mp hwrite
  rw [hmade] at h
  intro key' hkey' entry
  rw [FileTree.read_put_file hp hfile, NameMap.get?_insert, h key' hkey' entry]
  by_cases heq : key' = key
  · subst heq
    rw [if_pos rfl, Option.map_some, Option.some.injEq]
    constructor
    · rintro (⟨-, hentry⟩ | ⟨hne, -⟩)
      · exact hentry
      · exact absurd hp hne
    · exact fun hentry => .inl ⟨hp, hentry⟩
  · have hne : made.resolve (FileTree.join s.folder (key' ++ ".plc")) ≠ .ok p := fun hp' =>
      heq (key_eq_of_resolve hkey' hkey hp' hp)
    rw [if_neg heq]
    constructor
    · rintro (⟨hp', -⟩ | ⟨-, hentry⟩)
      · exact absurd hp' hne
      · exact hentry
    · exact fun hentry => .inr ⟨hne, hentry⟩

/-! ## 5. A folder and a map -/

/-- A folder shows what a map holds, and goes on showing it when it is made. -/
structure Mirrors (s : FolderStore) (m : MemoryStore) : Prop where
  shows : Shows s.tree s.folder m.entries
  shows_made : Shows (s.tree.makeFolder s.folder).2 s.folder m.entries

theorem mirrors_empty (h : s.IsVacant) : Mirrors s .empty := by
  have hnone : ∀ key, IsHexKey key → ∀ entry,
      (s.tree.makeFolder s.folder).2.read (FileTree.join s.folder (key ++ ".plc")) ≠ .ok entry := by
    intro key hkey entry hread
    obtain ⟨p, hp, hnode⟩ := FileTree.read_eq_ok_iff.mp hread
    obtain ⟨-, -, there, hthere, -, rfl⟩ :=
      (FileTree.resolve_join_eq_ok_iff (isName_entry hkey)).mp hp
    rw [FileTree.node?_of_names_eq_nil h hthere] at hnode
    cases hnode
  refine ⟨fun key hkey entry => ⟨fun hread => ?_, fun hget => (by cases hget)⟩,
    fun key hkey entry => ⟨fun hread => ?_, fun hget => (by cases hget)⟩⟩
  · exact absurd ((FileTree.grown_makeFolder s.tree s.folder).read hread) (hnone key hkey entry)
  · exact absurd hread (hnone key hkey entry)

theorem Mirrors.write {m : MemoryStore} (h : Mirrors s m) (hkey : IsHexKey key)
    (hwrite : s.write key content = (.ok (), s')) :
    Mirrors s' ⟨m.entries.insert key content⟩ := by
  have hshows := h.shows_made.write hkey hwrite
  refine ⟨hshows, ?_⟩
  rw [makeFolder_of_write hwrite]
  exact hshows

/-- **One call** is answered alike, and they stay alike. -/
theorem Mirrors.answer {m : MemoryStore} (h : Mirrors s m) {call : Backend.Call}
    (hkey : ∀ key ∈ call.key?, IsHexKey key)
    (hset : ∀ key content, call = .set key content → (s.write key content).1 = .ok ()) :
    (Backend.answer reopened s call).1 = (Backend.answer id m call).1 ∧
      Mirrors (Backend.answer reopened s call).2 (Backend.answer id m call).2 := by
  cases call with
  | has key => exact ⟨congrArg _ (h.shows.has_eq (hkey key rfl)), h⟩
  | get key => exact ⟨congrArg _ (h.shows.get_eq (hkey key rfl)), h⟩
  | set key content =>
    have hwrite := hset key content rfl
    exact ⟨congrArg Backend.Answer.stored hwrite, h.write (hkey key rfl) (Prod.ext hwrite rfl)⟩
  | reopen => exact ⟨rfl, h⟩

/-- What could be put in before a call can be put in afterwards. -/
theorem write_after_answer {call : Backend.Call}
    (hset : ∀ key content, call = .set key content → (s.write key content).1 = .ok ())
    (hother : (s.write key' content').1 = .ok ()) :
    ((Backend.answer reopened s call).2.write key' content').1 = .ok () := by
  cases call with
  | set key content => exact write_after_write (Prod.ext (hset key content rfl) rfl) hother
  | has key => exact hother
  | get key => exact hother
  | reopen => exact hother

theorem Mirrors.answers {m : MemoryStore} (h : Mirrors s m) {calls : List Backend.Call}
    (hkeys : ∀ call ∈ calls, ∀ key ∈ call.key?, IsHexKey key)
    (hsets : ∀ key content, .set key content ∈ calls → (s.write key content).1 = .ok ()) :
    Backend.answers reopened s calls = Backend.answers id m calls := by
  induction calls generalizing s m with
  | nil => rfl
  | cons call rest ih =>
    have hset : ∀ key content, call = .set key content → (s.write key content).1 = .ok () := by
      rintro key content rfl
      exact hsets key content List.mem_cons_self
    obtain ⟨hanswer, hnext⟩ := h.answer (hkeys call List.mem_cons_self) hset
    have hrest := ih hnext (fun call hcall => hkeys call (List.mem_cons_of_mem _ hcall))
      fun key content hcall =>
        write_after_answer hset (hsets key content (List.mem_cons_of_mem _ hcall))
    rw [Backend.answers, Backend.answers, hanswer, hrest]

/-- **A folder is as good as memory.**  Calls are made of a folder that is empty to begin with or
not there yet, and that is opened anew at any points between them.  If every content can be put in
that is to be, the answers are those of entries in memory: every key has the content that was put in
under it last, whatever that looks like, and the keys under which nothing was put in have none. -/
theorem answers_exact {calls : List Backend.Call} (hvacant : s.IsVacant)
    (hkeys : ∀ call ∈ calls, ∀ key ∈ call.key?, IsHexKey key)
    (hsets : ∀ key content, .set key content ∈ calls → (Backend.set s key content).1 = .ok ()) :
    Backend.answers reopened s calls = Backend.answers id MemoryStore.empty calls :=
  (mirrors_empty hvacant).answers hkeys hsets

namespace Example

/-- A folder that is not there yet, in a tree with nothing in it. -/
def fresh : FolderStore := ⟨FileTree.empty (some ⟨255, 4096⟩), "builds/cache"⟩

/-- Two entries are put in, one of them empty and one that looks like an entry itself, and the first
is replaced when the folder has been opened anew. -/
def asked : List Backend.Call :=
  [.get "ab", .set "ab" [], .set "abc" (Entry.ofContent [1]), .reopen, .has "ab", .get "ab",
    .get "abc", .set "ab" [2], .reopen, .get "ab", .get "abc", .has "abcd"]

theorem answers_exact_asked :
    fresh.IsVacant ∧
    Backend.answers reopened fresh asked =
      [.found none, .stored (.ok ()), .stored (.ok ()), .opened, .present true, .found (some []),
        .found (some (Entry.ofContent [1])), .stored (.ok ()), .opened, .found (some [2]),
        .found (some (Entry.ofContent [1])), .present false] := by
  have hvacant : fresh.IsVacant := by
    rw [IsVacant]
    decide +kernel
  have hkeys : ∀ call ∈ asked, ∀ key ∈ call.key?, IsHexKey key := by
    have hab : IsHexKey "ab" := by decide
    have habc : IsHexKey "abc" := by decide
    have habcd : IsHexKey "abcd" := by decide
    simp [asked, Backend.Call.key?, hab, habc, habcd]
  have hsets : ∀ key content, .set key content ∈ asked →
      (Backend.set fresh key content).1 = .ok () := by
    intro key content hcall
    simp only [asked, List.mem_cons, List.not_mem_nil, reduceCtorEq, false_or, or_false,
      Backend.Call.set.injEq] at hcall
    rcases hcall with ⟨rfl, rfl⟩ | ⟨rfl, rfl⟩ | ⟨rfl, rfl⟩ <;> rfl
  exact ⟨hvacant, (answers_exact hvacant hkeys hsets).trans rfl⟩

end Example

end FolderStore

end ScriptBundle

/-
# Damaged entries

An entry can be damaged in two ways.  In a folder its file may be no intact entry any more, for
whichever reason `Entry.content` has; and in memory or in a folder, what is kept as its content may
be no record.  Either way there is something under the key, and it is a miss (`Damaged.miss`).

Damage does not last.  Where something is kept under a key, something else can be put in its place,
and nothing else is touched (`set_of_kept`): a file that is there is in a folder that is there, and
a file may take the place of a file.
-/
import ScriptBundle.Proofs.Store.Keyed

namespace ScriptBundle

/-! ## 1. Files in a folder -/

namespace FolderStore

variable {s s' : FolderStore} {key key' : String} {content entry : Bytes}

/-- The bytes of the file under a key, whatever they are. -/
def kept? (s : FolderStore) (key : String) : Option Bytes :=
  (s.tree.read (s.entryPath key)).toOption

theorem kept?_eq_some_iff :
    s.kept? key = some entry ↔ s.tree.read (s.entryPath key) = .ok entry := by
  unfold kept?
  cases s.tree.read (s.entryPath key) <;> simp [Except.toOption]

theorem has_eq (s : FolderStore) (key : String) : Backend.has s key = (s.kept? key).isSome := by
  change s.tree.isFile (s.entryPath key) = _
  rw [FileTree.isFile, kept?]
  cases s.tree.read (s.entryPath key) <;> rfl

theorem get_eq (s : FolderStore) (key : String) :
    Backend.get s key = (s.kept? key).bind fun entry => (Entry.content entry).toOption := by
  change (s.read key).toOption.join = _
  unfold read kept?
  dsimp only
  cases s.tree.read (s.entryPath key) with
  | error cause => cases cause <;> rfl
  | ok entry =>
    dsimp only
    cases hcontent : Entry.content entry <;> simp [Except.toOption, hcontent]

/-- The store when its folder has been made, as far as it can be. -/
def made (s : FolderStore) : FolderStore := ⟨(s.tree.makeFolder s.folder).2, s.folder⟩

/-- What is kept after an entry was put in, whatever was kept before. -/
theorem kept?_of_write (h : s.write key content = (.ok (), s')) :
    s'.kept? key = some (Entry.ofContent content) := by
  obtain ⟨t, p, -, hp, hfile, rfl⟩ := write_eq_ok_iff.mp h
  exact kept?_eq_some_iff.mpr ((FileTree.read_put_file hp hfile).mpr (.inl ⟨hp, rfl⟩))

/-- **Putting an entry in** touches no other file than its own, once the folder has been made. -/
theorem kept?_of_write_of_ne (hkey : IsHexKey key) (hkey' : IsHexKey key') (hne : key' ≠ key)
    (h : s.write key content = (.ok (), s')) : s'.kept? key' = s.made.kept? key' := by
  obtain ⟨t, p, hmade, hp, hfile, rfl⟩ := write_eq_ok_iff.mp h
  have hother : t.resolve (s.entryPath key') ≠ .ok p :=
    fun hp' => hne (key_eq_of_resolve hkey' hkey hp' hp)
  rw [made, hmade]
  refine Option.ext fun found => ?_
  rw [kept?_eq_some_iff, kept?_eq_some_iff]
  refine (FileTree.read_put_file hp hfile).trans ⟨?_, fun hold => .inr ⟨hother, hold⟩⟩
  rintro (⟨hp', -⟩ | ⟨-, hold⟩)
  · exact absurd hp' hother
  · exact hold

/-- **A file takes the place of a file.**  An entry that is there, in whatever state, makes room for
another one, and no other entry is touched. -/
theorem write_of_kept (hkey : IsHexKey key) (hkept : s.kept? key = some entry) (content : Bytes) :
    ∃ s', s.write key content = (.ok (), s') ∧ s'.kept? key = some (Entry.ofContent content) ∧
      ∀ key', IsHexKey key' → key' ≠ key → s'.kept? key' = s.kept? key' := by
  obtain ⟨p, hp, hnode⟩ := FileTree.read_eq_ok_iff.mp (kept?_eq_some_iff.mp hkept)
  obtain ⟨-, -, there, hthere, hfolder, -⟩ :=
    (FileTree.resolve_join_eq_ok_iff (isName_entry hkey)).mp hp
  have hmade := FileTree.makeFolder_of_folder hthere hfolder
  have hfile : s.tree.node? p ≠ some .folder := by simp [hnode]
  have hwrite : s.write key content =
      (.ok (), ⟨s.tree.put p (.file (Entry.ofContent content)), s.folder⟩) :=
    write_eq_ok_iff.mpr ⟨_, p, hmade, hp, hfile, rfl⟩
  refine ⟨_, hwrite, kept?_of_write hwrite, fun key' hkey' hne => ?_⟩
  rw [kept?_of_write_of_ne hkey hkey' hne hwrite, made, hmade]

end FolderStore

/-! ## 2. Entries in memory or in a folder -/

namespace AnyStore

variable {s s' : AnyStore} {key : String}

/-- What is kept under a key, intact or not. -/
def kept? : AnyStore → String → Option Bytes
  | .memory s, key => Backend.get s key
  | .folder s, key => s.kept? key

/-- The entry under a key is there, but not as a record. -/
inductive Damaged (key : String) : AnyStore → Prop
  /-- A file that is no intact entry. -/
  | file {s : FolderStore} {entry : Bytes} {cause : Entry.Defect}
    (hkept : s.kept? key = some entry) (hcontent : Entry.content entry = .error cause) :
    Damaged key (.folder s)
  /-- A content that is no record. -/
  | payload {s : AnyStore} {content : Bytes} (hget : Backend.get s key = some content)
    (hrecord : BuildRecord.ofBytes? content = none) : Damaged key s

/-- All entries but one are as they were. -/
structure SameBut (key : String) (s s' : AnyStore) : Prop where
  kept : ∀ key', IsHexKey key' → key' ≠ key → s'.kept? key' = s.kept? key'
  has : ∀ key', IsHexKey key' → key' ≠ key → Backend.has s' key' = Backend.has s key'
  get : ∀ key', IsHexKey key' → key' ≠ key → Backend.get s' key' = Backend.get s key'

theorem SameBut.refl (key : String) (s : AnyStore) : SameBut key s s :=
  ⟨fun _ _ _ => rfl, fun _ _ _ => rfl, fun _ _ _ => rfl⟩

/-- **Damage is a miss.** -/
theorem Damaged.miss (h : s.Damaged key) :
    (Backend.get s key).bind BuildRecord.ofBytes? = none := by
  cases h with
  | @file s entry cause hkept hcontent =>
    change (Backend.get s key).bind _ = none
    rw [FolderStore.get_eq, hkept, Option.bind_some, hcontent]
    rfl
  | payload hget hrecord => rw [hget, Option.bind_some, hrecord]

theorem exists_kept_of_get {content : Bytes} (hget : Backend.get s key = some content) :
    ∃ bytes, s.kept? key = some bytes := by
  cases s with
  | memory s => exact ⟨content, hget⟩
  | folder s =>
    obtain ⟨entry, hkept, -⟩ := Option.bind_eq_some_iff.mp ((s.get_eq key).symm.trans hget)
    exact ⟨entry, hkept⟩

theorem Damaged.exists_kept (h : s.Damaged key) : ∃ bytes, s.kept? key = some bytes := by
  cases h with
  | file hkept _ => exact ⟨_, hkept⟩
  | payload hget _ => exact exists_kept_of_get hget

/-- **Replacing.**  What is kept under a key, in whatever state, makes room for another entry, and
no other entry is touched. -/
theorem set_of_kept (hkey : IsHexKey key) {bytes : Bytes} (hkept : s.kept? key = some bytes)
    (content : Bytes) :
    ∃ s', Backend.set s key content = (.ok (), s') ∧ Backend.get s' key = some content ∧
      SameBut key s s' := by
  cases s with
  | memory s =>
    have hother : ∀ key' ≠ key, (s.entries.insert key content).get? key' = s.entries.get? key' :=
      fun key' hne => by rw [NameMap.get?_insert, if_neg hne]
    refine ⟨.memory ⟨s.entries.insert key content⟩, rfl, ?_, ?_⟩
    · exact (NameMap.get?_insert _ _ _ _).trans (if_pos rfl)
    · exact ⟨fun key' _ => hother key', fun key' _ hne => congrArg Option.isSome (hother key' hne),
        fun key' _ => hother key'⟩
  | folder s =>
    obtain ⟨next, hwrite, hnext, hothers⟩ := FolderStore.write_of_kept hkey hkept content
    refine ⟨.folder next, set_folder_eq_ok_iff.mpr ⟨next, hwrite, rfl⟩, ?_, hothers, ?_, ?_⟩
    · change Backend.get next key = some content
      rw [FolderStore.get_eq, hnext, Option.bind_some, Entry.content_ofContent]
      rfl
    · intro key' hkey' hne
      change Backend.has next key' = Backend.has s key'
      rw [FolderStore.has_eq, FolderStore.has_eq, hothers key' hkey' hne]
    · intro key' hkey' hne
      change Backend.get next key' = Backend.get s key'
      rw [FolderStore.get_eq, FolderStore.get_eq, hothers key' hkey' hne]

end AnyStore

end ScriptBundle

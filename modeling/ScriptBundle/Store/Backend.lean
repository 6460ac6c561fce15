/-
# Where entries are kept

Finished builds are kept as byte strings under text keys.  `Backend` says what a place to keep
them can do; the place itself is a value, and putting an entry in gives a new one.  That is so also
where it fails: an attempt that fails puts no entry in, but it may leave traces, such as a folder
that was made for an entry.

Reading does not fail: whatever cannot be read is as good as absent, and is put in anew.

Entries in memory are a map.  Entries in a folder are files with a header that tells whether they
are intact.  A guarded place is another place that can be told to refuse what is put in.
-/
import ScriptBundle.NameMap
import ScriptBundle.FileTree
import ScriptBundle.Store.Entry

namespace ScriptBundle

/-! ## 1. What a place can do -/

/-- Why an entry cannot be put in or read. -/
inductive StoreError
  /-- A file or folder cannot be read or written. -/
  | io (path : String) (cause : FileTree.Error)
  /-- A file is no intact entry. -/
  | defect (path : String) (cause : Entry.Defect)
  /-- An entry could not be written down. -/
  | serialization (reason : String)
deriving DecidableEq

/-- What is wrong with the header, in words. -/
def Entry.Defect.message (path : String) : Entry.Defect → String
  | .missingLength => "invalid cache entry header in " ++ path ++ ": missing header length"
  | .truncatedHeader => "invalid cache entry header in " ++ path ++ ": truncated header"
  | .undecodableHeader => "invalid cache entry header in " ++ path ++ ": undecodable header"
  | .missingMark => "invalid cache entry header in " ++ path ++ ": missing magic bytes"
  | .otherVersion version =>
    "entry format mismatch in " ++ path ++ ": expected version "
      ++ toString EntryHeader.currentVersion ++ ", got " ++ toString version
  | .otherContent stated actual =>
    "checksum mismatch in " ++ path ++ ": header says " ++ stated.text
      ++ ", payload hashes to " ++ actual.text

/-- The complaint in words. -/
def StoreError.message : StoreError → String
  | .io path _ => "cache I/O error at " ++ path
  | .defect path cause => cause.message path
  | .serialization reason => "serialization error: " ++ reason

/-- A place to keep entries. -/
class Backend (σ : Type) where
  /-- Whether there is something under a key. -/
  has : σ → String → Bool
  /-- The entry under a key, where there is one that can be read. -/
  get : σ → String → Option Bytes
  /-- What comes of putting an entry in under a key, and the place afterwards. -/
  set : σ → String → Bytes → Except StoreError Unit × σ

/-! ## 2. Entries in memory -/

structure MemoryStore where
  entries : NameMap Bytes
deriving DecidableEq

namespace MemoryStore

def empty : MemoryStore := ⟨.empty⟩

instance : Inhabited MemoryStore := ⟨empty⟩

def size (s : MemoryStore) : Nat := s.entries.size

instance : Backend MemoryStore where
  has s key := s.entries.contains key
  get s key := s.entries.get? key
  set s key content := (.ok (), ⟨s.entries.insert key content⟩)

end MemoryStore

/-! ## 3. Entries in a folder -/

/-- A folder of entries, which is made when the first entry is put in. -/
structure FolderStore where
  tree : FileTree
  folder : String

namespace FolderStore

instance : Inhabited FolderStore := ⟨default, ""⟩

/-- The path of the entry under a key. -/
def entryPath (s : FolderStore) (key : String) : String :=
  FileTree.join s.folder (key ++ ".plc")

/-- The content of the entry under a key, which may be absent. -/
def read (s : FolderStore) (key : String) : Except StoreError (Option Bytes) :=
  let path := s.entryPath key
  match s.tree.read path with
  | .error .notFound => .ok none
  | .error cause => .error (.io path cause)
  | .ok entry =>
    match Entry.content entry with
    | .ok content => .ok (some content)
    | .error cause => .error (.defect path cause)

/-- Puts an entry in.  The folder is there afterwards, if it could be made, even where the entry
is not. -/
def write (s : FolderStore) (key : String) (content : Bytes) :
    Except StoreError Unit × FolderStore :=
  match s.tree.makeFolder s.folder with
  | (.error cause, tree) => (.error (.io s.folder cause), { s with tree })
  | (.ok (), tree) =>
    let path := s.entryPath key
    match tree.write path (Entry.ofContent content) with
    | .error cause => (.error (.io path cause), { s with tree })
    | .ok tree => (.ok (), { s with tree })

instance : Backend FolderStore where
  has s key := s.tree.isFile (s.entryPath key)
  get s key := (s.read key).toOption.join
  set := write

end FolderStore

/-! ## 4. Either of them -/

/-- Entries in memory or in a folder. -/
inductive AnyStore
  | memory (store : MemoryStore)
  | folder (store : FolderStore)

namespace AnyStore

instance : Inhabited AnyStore := ⟨.memory .empty⟩

instance : Backend AnyStore where
  has
    | .memory s, key => Backend.has s key
    | .folder s, key => Backend.has s key
  get
    | .memory s, key => Backend.get s key
    | .folder s, key => Backend.get s key
  set
    | .memory s, key, content => (Backend.set s key content).map id .memory
    | .folder s, key, content => (Backend.set s key content).map id .folder

end AnyStore

/-! ## 5. A guard before another place -/

/-- A place to keep entries with a switch that makes it refuse new ones. -/
structure GuardedStore (σ : Type) where
  store : σ
  refusing : Bool

namespace GuardedStore

variable {σ : Type}

instance [Inhabited σ] : Inhabited (GuardedStore σ) := ⟨default, false⟩

instance [Backend σ] : Backend (GuardedStore σ) where
  has s key := Backend.has s.store key
  get s key := Backend.get s.store key
  set s key content :=
    if s.refusing then (.error (.serialization "backend refused"), s)
    else (Backend.set s.store key content).map id fun store => { s with store }

end GuardedStore

end ScriptBundle

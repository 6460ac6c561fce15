/-
# The cache of finished builds

A cache finds the record of a finished build again.  A keyed one asks a place for entries and goes
by the key of the build alone.  A positional one replays: it holds records in the order in which
they were stored and serves them in that order, whatever the key, through a cursor that starts
over when the cache is rewound.

A stored entry that is no record is a miss, like one that is absent.  A failed attempt to store
leaves the cache with whatever the place for entries has come to.
-/
import ScriptBundle.Store.Backend
import ScriptBundle.Store.Record

namespace ScriptBundle

/-- A cache of finished builds. -/
inductive Cache (σ : Type)
  /-- Records are found by key. -/
  | keyed (store : σ)
  /-- Records are served in the order in which they were stored; `cursor` counts those that have
  been passed. -/
  | positional (entries : List BuildRecord) (cursor : Nat)
deriving DecidableEq

namespace Cache

variable {σ : Type}

instance [Inhabited σ] : Inhabited (Cache σ) := ⟨.keyed default⟩

/-- A keyed cache with nothing in it that lasts as long as its value. -/
def inMemory : Cache MemoryStore := .keyed .empty

/-- A positional cache that has nothing to serve. -/
def replay : Cache σ := .positional [] 0

section

variable [Backend σ]

/-- Whether something would be found under a key. -/
def contains (c : Cache σ) (key : Digest) : Bool :=
  match c with
  | .keyed store => Backend.has store key.text
  | .positional entries cursor => cursor < entries.length

/-- The record of a build, and the cache after looking. -/
def lookup (c : Cache σ) (key : Digest) : Option BuildRecord × Cache σ :=
  match c with
  | .keyed store => ((Backend.get store key.text).bind BuildRecord.ofBytes?, c)
  | .positional entries cursor =>
    match entries[cursor]? with
    | some record => (some record, .positional entries (cursor + 1))
    | none => (none, c)

/-- What comes of storing the record of a build, and the cache afterwards.  A positional cache has
passed the record by then. -/
def store (c : Cache σ) (key : Digest) (record : BuildRecord) : Except StoreError Unit × Cache σ :=
  match c with
  | .keyed store => (Backend.set store key.text record.toBytes).map id .keyed
  | .positional entries _ => (.ok (), .positional (entries ++ [record]) (entries.length + 1))

end

/-- The cache with its cursor at the start. -/
def rewind : Cache σ → Cache σ
  | .keyed store => .keyed store
  | .positional entries _ => .positional entries 0

/-- How many records a positional cache holds. -/
def positionalSize : Cache σ → Nat
  | .keyed _ => 0
  | .positional entries _ => entries.length

/-- How records are found, in a word. -/
def modeName : Cache σ → String
  | .keyed _ => "Keyed"
  | .positional _ _ => "Positional"

/-- The cursor of a positional cache. -/
def cursor : Cache σ → Nat
  | .keyed _ => 0
  | .positional _ cursor => cursor

/-- The cache in a line. -/
def display (c : Cache σ) : String :=
  "BuildCache \x7b mode: " ++ c.modeName ++ ", entries: " ++ toString c.positionalSize
    ++ ", cursor: " ++ toString c.cursor ++ ", .. \x7d"

end Cache

end ScriptBundle

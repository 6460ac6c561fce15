/-
# What a place can come to hold

A place may have an entry that nobody has put in.  It may have been there from the start, and it may
turn up later: making a folder can make a path lead to a folder that is there already, with entries.
So what counts is what can be found in a place at some time without having been put in
(`Backend.Offers`).  That asks nothing of the place: whatever kind of place it is, putting an entry
in, whether it works or not, offers nothing but that entry in addition (`Backend.offers_of_set`).

Memory offers what it holds, and a folder what it holds when it has been made
(`AnyStore.offers_iff`).  So neither offers anything if there is nothing in it
(`AnyStore.IsVacant.not_offers`).

A cache offers the records among what its place offers.  Whatever is true of them all, with their
keys, stays true when the cache is looked up in or rewound, and when a record of which it is true is
stored (`Cache.AllOffered`).
-/
import ScriptBundle.Proofs.Store.Damage

namespace ScriptBundle

/-! ## 1. What can be found -/

namespace Backend

variable {κ : Type} [Backend κ] {s : κ} {key key' : Digest} {content found : Bytes}

/-- What becomes of a place when entries are put in one after the other, if they can be. -/
def putAll (s : κ) (puts : List (Digest × Bytes)) : κ :=
  puts.foldl (fun s put => (Backend.set s put.1.text put.2).2) s

/-- An entry can be found under a key without having been put in. -/
def Offers (s : κ) (key : Digest) (content : Bytes) : Prop :=
  ∃ puts : List (Digest × Bytes), (key, content) ∉ puts ∧
    Backend.get (putAll s puts) key.text = some content

theorem offers_of_get (h : Backend.get s key.text = some content) : Offers s key content :=
  ⟨[], List.not_mem_nil, h⟩

/-- **One entry more.**  After an attempt to put an entry in, the place offers what it has offered,
and that entry if anything. -/
theorem offers_of_set (h : Offers (Backend.set s key.text content).2 key' found) :
    Offers s key' found ∨ key' = key ∧ found = content := by
  obtain ⟨puts, hputs, hget⟩ := h
  by_cases hentry : (key', found) = (key, content)
  · exact .inr (Prod.mk.inj hentry)
  · refine .inl ⟨(key, content) :: puts, ?_, hget⟩
    rw [List.mem_cons, not_or]
    exact ⟨hentry, hputs⟩

/-- What is offered is held in any sense in which all that is found is held, and nothing but the
entry that is put in comes to be held in addition. -/
theorem held_of_offers (Held : κ → Digest → Bytes → Prop)
    (hget : ∀ s key content, Backend.get s key.text = some content → Held s key content)
    (hset : ∀ s key content key' found, Held (Backend.set s key.text content).2 key' found →
      Held s key' found ∨ key' = key ∧ found = content)
    (h : Offers s key content) : Held s key content := by
  obtain ⟨puts, hputs, hfound⟩ := h
  induction puts generalizing s with
  | nil => exact hget s key content hfound
  | cons put rest ih =>
    rw [List.mem_cons, not_or] at hputs
    rcases hset s put.1 put.2 key content (ih hputs.2 hfound) with hheld | ⟨hkey, hcontent⟩
    · exact hheld
    · exact absurd (Prod.ext hkey hcontent) hputs.1

end Backend

/-! ## 2. Memory and folders -/

theorem MemoryStore.get_of_set {s : MemoryStore} {key key' : Digest} {content found : Bytes}
    (h : Backend.get (Backend.set s key.text content).2 key'.text = some found) :
    Backend.get s key'.text = some found ∨ key' = key ∧ found = content := by
  change (s.entries.insert key.text content).get? key'.text = some found at h
  rw [NameMap.get?_insert] at h
  split at h
  · rename_i heq
    exact .inr ⟨Digest.text_injective heq, (Option.some.inj h).symm⟩
  · exact .inl h

instance : Nontrivial Digest :=
  ⟨⟨List.replicate 16 0, rfl⟩, ⟨List.replicate 16 1, rfl⟩, by decide⟩

namespace FolderStore

variable {s s' : FolderStore} {key key' : String} {content found : Bytes}
  {o : Except StoreError Unit}

theorem made_made (s : FolderStore) : s.made.made = s.made := by
  unfold made
  rcases h : s.tree.makeFolder s.folder with ⟨e | ⟨⟨⟩⟩, t⟩
  · rw [FileTree.makeFolder_failed h]
  · rw [FileTree.makeFolder_again h (.refl t)]

/-- An entry that could not be put in has left the folder, or the part of it that could be made. -/
theorem of_write_error {e : StoreError} (h : s.write key content = (.error e, s')) :
    s' = s.made := by
  unfold write at h
  unfold made
  rcases hmade : s.tree.makeFolder s.folder with ⟨cause | ⟨⟨⟩⟩, t⟩
  · rw [hmade] at h
    cases h
    rfl
  · rw [hmade] at h
    dsimp only at h
    split at h
    · cases h
      rfl
    · cases h

theorem made_of_write (h : s.write key content = (o, s')) : s'.made = s' := by
  cases o with
  | error e => rw [of_write_error h, made_made]
  | ok => rw [made, makeFolder_of_write h]

theorem get_of_write_of_ne (hkey : IsHexKey key) (hkey' : IsHexKey key') (hne : key' ≠ key)
    (h : s.write key content = (o, s')) : Backend.get s' key' = Backend.get s.made key' := by
  cases o with
  | error e => rw [of_write_error h]
  | ok => rw [get_eq, get_eq, kept?_of_write_of_ne hkey hkey' hne h]

theorem get_of_write (h : s.write key content = (o, s')) (hget : Backend.get s' key = some found) :
    Backend.get s.made key = some found ∨ found = content := by
  cases o with
  | error e => exact .inl (of_write_error h ▸ hget)
  | ok =>
    rw [get_eq, kept?_of_write h, Option.bind_some, Entry.content_ofContent] at hget
    exact .inr (Option.some.inj hget).symm

/-- Making the folder takes no entry away. -/
theorem get_made (h : Backend.get s key = some content) :
    Backend.get s.made key = some content := by
  obtain ⟨entry, hentry, hcontent⟩ := Option.bind_eq_some_iff.mp ((s.get_eq key).symm.trans h)
  have hread := (FileTree.grown_makeFolder s.tree s.folder).read (kept?_eq_some_iff.mp hentry)
  have hkept : s.made.kept? key = some entry := kept?_eq_some_iff.mpr hread
  rw [get_eq, hkept, Option.bind_some, hcontent]

end FolderStore

namespace AnyStore

variable {s : AnyStore} {key key' : Digest} {content found : Bytes}

/-- The place when its folder, if it has one, has been made. -/
def made : AnyStore → AnyStore
  | .memory s => .memory s
  | .folder s => .folder s.made

theorem set_folder_snd (s : FolderStore) (key : String) (content : Bytes) :
    (Backend.set (AnyStore.folder s) key content).2 = .folder (s.write key content).2 :=
  rfl

theorem get_made_of_set
    (h : Backend.get (Backend.set s key.text content).2.made key'.text = some found) :
    Backend.get s.made key'.text = some found ∨ key' = key ∧ found = content := by
  cases s with
  | memory s => exact MemoryStore.get_of_set h
  | folder s =>
    rcases hwrite : s.write key.text content with ⟨o, s'⟩
    rw [set_folder_snd, hwrite, made, FolderStore.made_of_write hwrite] at h
    by_cases hkey : key' = key
    · subst hkey
      exact (FolderStore.get_of_write hwrite h).imp_right fun hfound => ⟨rfl, hfound⟩
    · have hne : key'.text ≠ key.text := fun heq => hkey (Digest.text_injective heq)
      refine .inl (Eq.trans ?_ h)
      exact (FolderStore.get_of_write_of_ne key.isHexKey_text key'.isHexKey_text hne hwrite).symm

/-- **What is offered** is what is found when the folder has been made. -/
theorem offers_iff : Backend.Offers s key content ↔ Backend.get s.made key.text = some content := by
  constructor
  · refine Backend.held_of_offers
      (fun (s : AnyStore) key content => Backend.get s.made key.text = some content)
      (fun s key content h => ?_) fun s key content key' found => get_made_of_set
    cases s with
    | memory s => exact h
    | folder s => exact FolderStore.get_made h
  · intro h
    cases s with
    | memory s => exact Backend.offers_of_get h
    | folder s =>
      -- The folder is made when any other entry is put in.
      obtain ⟨other, hother⟩ := exists_ne key
      have hne : key.text ≠ other.text := fun heq => hother (Digest.text_injective heq).symm
      refine ⟨[(other, [])], ?_, ?_⟩
      · rw [List.mem_singleton]
        exact fun heq => hother (congrArg Prod.fst heq).symm
      · rcases hwrite : s.write other.text [] with ⟨o, s'⟩
        change Backend.get (Backend.set (AnyStore.folder s) other.text []).2 key.text = some content
        rw [set_folder_snd, hwrite]
        refine Eq.trans ?_ h
        exact FolderStore.get_of_write_of_ne other.isHexKey_text key.isHexKey_text hne hwrite

/-- A place with nothing in it offers nothing. -/
theorem IsVacant.not_offers (h : s.IsVacant) : ¬ Backend.Offers s key content := by
  rw [offers_iff]
  intro hget
  cases s with
  | memory s =>
    obtain rfl : s = .empty := h
    cases hget
  | folder s =>
    have hshows : FolderStore.Shows s.made.tree s.made.folder .empty :=
      (FolderStore.mirrors_empty h).shows_made
    change Backend.get s.made key.text = some content at hget
    rw [hshows.get_eq key.isHexKey_text] at hget
    cases hget

end AnyStore

/-! ## 3. What a cache can serve -/

namespace Cache

variable {κ : Type} [Backend κ] {c c' : Cache κ} {key : Digest} {record : BuildRecord}
  {Q Q' : Digest → BuildRecord → Prop}

/-- A property of every record that a cache has, or can come to have without its being stored, with
the key that the record is under. -/
def AllOffered (Q : Digest → BuildRecord → Prop) : Cache κ → Prop
  | .keyed store => ∀ key content, Backend.Offers store key content →
    ∀ record, BuildRecord.ofBytes? content = some record → Q key record
  | .positional entries _ => ∀ record ∈ entries, ∃ key, Q key record

theorem AllOffered.imp (h : c.AllOffered Q) (hQ : ∀ key record, Q key record → Q' key record) :
    c.AllOffered Q' := by
  cases c with
  | keyed store =>
    intro key content hoffers record hrecord
    exact hQ key record (h key content hoffers record hrecord)
  | positional entries _ =>
    intro record hmem
    obtain ⟨key, hkey⟩ := h record hmem
    exact ⟨key, hQ key record hkey⟩

theorem AllOffered.rewind (h : c.AllOffered Q) : c.rewind.AllOffered Q := by
  cases c <;> exact h

/-- What is looked up has the property with some key, and in a keyed cache with the key that is
asked for. -/
theorem AllOffered.of_lookup (h : c.AllOffered Q) (hlookup : c.lookup key = (some record, c')) :
    (∃ key', Q key' record) ∧ (∀ store, c = .keyed store → Q key record) ∧ c'.AllOffered Q := by
  cases c with
  | keyed store =>
    obtain ⟨hfound, rfl⟩ := Prod.mk.inj hlookup
    obtain ⟨content, hget, hrecord⟩ := Option.bind_eq_some_iff.mp hfound
    have hQ := h key content (Backend.offers_of_get hget) record hrecord
    exact ⟨⟨key, hQ⟩, fun _ _ => hQ, h⟩
  | positional entries cursor =>
    rw [Cache.lookup] at hlookup
    split at hlookup
    · rename_i found hat
      cases hlookup
      exact ⟨h record (List.mem_of_getElem? hat), fun _ hkeyed => (by cases hkeyed), h⟩
    · cases hlookup

/-- **Storing.**  A record that has the property may be stored, whether that works or not. -/
theorem AllOffered.store (h : c.AllOffered Q) (hQ : Q key record) :
    (c.store key record).2.AllOffered Q := by
  cases c with
  | keyed store =>
    intro key' content hoffers found hfound
    rcases Backend.offers_of_set hoffers with hold | ⟨rfl, rfl⟩
    · exact h key' content hold found hfound
    · rw [BuildRecord.ofBytes?_toBytes] at hfound
      split at hfound
      · cases hfound
        exact hQ
      · cases hfound
  | positional entries _ =>
    intro found hmem
    rcases List.mem_append.mp hmem with hold | hnew
    · exact h found hold
    · obtain rfl := List.mem_singleton.mp hnew
      exact ⟨key, hQ⟩

/-- A cache that starts empty: there is no record in it, and none turns up that is not stored. -/
def IsBlank (c : Cache κ) : Prop := c.AllOffered fun _ _ => False

theorem isBlank_replay : (replay : Cache κ).IsBlank := List.forall_mem_nil _

theorem isBlank_inMemory : inMemory.IsBlank := by
  intro key content hoffers
  have hget := Backend.held_of_offers
    (fun (s : MemoryStore) key content => Backend.get s key.text = some content)
    (fun _ _ _ h => h) (fun _ _ _ _ _ => MemoryStore.get_of_set) hoffers
  cases hget

/-- A cache over memory or over a folder has nothing to serve if there is nothing in its place. -/
theorem isBlank_of_isVacant {store : AnyStore} (h : store.IsVacant) : (keyed store).IsBlank :=
  fun _ _ hoffers => absurd hoffers h.not_offers

end Cache

end ScriptBundle

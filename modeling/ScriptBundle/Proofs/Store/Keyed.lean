/-
# A keyed cache is a map

A keyed cache finds under a key what was stored under it last (`lastStored?`), and nothing under a
key that nothing was stored under.  Three encodings lie between a record and the place for
entries: the key as hexadecimal text, the record as a document, and in a folder the entry's file
around it.  None of them loses or mixes up anything, so what the place holds is a map of contents
(`AnyStore.Holds`), and it is the map of the last records (`run_keyed`).

That the cache says there is a record where it finds one (`keyed_exact`) is not a matter of course:
it looks for the entry alone when it is asked whether there is one, and takes the entry for a record
when it is asked for it.  The two agree because records are all that the cache has ever put in.
-/
import Mathlib.Data.List.Induction
import ScriptBundle.Proofs.Store.Folder
import ScriptBundle.Proofs.Store.Nesting
import ScriptBundle.Proofs.Store.Replay

namespace ScriptBundle

/-! ## 1. Keys as text -/

theorem Hex.isHexKey_encode (bytes : Bytes) : IsHexKey (encode bytes) := by
  have hdigit : ∀ n < 16, isHexDigit (Char.ofNat (digit n).toNat) = true := by decide
  intro c hc
  rw [encode, String.toList_ofList] at hc
  induction bytes with
  | nil => cases hc
  | cons b rest ih =>
    have hb := b.toNat_lt
    rcases List.mem_cons.mp hc with rfl | hc
    · exact hdigit _ (by omega)
    rcases List.mem_cons.mp hc with rfl | hc
    · exact hdigit _ (by omega)
    · exact ih hc

theorem Digest.isHexKey_text (d : Digest) : IsHexKey d.text := Hex.isHexKey_encode d.bytes

/-! ## 2. Places and maps -/

/-- What a place answers is passed on as it is, and the place in the form that it has outside. -/
theorem map_place_eq_iff {α σ τ : Type} {x : α × σ} {form : σ → τ} {a : α} {place' : τ} :
    x.map id form = (a, place') ↔ ∃ place, x = (a, place) ∧ place' = form place := by
  rcases x with ⟨a', place⟩
  simp only [Prod.map, id, Prod.mk.injEq]
  constructor
  · rintro ⟨rfl, rfl⟩
    exact ⟨place, ⟨rfl, rfl⟩, rfl⟩
  · rintro ⟨_, ⟨rfl, rfl⟩, rfl⟩
    exact ⟨rfl, rfl⟩

namespace AnyStore

variable {s s' : AnyStore} {m : NameMap Bytes} {key key' : String} {content content' : Bytes}

/-- A place with nothing in it. -/
def IsVacant : AnyStore → Prop
  | .memory s => s = .empty
  | .folder s => s.IsVacant

/-- Under the keys that entries have, a place holds what a map does. -/
def Holds : AnyStore → NameMap Bytes → Prop
  | .memory s, m => s = ⟨m⟩
  | .folder s, m => s.Mirrors ⟨m⟩

theorem IsVacant.holds_empty (h : s.IsVacant) : s.Holds .empty := by
  cases s with
  | memory s => exact h
  | folder s => exact FolderStore.mirrors_empty h

theorem Holds.has_eq (h : s.Holds m) (hkey : IsHexKey key) :
    Backend.has s key = m.contains key := by
  cases s with
  | memory s =>
    obtain rfl : s = ⟨m⟩ := h
    rfl
  | folder s => exact FolderStore.Shows.has_eq h.shows hkey

theorem Holds.get_eq (h : s.Holds m) (hkey : IsHexKey key) :
    Backend.get s key = m.get? key := by
  cases s with
  | memory s =>
    obtain rfl : s = ⟨m⟩ := h
    rfl
  | folder s => exact FolderStore.Shows.get_eq h.shows hkey

theorem set_folder_eq_ok_iff {s : FolderStore} :
    Backend.set (AnyStore.folder s) key content = (.ok (), s') ↔
      ∃ next, s.write key content = (.ok (), next) ∧ s' = .folder next := by
  change (s.write key content).map id AnyStore.folder = _ ↔ _
  exact map_place_eq_iff

theorem Holds.set (h : s.Holds m) (hkey : IsHexKey key)
    (hset : Backend.set s key content = (.ok (), s')) : s'.Holds (m.insert key content) := by
  cases s with
  | memory s =>
    obtain rfl : s = ⟨m⟩ := h
    cases hset
    rfl
  | folder s =>
    obtain ⟨next, hwrite, rfl⟩ := set_folder_eq_ok_iff.mp hset
    exact FolderStore.Mirrors.write h hkey hwrite

/-- What could be put in before an entry was, can be afterwards. -/
theorem set_after_set (hset : Backend.set s key content = (.ok (), s'))
    (hother : (Backend.set s key' content').1 = .ok ()) :
    (Backend.set s' key' content').1 = .ok () := by
  cases s with
  | memory s =>
    cases hset
    rfl
  | folder s =>
    obtain ⟨next, hwrite, rfl⟩ := set_folder_eq_ok_iff.mp hset
    exact FolderStore.write_after_write hwrite hother

end AnyStore

/-! ## 3. The last record -/

namespace Cache

/-- The record that a call stores under a key, if it stores one there. -/
def Call.storedUnder? (key : Digest) : Call → Option BuildRecord
  | .store key' record => if key' = key then some record else none
  | _ => none

/-- The record that calls stored last under a key. -/
def lastStored? (calls : List Call) (key : Digest) : Option BuildRecord :=
  (calls.filterMap (Call.storedUnder? key)).getLast?

section

variable {start store : AnyStore} {calls : List Call} {key key' : Digest} {record : BuildRecord}

theorem lastStored?_concat (calls : List Call) (call : Call) (key : Digest) :
    lastStored? (calls ++ [call]) key = (call.storedUnder? key).or (lastStored? calls key) := by
  rw [lastStored?, List.filterMap_append, List.getLast?_append]
  cases h : call.storedUnder? key with
  | none => simp [h, lastStored?]
  | some record => simp [h]

theorem exists_store_of_lastStored? (h : lastStored? calls key = some record) :
    .store key record ∈ calls := by
  obtain ⟨call, hcall, hstored⟩ := List.mem_filterMap.mp (List.mem_of_getLast? h)
  cases call with
  | store key' record' =>
    rw [Call.storedUnder?] at hstored
    split at hstored
    · rename_i heq
      subst heq
      cases hstored
      exact hcall
    · cases hstored
  | lookup _ | rewind => cases hstored

/-- Storing in a keyed cache is putting an entry in. -/
theorem store_keyed_eq_ok_iff {c : Cache AnyStore} :
    (keyed store).store key record = (.ok (), c) ↔
      ∃ store', Backend.set store key.text record.toBytes = (.ok (), store') ∧
        c = .keyed store' := by
  rw [Cache.store]
  exact map_place_eq_iff

/-- Every record of the calls can be stored when its turn comes. -/
def AllStored (c : Cache AnyStore) (calls : List Call) : Prop :=
  ∀ front key record, front ++ [.store key record] <+: calls →
    ((c.run front).store key record).1 = .ok ()

/-- **A run of calls** leaves a place that holds the last records. -/
theorem run_keyed (hvacant : start.IsVacant) (hstored : (keyed start).AllStored calls) :
    ∃ store m, (keyed start).run calls = .keyed store ∧ store.Holds m ∧
      ∀ key : Digest, m.get? key.text = (lastStored? calls key).map BuildRecord.toBytes := by
  induction calls using List.reverseRecOn with
  | nil => exact ⟨start, .empty, rfl, hvacant.holds_empty, fun _ => rfl⟩
  | append_singleton calls call ih =>
    obtain ⟨store, m, hrun, hholds, hlast⟩ := ih fun front key record hfront =>
      hstored front key record (hfront.trans (List.prefix_append _ _))
    rw [run_append, hrun]
    cases call with
    | lookup key =>
      exact ⟨store, m, rfl, hholds, fun key => (hlast key).trans (by
        rw [lastStored?_concat]; rfl)⟩
    | rewind =>
      exact ⟨store, m, rfl, hholds, fun key => (hlast key).trans (by
        rw [lastStored?_concat]; rfl)⟩
    | store key record =>
      have hok := hstored calls key record List.prefix_rfl
      rw [hrun] at hok
      obtain ⟨store', hset, hstore⟩ := store_keyed_eq_ok_iff.mp (Prod.ext hok rfl)
      refine ⟨store', m.insert key.text record.toBytes, hstore,
        hholds.set key.isHexKey_text hset, fun key' => ?_⟩
      rw [lastStored?_concat, NameMap.get?_insert, hlast key', Call.storedUnder?]
      by_cases heq : key = key'
      · rw [if_pos (congrArg Digest.text heq.symm), if_pos heq]
        rfl
      · rw [if_neg fun htext => heq (Digest.text_injective htext).symm, if_neg heq]
        rfl

/-- Whatever could be stored at the start can be stored after any calls. -/
theorem run_takes (hwrites : ∀ key record, .store key record ∈ calls →
      ((keyed start).store key record).1 = .ok ()) :
    ∃ store, (keyed start).run calls = .keyed store ∧ ∀ key record,
      ((keyed start).store key record).1 = .ok () →
        ((keyed store).store key record).1 = .ok () := by
  induction calls using List.reverseRecOn with
  | nil => exact ⟨start, rfl, fun _ _ => id⟩
  | append_singleton calls call ih =>
    obtain ⟨store, hrun, htakes⟩ := ih fun key record hmem =>
      hwrites key record (List.mem_append_left _ hmem)
    rw [run_append, hrun]
    cases call with
    | lookup _ | rewind => exact ⟨store, rfl, htakes⟩
    | store key record =>
      have hok := htakes key record (hwrites key record List.mem_concat_self)
      obtain ⟨store', hset, hstore⟩ := store_keyed_eq_ok_iff.mp (Prod.ext hok rfl)
      exact ⟨store', hstore, fun key' record' hwrite =>
        AnyStore.set_after_set hset (htakes key' record' hwrite)⟩

/-- It is enough to know of every record that it could be stored at the start. -/
theorem allStored_of_start (hwrites : ∀ key record, .store key record ∈ calls →
      ((keyed start).store key record).1 = .ok ()) : (keyed start).AllStored calls := by
  intro front key record hfront
  obtain ⟨store, hrun, htakes⟩ := run_takes fun key record hmem =>
    hwrites key record (hfront.subset (List.mem_append_left _ hmem))
  rw [hrun]
  exact htakes key record (hwrites key record (hfront.subset List.mem_concat_self))

/-- **A keyed cache is a map.**  Of a keyed cache over a place in memory or in a folder that starts
out with nothing in it, and of which calls have been made all of whose records could be put in and
are not nested too deeply to be read back:

* under every key it finds the record that was stored there last, if there is one, and looking
  changes nothing;
* it says that there is a record where it finds one, and nowhere else;
* when another record is stored under a key, what is found under every other key is what was found
  there before;
* rewinding changes nothing. -/
theorem keyed_exact (hvacant : start.IsVacant) (hstored : (keyed start).AllStored calls)
    (hnesting : ∀ key record, .store key record ∈ calls →
      record.toDocument.nesting ≤ Document.textDepth) :
    (∀ key, ((keyed start).run calls).lookup key =
      (lastStored? calls key, (keyed start).run calls)) ∧
    (∀ key, ((keyed start).run calls).contains key =
      (((keyed start).run calls).lookup key).1.isSome) ∧
    (∀ key record c, ((keyed start).run calls).store key record = (.ok (), c) →
      ∀ key' ≠ key, (c.lookup key').1 = (((keyed start).run calls).lookup key').1 ∧
        c.contains key' = ((keyed start).run calls).contains key') ∧
    ((keyed start).run calls).rewind = (keyed start).run calls := by
  obtain ⟨store, m, hrun, hholds, hlast⟩ := run_keyed hvacant hstored
  rw [hrun]
  have hlookup : ∀ key, (keyed store).lookup key = (lastStored? calls key, .keyed store) := by
    intro key
    rw [Cache.lookup, hholds.get_eq key.isHexKey_text, hlast]
    refine Prod.ext ?_ rfl
    cases h : lastStored? calls key with
    | none => rfl
    | some record =>
      have hshallow := hnesting key record (exists_store_of_lastStored? h)
      exact (BuildRecord.ofBytes?_toBytes_exact record).trans (if_pos hshallow)
  refine ⟨hlookup, fun key => ?_, fun key record c hstore key' hne => ?_, rfl⟩
  · rw [hlookup, Cache.contains, hholds.has_eq key.isHexKey_text, NameMap.contains, hlast,
      Option.isSome_map]
  · obtain ⟨store', hset, rfl⟩ := store_keyed_eq_ok_iff.mp hstore
    have hholds' := hholds.set key.isHexKey_text hset
    have hsame : (m.insert key.text record.toBytes).get? key'.text = m.get? key'.text := by
      rw [NameMap.get?_insert, if_neg fun htext => hne (Digest.text_injective htext)]
    constructor
    · rw [Cache.lookup, Cache.lookup, hholds'.get_eq key'.isHexKey_text, hsame,
        hholds.get_eq key'.isHexKey_text]
    · rw [Cache.contains, Cache.contains, hholds'.has_eq key'.isHexKey_text,
        hholds.has_eq key'.isHexKey_text, NameMap.contains, NameMap.contains, hsame]

end

namespace Example

def otherKey : Digest := ⟨List.replicate 16 0xab, rfl⟩

/-- Records are stored under two keys, and the one under the first key is replaced. -/
def replacing : List Call :=
  [.store key (record true), .lookup otherKey, .store otherKey (record true), .rewind,
    .store key (record false), .lookup key]

/-- In a folder that was not there before, the cache finds the new record under the first key, and
under the second one what is there still. -/
theorem keyed_exact_replacing :
    (AnyStore.folder FolderStore.Example.fresh).IsVacant ∧
    ((((keyed (AnyStore.folder FolderStore.Example.fresh)).run replacing).lookup key).1 =
      some (record false)) ∧
    ((((keyed (AnyStore.folder FolderStore.Example.fresh)).run replacing).lookup otherKey).1 =
      some (record true)) := by
  have hvacant : (AnyStore.folder FolderStore.Example.fresh).IsVacant := by
    change FolderStore.IsVacant _
    rw [FolderStore.IsVacant]
    decide +kernel
  have hcalls : ∀ key' record', Call.store key' record' ∈ replacing →
      (key' = key ∨ key' = otherKey) ∧ (record' = record true ∨ record' = record false) := by
    intro key' record' hmem
    simp only [replacing, List.mem_cons, List.not_mem_nil, reduceCtorEq, false_or, or_false,
      Call.store.injEq] at hmem
    rcases hmem with ⟨rfl, rfl⟩ | ⟨rfl, rfl⟩ | ⟨rfl, rfl⟩ <;> simp
  have hstored : (keyed (AnyStore.folder FolderStore.Example.fresh)).AllStored replacing := by
    refine allStored_of_start fun key' record' hmem => ?_
    obtain ⟨rfl | rfl, rfl | rfl⟩ := hcalls key' record' hmem <;> rfl
  have hnesting : ∀ key' record', Call.store key' record' ∈ replacing →
      record'.toDocument.nesting ≤ Document.textDepth := by
    intro key' record' hmem
    obtain ⟨-, rfl | rfl⟩ := hcalls key' record' hmem <;> decide +kernel
  obtain ⟨hlookup, -⟩ := keyed_exact hvacant hstored hnesting
  refine ⟨hvacant, (congrArg Prod.fst (hlookup key)).trans ?_,
    (congrArg Prod.fst (hlookup otherKey)).trans ?_⟩ <;> decide +kernel

end Example

end Cache

end ScriptBundle

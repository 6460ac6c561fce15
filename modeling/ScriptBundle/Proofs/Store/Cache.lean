/-
# What changes a cache

A place for entries is traceless if an attempt to put an entry in that fails changes nothing.
Entries in memory are, and so is a guard before a place that is.

Looking up changes a cache in one case only: a positional cache that has a record left to replay
passes that record (`lookup_of_replays`), whatever becomes of the record afterwards.
-/
import ScriptBundle.Proofs.NameMap
import ScriptBundle.Proofs.Store.Record
import ScriptBundle.Store.Cache

namespace ScriptBundle

variable {κ : Type}

/-! ## 1. Places for entries -/

theorem Digest.text_injective {d e : Digest} (h : d.text = e.text) : d = e := by
  have hd := Digest.parse_text d
  rw [h, Digest.parse_text] at hd
  exact (Except.ok.inj hd).symm

/-- An attempt to put an entry in that fails changes nothing. -/
def Backend.Traceless (κ : Type) [Backend κ] : Prop :=
  ∀ (store : κ) (key : String) (content : Bytes) (e : StoreError) (store' : κ),
    Backend.set store key content = (.error e, store') → store' = store

theorem MemoryStore.traceless : Backend.Traceless MemoryStore := by
  intro store key content e store' h
  cases h

theorem GuardedStore.traceless [Backend κ] (h : Backend.Traceless κ) :
    Backend.Traceless (GuardedStore κ) := by
  rintro ⟨store, refusing⟩ key content e store' hset
  change (if refusing then _ else _) = _ at hset
  cases refusing with
  | true =>
    cases hset
    rfl
  | false =>
    rcases hinner : Backend.set store key content with ⟨o, next⟩
    rw [if_neg Bool.false_ne_true, hinner] at hset
    cases hset
    rw [h store key content e next hinner]

/-! ## 2. Looking up -/

namespace Cache

variable {c c' : Cache κ} {key : Digest} {record : BuildRecord}

/-- There is a record left to replay. -/
def Replays : Cache κ → Prop
  | .keyed _ => False
  | .positional entries cursor => cursor < entries.length

instance : DecidablePred (@Replays κ)
  | .keyed _ => inferInstanceAs (Decidable False)
  | .positional entries cursor => inferInstanceAs (Decidable (cursor < entries.length))

/-- The cache with its cursor behind the next record. -/
def advanced : Cache κ → Cache κ
  | .keyed store => .keyed store
  | .positional entries cursor => .positional entries (cursor + 1)

theorem rewind_advanced (c : Cache κ) : c.advanced.rewind = c.rewind := by
  cases c <;> rfl

theorem Replays.cursor_advanced (h : c.Replays) : c.advanced.cursor = c.cursor + 1 := by
  cases c with
  | keyed _ => cases h
  | positional _ _ => rfl

theorem Replays.advanced_ne (h : c.Replays) : c.advanced ≠ c := by
  intro heq
  have hcursor := h.cursor_advanced
  rw [heq] at hcursor
  omega

section

variable [Backend κ]

/-- **Replaying.**  A cache that replays serves a record under every key, and passes it. -/
theorem lookup_of_replays (h : c.Replays) (key : Digest) :
    ∃ record, c.lookup key = (some record, c.advanced) := by
  cases c with
  | keyed _ => cases h
  | positional entries cursor =>
    refine ⟨entries.get ⟨cursor, h⟩, ?_⟩
    rw [lookup, List.getElem?_eq_getElem h]
    rfl

theorem lookup_of_not_replays (h : ¬ c.Replays) (key : Digest) : (c.lookup key).2 = c := by
  cases c with
  | keyed _ => rfl
  | positional entries cursor =>
    rw [lookup, List.getElem?_eq_none (Nat.le_of_not_lt h)]

theorem lookup_none (h : c.lookup key = (none, c')) : ¬ c.Replays ∧ c' = c := by
  have hnot : ¬ c.Replays := by
    intro hreplays
    obtain ⟨record, hlookup⟩ := lookup_of_replays hreplays key
    rw [hlookup] at h
    cases h
  exact ⟨hnot, (congrArg Prod.snd h).symm.trans (lookup_of_not_replays hnot key)⟩

/-- A failed attempt to store a record changes nothing, unless the place for entries is changed. -/
theorem store_error (hplace : Backend.Traceless κ) {e : StoreError}
    (h : c.store key record = (.error e, c')) : c' = c := by
  cases c with
  | keyed store =>
    rcases hset : Backend.set store key.text record.toBytes with ⟨o, next⟩
    rw [Cache.store, hset] at h
    cases h
    rw [hplace store key.text record.toBytes e next hset]
  | positional _ _ => cases h

end

end Cache

end ScriptBundle

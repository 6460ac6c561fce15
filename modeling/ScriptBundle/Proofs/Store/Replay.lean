/-
# What a positional cache replays

A positional cache keeps what is stored in a list, which only grows, and serves the list from the
front.  Where it is in the list is told by a cursor, and everything that is asked of the cache moves
the cursor in a way that can be said without the records: looking up passes a record if one is left,
storing passes all of them, and rewinding goes back to the start (`Call.cursorAfter`,
`after_positional`).

So what is served depends on the calls since the last rewind alone.  As long as there is no rewind
the cursor does not go back, and no record is served twice; once a record is stored there is none
left to serve; and straight after a rewind the records come in the order in which they were ever
stored (`replay_exact`).  The place for entries, which a keyed cache asks, has no part in this.
-/
import ScriptBundle.Proofs.Store.Cache

namespace ScriptBundle.Cache

variable {κ : Type}

/-! ## 1. Calls -/

/-- What is asked of a cache. -/
inductive Call
  | lookup (key : Digest)
  | store (key : Digest) (record : BuildRecord)
  | rewind
deriving DecidableEq

/-- The record that a call stores, if it stores one. -/
def Call.stored? : Call → Option BuildRecord
  | .store _ record => some record
  | _ => none

/-- The records that calls store, in turn. -/
def storedBy (calls : List Call) : List BuildRecord := calls.filterMap Call.stored?

theorem storedBy_cons (call : Call) (calls : List Call) :
    storedBy (call :: calls) = call.stored?.toList ++ storedBy calls := by
  rw [storedBy, List.filterMap_cons]
  cases call.stored? <;> rfl

theorem storedBy_append (calls calls' : List Call) :
    storedBy (calls ++ calls') = storedBy calls ++ storedBy calls' := List.filterMap_append

section

variable [Backend κ]

/-- The cache after a call, whatever comes of the call. -/
def after (c : Cache κ) : Call → Cache κ
  | .lookup key => (c.lookup key).2
  | .store key record => (c.store key record).2
  | .rewind => c.rewind

/-- The cache after calls. -/
def run (c : Cache κ) (calls : List Call) : Cache κ := calls.foldl after c

/-- The record that a call is served, if it looks for one and there is one. -/
def served? (c : Cache κ) : Call → Option BuildRecord
  | .lookup key => (c.lookup key).1
  | _ => none

/-- What calls are served, in turn, each record with the position at which the cache is when it
serves it. -/
def servedBy (c : Cache κ) : List Call → List (Nat × BuildRecord)
  | [] => []
  | call :: rest => (c.served? call).toList.map (c.cursor, ·) ++ servedBy (c.after call) rest

theorem run_append (c : Cache κ) (calls calls' : List Call) :
    c.run (calls ++ calls') = (c.run calls).run calls' := List.foldl_append

/-! ## 2. One call of a positional cache -/

/-- Where the cursor of a positional cache is after a call. -/
def Call.cursorAfter (size cursor : Nat) : Call → Nat
  | .lookup _ => if cursor < size then cursor + 1 else cursor
  | .store _ _ => size + 1
  | .rewind => 0

variable {entries : List BuildRecord} {cursor : Nat}

/-- **One call** adds the record that it stores, and moves the cursor. -/
theorem after_positional (call : Call) :
    (positional entries cursor : Cache κ).after call =
      .positional (entries ++ call.stored?.toList) (call.cursorAfter entries.length cursor) := by
  cases call with
  | lookup key =>
    simp only [after, lookup, Call.stored?, Option.toList_none, List.append_nil, Call.cursorAfter]
    by_cases hleft : cursor < entries.length
    · rw [List.getElem?_eq_getElem hleft, if_pos hleft]
    · rw [List.getElem?_eq_none (Nat.le_of_not_lt hleft), if_neg hleft]
  | store key record => rfl
  | rewind => simp [after, rewind, Call.stored?, Call.cursorAfter]

theorem lookup_positional (key : Digest) :
    ((positional entries cursor : Cache κ).lookup key).1 = entries[cursor]? := by
  rw [lookup]
  cases entries[cursor]? <;> rfl

/-- A record that is served is the one at the cursor, which moves on. -/
theorem of_served_positional {call : Call} {record : BuildRecord}
    (h : (positional entries cursor : Cache κ).served? call = some record) :
    entries[cursor]? = some record ∧ call.cursorAfter entries.length cursor = cursor + 1 := by
  cases call with
  | lookup key =>
    rw [served?, lookup_positional] at h
    exact ⟨h, if_pos (List.getElem?_eq_some_iff.mp h).1⟩
  | store key record => cases h
  | rewind => cases h

theorem Call.cursorAfter_le {call : Call} (h : cursor ≤ entries.length) :
    call.cursorAfter entries.length cursor ≤ (entries ++ call.stored?.toList).length := by
  rw [List.length_append]
  cases call with
  | lookup key =>
    rw [cursorAfter]
    split
    · exact Nat.le_add_right_of_le (by omega)
    · exact Nat.le_add_right_of_le h
  | store key record => exact Nat.le_refl _
  | rewind => exact Nat.zero_le _

/-- Only a rewind moves the cursor back. -/
theorem Call.le_cursorAfter {call : Call} {size : Nat} (h : cursor ≤ size)
    (hcall : call ≠ .rewind) : cursor ≤ call.cursorAfter size cursor := by
  cases call with
  | lookup key =>
    rw [cursorAfter]
    split <;> omega
  | store key record => exact Nat.le_succ_of_le h
  | rewind => exact absurd rfl hcall

/-! ## 3. Any number of calls -/

/-- **The state.**  The list is what has been stored, and the cursor stays within it. -/
theorem run_positional (h : cursor ≤ entries.length) (calls : List Call) :
    ∃ cursor' ≤ (entries ++ storedBy calls).length,
      (positional entries cursor : Cache κ).run calls =
        .positional (entries ++ storedBy calls) cursor' := by
  induction calls generalizing entries cursor with
  | nil =>
    rw [storedBy, List.filterMap_nil, List.append_nil]
    exact ⟨cursor, h, rfl⟩
  | cons call rest ih =>
    obtain ⟨cursor', hcursor', hrun⟩ := ih (Call.cursorAfter_le h)
    rw [storedBy_cons, ← List.append_assoc]
    refine ⟨cursor', hcursor', ?_⟩
    rw [← hrun, ← after_positional]
    rfl

/-- **No rewind, no repetition.**  What calls without a rewind are served comes from behind the
cursor, and each record from behind the one before. -/
theorem servedBy_positional (h : cursor ≤ entries.length) {calls : List Call}
    (hcalls : .rewind ∉ calls) :
    (∀ e ∈ (positional entries cursor : Cache κ).servedBy calls,
      cursor ≤ e.1 ∧ (entries ++ storedBy calls)[e.1]? = some e.2) ∧
    (((positional entries cursor : Cache κ).servedBy calls).map (·.1)).Pairwise (· < ·) := by
  induction calls generalizing entries cursor with
  | nil => exact ⟨List.forall_mem_nil _, .nil⟩
  | cons call rest ih =>
    rw [List.mem_cons, not_or] at hcalls
    obtain ⟨hrest, hsorted⟩ := ih (Call.cursorAfter_le h) hcalls.2
    have hforth := Call.le_cursorAfter h (Ne.symm hcalls.1)
    rw [storedBy_cons, ← List.append_assoc, servedBy, after_positional]
    cases hserved : (positional entries cursor : Cache κ).served? call with
    | none =>
      refine ⟨fun e he => ?_, hsorted⟩
      obtain ⟨hle, hat⟩ := hrest e he
      exact ⟨hforth.trans hle, hat⟩
    | some record =>
      obtain ⟨hat, hnext⟩ := of_served_positional hserved
      rw [hnext] at hrest hsorted
      rw [hnext]
      have hlt : cursor < entries.length := (List.getElem?_eq_some_iff.mp hat).1
      constructor
      · intro e he
        rcases List.mem_cons.mp he with rfl | he
        · refine ⟨Nat.le_refl cursor, ?_⟩
          change (entries ++ call.stored?.toList ++ storedBy rest)[cursor]? = some record
          rw [List.append_assoc, List.getElem?_append_left hlt, hat]
        · obtain ⟨hle, hat⟩ := hrest e he
          exact ⟨Nat.le_of_succ_le hle, hat⟩
      · refine List.pairwise_cons.mpr ⟨?_, hsorted⟩
        intro position hposition
        obtain ⟨e, he, rfl⟩ := List.mem_map.mp hposition
        exact (hrest e he).1

/-- A record that is stored is passed at once, with all others. -/
theorem not_replays_store (c : Cache κ) (key : Digest) (record : BuildRecord) :
    ¬ (c.after (.store key record)).Replays := by
  cases c with
  | keyed store => exact id
  | positional entries cursor =>
    change ¬ entries.length + 1 < (entries ++ [record]).length
    rw [List.length_append]
    exact Nat.lt_irrefl _

/-- Once there is no record left, there is none until the next rewind. -/
theorem not_replays_run {c : Cache κ} (h : ¬ c.Replays) {calls : List Call}
    (hcalls : .rewind ∉ calls) : ¬ (c.run calls).Replays := by
  induction calls generalizing c with
  | nil => exact h
  | cons call rest ih =>
    rw [List.mem_cons, not_or] at hcalls
    refine ih ?_ hcalls.2
    cases call with
    | lookup key => rwa [after, lookup_of_not_replays h key]
    | store key record => exact not_replays_store c key record
    | rewind => exact absurd rfl hcalls.1

/-- Looking up again and again passes one record after the other, to the end. -/
theorem run_lookups (h : cursor ≤ entries.length) (keys : List Digest) :
    (positional entries cursor : Cache κ).run (keys.map .lookup) =
      .positional entries (min (cursor + keys.length) entries.length) := by
  induction keys generalizing cursor with
  | nil => rw [List.length_nil, Nat.add_zero, Nat.min_eq_left h]; rfl
  | cons key rest ih =>
    have hstep : (positional entries cursor : Cache κ).after (.lookup key) =
        .positional entries (if cursor < entries.length then cursor + 1 else cursor) := by
      rw [after_positional]
      exact congrArg (positional · _) (List.append_nil _)
    have hcursor : (if cursor < entries.length then cursor + 1 else cursor) ≤ entries.length := by
      split <;> omega
    rw [List.map_cons, run, List.foldl_cons, hstep, ← run, ih hcursor, List.length_cons]
    congr 1
    split <;> omega

theorem contains_positional (key : Digest) :
    (positional entries cursor : Cache κ).contains key = entries[cursor]?.isSome := by
  rw [contains, Bool.eq_iff_iff, decide_eq_true_iff, Option.isSome_iff_ne_none, Ne,
    List.getElem?_eq_none_iff, Nat.not_le]

end

/-- What a positional cache does is the same with any place for entries. -/
theorem run_positional_congr (place place' : Backend κ) (entries : List BuildRecord) (cursor : Nat)
    (calls : List Call) :
    @run κ place (.positional entries cursor) calls =
        @run κ place' (.positional entries cursor) calls ∧
      @servedBy κ place (.positional entries cursor) calls =
        @servedBy κ place' (.positional entries cursor) calls := by
  induction calls generalizing entries cursor with
  | nil => exact ⟨rfl, rfl⟩
  | cons call rest ih =>
    obtain ⟨hrun, hserved⟩ := ih (entries ++ call.stored?.toList)
      (call.cursorAfter entries.length cursor)
    have hcall : @served? κ place (.positional entries cursor) call =
        @served? κ place' (.positional entries cursor) call := by
      cases call <;> rfl
    constructor
    · change @run κ place (@after κ place (.positional entries cursor) call) rest =
        @run κ place' (@after κ place' (.positional entries cursor) call) rest
      rw [@after_positional κ place, @after_positional κ place', hrun]
    · change (@served? κ place (.positional entries cursor) call).toList.map (cursor, ·) ++
          @servedBy κ place (@after κ place (.positional entries cursor) call) rest =
        (@served? κ place' (.positional entries cursor) call).toList.map (cursor, ·) ++
          @servedBy κ place' (@after κ place' (.positional entries cursor) call) rest
      rw [@after_positional κ place, @after_positional κ place', hcall, hserved]

/-- **Replaying.**  Of a positional cache that starts out empty, and of which calls have been made:

* its list is what has been stored, in turn, and its cursor is within the list;
* it says of any key that a record would be found exactly if one would be;
* the calls from there on to the next rewind are served records at positions that only grow, so
  none twice, and each is the one that was stored at its position;
* once something is stored, nothing is found until the next rewind;
* after a rewind, looking up again and again finds all records that were ever stored in turn, and
  then nothing;
* all this is so whatever the place for entries would do, which is never asked. -/
theorem replay_exact [place : Backend κ] (before : List Call) :
    (∃ cursor ≤ (storedBy before).length,
      (replay : Cache κ).run before = .positional (storedBy before) cursor) ∧
    (∀ key key', ((replay : Cache κ).run before).contains key =
      (((replay : Cache κ).run before).lookup key').1.isSome) ∧
    (∀ during, .rewind ∉ during →
      ((((replay : Cache κ).run before).servedBy during).map (·.1)).Pairwise (· < ·) ∧
      ∀ e ∈ ((replay : Cache κ).run before).servedBy during,
        (storedBy (before ++ during))[e.1]? = some e.2) ∧
    (∀ key record during key', .rewind ∉ during →
      (((replay : Cache κ).run (before ++ .store key record :: during)).lookup key').1 = none) ∧
    (∀ (keys : List Digest) (key : Digest),
      (((replay : Cache κ).run (before ++ .rewind :: keys.map .lookup)).lookup key).1 =
        (storedBy before)[keys.length]?) ∧
    (∀ place' : Backend κ, @run κ place' replay before = @run κ place replay before ∧
      @servedBy κ place' replay before = @servedBy κ place replay before) := by
  obtain ⟨cursor, hcursor, hrun⟩ :=
    @run_positional κ place [] 0 (Nat.zero_le _) before
  rw [List.nil_append] at hcursor hrun
  rw [← replay] at hrun
  refine ⟨⟨cursor, hcursor, hrun⟩, ?_, ?_, ?_, ?_, ?_⟩
  · intro key key'
    rw [hrun, contains_positional, lookup_positional]
  · intro during hduring
    obtain ⟨hserved, hsorted⟩ := @servedBy_positional κ place _ _ hcursor _ hduring
    rw [hrun, storedBy_append]
    exact ⟨hsorted, fun e he => (hserved e he).2⟩
  · intro key record during key' hduring
    have hnone : ¬ ((replay : Cache κ).run (before ++ .store key record :: during)).Replays := by
      rw [run_append]
      exact not_replays_run (not_replays_store _ key record) hduring
    obtain ⟨cursor', hcursor', hrun'⟩ :=
      @run_positional κ place [] 0 (Nat.zero_le _) (before ++ .store key record :: during)
    rw [← replay] at hrun'
    rw [hrun'] at hnone ⊢
    rw [lookup_positional, List.getElem?_eq_none (Nat.le_of_not_lt hnone)]
  · intro keys key
    have hrewound : (replay : Cache κ).run (before ++ .rewind :: keys.map .lookup) =
        .positional (storedBy before) (min (0 + keys.length) (storedBy before).length) := by
      rw [run_append, hrun, ← run_lookups (Nat.zero_le _)]
      rfl
    rw [hrewound, lookup_positional, Nat.zero_add]
    rcases Nat.le_total keys.length (storedBy before).length with hle | hge
    · rw [Nat.min_eq_left hle]
    · rw [Nat.min_eq_right hge, List.getElem?_eq_none (Nat.le_refl _), List.getElem?_eq_none hge]
  · exact fun place' => run_positional_congr place' place [] 0 before

namespace Example

def key : Digest := ⟨List.replicate 16 0, rfl⟩

/-- A record of a build without validators. -/
def record (debug : Bool) : BuildRecord := ⟨debug, .empty, .empty⟩

/-- Two records are stored one after the other, and the cache is rewound. -/
def stored : List Call := [.store key (record true), .store key (record false), .rewind]

/-- The cache is asked three times, and then a third record is stored. -/
def asked : List Call :=
  [.lookup key, .lookup key, .lookup key, .store key (record true), .lookup key]

/-- The two records are served in turn, and then nothing, and nothing behind the third either. -/
theorem replay_exact_asked :
    .rewind ∉ asked ∧
    (((replay : Cache MemoryStore).run stored).servedBy asked =
      [(0, record true), (1, record false)]) ∧
    ((((replay : Cache MemoryStore).run stored).servedBy asked).map (·.1)).Pairwise (· < ·) ∧
    (((replay : Cache MemoryStore).run (stored ++ .store key (record true) :: asked)).lookup
      key).1 = none := by
  have hasked : .rewind ∉ asked := by decide
  obtain ⟨-, -, hserved, hpassed, -⟩ := @replay_exact MemoryStore _ stored
  exact ⟨hasked, by decide +kernel, (hserved asked hasked).1,
    hpassed key (record true) asked key hasked⟩

end Example

end ScriptBundle.Cache

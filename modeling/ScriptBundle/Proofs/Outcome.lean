/-
# Chains of steps that can fail

Decoding, checking and restoring are chains of steps, and a chain succeeds exactly when every step
of it does.  The lemmas here take such a chain apart one step at a time; every module that looks
inside one goes by them.
-/

namespace ScriptBundle

variable {ε α β : Type}

/-- A chain succeeds with `b` iff its first step succeeds and the rest, on what that gave,
succeeds with `b`. -/
theorem bind_eq_ok_iff {x : Except ε α} {f : α → Except ε β} {b : β} :
    (x >>= f) = .ok b ↔ ∃ a, x = .ok a ∧ f a = .ok b := by
  cases x with
  | ok a =>
    refine ⟨fun h => ⟨a, rfl, h⟩, ?_⟩
    rintro ⟨a', ha, hb⟩
    cases ha
    exact hb
  | error e =>
    refine ⟨fun h => (by cases h), ?_⟩
    rintro ⟨a, ha, -⟩
    cases ha

/-- A chain succeeds at all iff its first step does and the rest does on what that gave. -/
theorem exists_bind_eq_ok_iff {x : Except ε α} {f : α → Except ε β} :
    (∃ b, (x >>= f) = .ok b) ↔ ∃ a, x = .ok a ∧ ∃ b, f a = .ok b := by
  simp only [bind_eq_ok_iff]
  rw [exists_comm]
  simp only [exists_and_left]

/-- A chain fails iff its first step fails, or the rest does on what that gave. -/
theorem bind_eq_error_iff {x : Except ε α} {f : α → Except ε β} {e : ε} :
    (x >>= f) = .error e ↔ x = .error e ∨ ∃ a, x = .ok a ∧ f a = .error e := by
  cases x with
  | ok a =>
    refine ⟨fun h => .inr ⟨a, rfl, h⟩, ?_⟩
    rintro (h | ⟨a', ha, he⟩)
    · cases h
    · cases ha
      exact he
  | error e' =>
    refine ⟨fun h => .inl (by cases h; rfl), ?_⟩
    rintro (h | ⟨a, ha, -⟩)
    · cases h
      rfl
    · cases ha

theorem pure_eq_ok_iff {a b : α} : (pure a : Except ε α) = .ok b ↔ a = b :=
  ⟨Except.ok.inj, fun h => h ▸ rfl⟩

/-- Rewording a complaint neither makes a success nor takes one away. -/
theorem mapError_eq_ok_iff {ε' : Type} {x : Except ε α} {f : ε → ε'} {a : α} :
    x.mapError f = .ok a ↔ x = .ok a := by
  cases x with
  | ok b => exact ⟨fun h => (by cases h; rfl), fun h => (by cases h; rfl)⟩
  | error e => exact ⟨fun h => (by cases h), fun h => (by cases h)⟩

/-- An outcome that can be computed, and then has a property, is a success. -/
theorem exists_ok_of_any {x : Except ε α} {p : α → Bool} (h : x.toOption.any p = true) :
    ∃ a, x = .ok a ∧ p a = true := by
  cases x with
  | ok a => exact ⟨a, rfl, h⟩
  | error e => cases h

/-- A check of every item succeeds iff none is refused. -/
theorem forM_eq_ok_iff {check : α → Except ε Unit} {items : List α} :
    items.forM check = .ok () ↔ ∀ a ∈ items, check a = .ok () := by
  induction items with
  | nil => exact ⟨fun _ => List.forall_mem_nil _, fun _ => rfl⟩
  | cons a rest ih =>
    rw [List.forall_mem_cons, ← ih]
    refine bind_eq_ok_iff.trans ⟨?_, fun ⟨ha, hrest⟩ => ⟨(), ha, hrest⟩⟩
    rintro ⟨⟨⟩, ha, hrest⟩
    exact ⟨ha, hrest⟩

/-- A list is refused for the first item that is, and for the same cause. -/
theorem forM_eq_error_iff {check : α → Except ε Unit} {items : List α} {e : ε} :
    items.forM check = .error e ↔ ∃ before a after, items = before ++ a :: after ∧
      (∀ b ∈ before, check b = .ok ()) ∧ check a = .error e := by
  induction items with
  | nil =>
    refine ⟨fun h => (by cases h), ?_⟩
    rintro ⟨before, a, after, h, -⟩
    cases before <;> cases h
  | cons a rest ih =>
    refine bind_eq_error_iff.trans ⟨?_, ?_⟩
    · rintro (ha | ⟨⟨⟩, ha, hrest⟩)
      · exact ⟨[], a, rest, rfl, List.forall_mem_nil _, ha⟩
      · obtain ⟨before, b, after, rfl, hbefore, hb⟩ := ih.mp hrest
        exact ⟨a :: before, b, after, rfl, List.forall_mem_cons.mpr ⟨ha, hbefore⟩, hb⟩
    · rintro ⟨before, b, after, h, hbefore, hb⟩
      cases before with
      | nil =>
        cases h
        exact .inl hb
      | cons a' before =>
        cases h
        obtain ⟨ha, hbefore⟩ := List.forall_mem_cons.mp hbefore
        exact .inr ⟨(), ha, ih.mpr ⟨before, b, after, rfl, hbefore, hb⟩⟩

/-- A list that is refused has an item that is, for the same cause. -/
theorem exists_of_forM_error {check : α → Except ε Unit} {items : List α} {e : ε}
    (h : items.forM check = .error e) : ∃ a ∈ items, check a = .error e := by
  obtain ⟨before, a, after, rfl, -, ha⟩ := forM_eq_error_iff.mp h
  exact ⟨a, List.mem_append_right _ List.mem_cons_self, ha⟩

/-- A list that cannot be converted has an item that cannot be, for the same cause. -/
theorem exists_of_mapM_error {f : α → Except ε β} {items : List α} {e : ε}
    (h : items.mapM f = .error e) : ∃ a ∈ items, f a = .error e := by
  induction items with
  | nil => cases h
  | cons a rest ih =>
    rw [List.mapM_cons] at h
    rcases bind_eq_error_iff.mp h with ha | ⟨b, -, h⟩
    · exact ⟨a, List.mem_cons_self, ha⟩
    rcases bind_eq_error_iff.mp h with hrest | ⟨bs, -, h⟩
    · obtain ⟨a', ha', he⟩ := ih hrest
      exact ⟨a', List.mem_cons_of_mem _ ha', he⟩
    · cases h

end ScriptBundle

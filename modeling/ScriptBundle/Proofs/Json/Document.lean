/-
# JSON texts are read back

Reading undoes writing, for every document and without a bound on its nesting (`read_write`).  So
two documents with one text are equal (`write_injective`).

The reader is given as much fuel as twice the length of the text, and every two calls into each
other take a character.  The induction is on the document, and says of each part of it that it is
read back in front of anything that does not go on with it, if the fuel is twice the number of its
characters (`Readable`).
-/
import ScriptBundle.Proofs.Json.Scalar

namespace ScriptBundle

/-! ## 1. Induction over a document -/

/-- **Induction over a document**, with a hypothesis for every document directly inside it. -/
@[elab_as_elim]
theorem Document.induct {motive : Document → Prop}
    (null : motive .null)
    (bool : ∀ b, motive (.bool b))
    (number : ∀ n, motive (.number n))
    (text : ∀ s, motive (.text s))
    (list : ∀ items, (∀ d ∈ items, motive d) → motive (.list items))
    (table : ∀ entries, (∀ e ∈ entries, motive e.2) → motive (.table entries)) (d : Document) :
    motive d := by
  have ih : ∀ e, sizeOf e < sizeOf d → motive e := fun e _ =>
    induct null bool number text list table e
  cases d with
  | null => exact null
  | bool b => exact bool b
  | number n => exact number n
  | text s => exact text s
  | list items =>
    simp only [Document.list.sizeOf_spec] at ih
    refine list items fun e he => ih e ?_
    have hlt := List.sizeOf_lt_of_mem he
    omega
  | table entries =>
    simp only [Document.table.sizeOf_spec] at ih
    refine table entries fun e he => ih e.2 ?_
    have hlt := List.sizeOf_lt_of_mem he
    cases e
    simp only [Prod.mk.sizeOf_spec] at hlt ⊢
    omega
termination_by sizeOf d

namespace Json

/-! ## 2. How a text goes on -/

/-- A character that a value starts with: neither a blank nor a closing bracket. -/
def Opens (c : Char) : Prop := isSpace c = false ∧ c ≠ ']'

theorem skip_cons {c : Char} {cs : List Char} (h : isSpace c = false) :
    skip (c :: cs) = c :: cs := by
  rw [skip, List.dropWhile_cons, h]
  rfl

theorem isSpace_of_isDigit {c : Char} (h : c.isDigit = true) : isSpace c = false := by
  refine Bool.eq_false_iff.mpr fun hspace => ?_
  simp only [isSpace, Bool.or_eq_true, decide_eq_true_eq] at hspace
  rcases hspace with ((rfl | rfl) | rfl) | rfl <;> cases h

theorem numberChars_eq_cons (n : Number) :
    ∃ c cs, numberChars n = c :: cs ∧ (c = '-' ∨ c.isDigit = true) := by
  have hsigned : ∀ negative m after, ∃ c cs,
      sign negative ++ Numeral.digits m ++ after = c :: cs ∧ (c = '-' ∨ c.isDigit = true) := by
    intro negative m after
    obtain ⟨c, cs, hdigits, hc⟩ := digits_eq_cons m
    rw [hdigits]
    cases negative with
    | false => exact ⟨c, cs ++ after, rfl, .inr hc⟩
    | true => exact ⟨'-', c :: cs ++ after, rfl, .inl rfl⟩
  cases n with
  | whole negative m =>
    obtain ⟨c, cs, h, hc⟩ := hsigned negative m []
    exact ⟨c, cs, by rw [numberChars, ← h, List.append_nil], hc⟩
  | decimal negative m e => exact hsigned negative m _

theorem chars_eq_cons (d : Document) : ∃ c cs, chars d = c :: cs ∧ Opens c := by
  match d with
  | .null => exact ⟨_, _, rfl, rfl, by decide⟩
  | .bool true => exact ⟨_, _, rfl, rfl, by decide⟩
  | .bool false => exact ⟨_, _, rfl, rfl, by decide⟩
  | .number n =>
    obtain ⟨c, cs, h, hc⟩ := numberChars_eq_cons n
    refine ⟨c, cs, by rw [chars, h], ?_⟩
    rcases hc with rfl | hc
    · exact ⟨rfl, by decide⟩
    · refine ⟨isSpace_of_isDigit hc, ?_⟩
      rintro rfl
      cases hc
  | .text none => exact ⟨_, _, rfl, rfl, by decide⟩
  | .text (some s) => exact ⟨_, _, rfl, rfl, by decide⟩
  | .list [] => exact ⟨_, _, rfl, rfl, by decide⟩
  | .list (d :: rest) => exact ⟨_, _, rfl, rfl, by decide⟩
  | .table [] => exact ⟨_, _, rfl, rfl, by decide⟩
  | .table ((name, d) :: rest) => exact ⟨_, _, rfl, rfl, by decide⟩

theorem endsNumber_cons {c : Char} {cs : List Char}
    (h : c.isDigit = false ∧ c ≠ '.' ∧ c ≠ 'e' ∧ c ≠ 'E') : EndsNumber (c :: cs) := by
  intro c' hc'
  cases hc'
  exact h

theorem endsNumber_tailChars (ds : List Document) (rest : List Char) :
    EndsNumber (tailChars ds ++ rest) := by
  cases ds <;> exact endsNumber_cons (by decide)

theorem endsNumber_tailEntryChars (es : List (Option String × Document)) (rest : List Char) :
    EndsNumber (tailEntryChars es ++ rest) := by
  cases es <;> exact endsNumber_cons (by decide)

/-! ## 3. Values -/

/-- A document is read back in front of anything that does not go on with it. -/
def Readable (d : Document) : Prop :=
  ∀ fuel rest, 2 * (chars d).length ≤ fuel → EndsNumber rest →
    value fuel (chars d ++ rest) = some (d, rest)

/-- A text has a character, so there is fuel for at least one call. -/
theorem readable_of_succ {d : Document}
    (h : ∀ fuel rest, 2 * (chars d).length ≤ fuel + 1 → EndsNumber rest →
      value (fuel + 1) (chars d ++ rest) = some (d, rest)) : Readable d := by
  intro fuel rest hfuel hrest
  obtain ⟨c, cs, hchars, -⟩ := chars_eq_cons d
  have hlen : (chars d).length = cs.length + 1 := congrArg List.length hchars
  obtain ⟨fuel, rfl⟩ : ∃ k, fuel = k + 1 := ⟨fuel - 1, by omega⟩
  exact h fuel rest hfuel hrest

theorem readable_number (n : Number) : Readable (.number n) := by
  refine readable_of_succ fun fuel rest _ hrest => ?_
  obtain ⟨c, cs, hchars, hc⟩ := numberChars_eq_cons n
  have hspace : isSpace c = false := by
    rcases hc with rfl | hc
    · rfl
    · exact isSpace_of_isDigit hc
  have hnumber := number_numberChars n hrest
  rw [hchars, List.cons_append] at hnumber
  rw [chars, hchars, List.cons_append, value, skip_cons hspace]
  -- No other value starts with a sign or a digit.
  split
  all_goals first
    | (rename_i h; obtain ⟨rfl, -⟩ := List.cons.inj h; rcases hc with h | h <;> cases h)
    | (rw [hnumber]; rfl)

theorem readable_text (s : Option String) : Readable (.text s) := by
  refine readable_of_succ fun fuel rest _ _ => ?_
  obtain ⟨cs, hquoted, hstring⟩ := string_quoted s rest
  rw [chars, hquoted, List.cons_append, value, skip_cons rfl]
  simp only [hstring, Option.map_some]

/-- **Items.**  The items of a list are read back, with the bracket behind them. -/
theorem elements_tailChars {d : Document} {ds : List Document} (hd : Readable d)
    (hds : ∀ d ∈ ds, Readable d) (fuel : Nat) (rest : List Char)
    (hfuel : 2 * ((chars d).length + (tailChars ds).length) < fuel) :
    elements fuel (chars d ++ (tailChars ds ++ rest)) = some (d :: ds, rest) := by
  induction ds generalizing d fuel with
  | nil =>
    obtain ⟨fuel, rfl⟩ : ∃ k, fuel = k + 1 := ⟨fuel - 1, by omega⟩
    have hvalue := hd fuel _ (by omega) (endsNumber_tailChars [] rest)
    rw [elements, hvalue]
    rfl
  | cons d' ds ih =>
    obtain ⟨hd', hds⟩ := List.forall_mem_cons.mp hds
    obtain ⟨fuel, rfl⟩ : ∃ k, fuel = k + 1 := ⟨fuel - 1, by omega⟩
    have hvalue := hd fuel _ (by omega) (endsNumber_tailChars (d' :: ds) rest)
    simp only [tailChars, List.cons_append, List.length_cons, List.length_append] at hfuel hvalue ⊢
    have hrest := ih hd' hds fuel (by omega)
    rw [elements, hvalue]
    simp only [Option.bind_eq_bind, Option.bind_some, List.append_assoc, hrest,
      skip_cons (c := ',') rfl]
    rfl

theorem value_list {fuel : Nat} {c : Char} {cs rest : List Char} {items : List Document}
    (hc : Opens c) (h : elements fuel (c :: cs) = some (items, rest)) :
    value (fuel + 1) ('[' :: c :: cs) = some (.list items, rest) := by
  rw [value, skip_cons rfl]
  simp only [skip_cons hc.1]
  split
  · rename_i hclose
    cases hclose
    exact absurd rfl hc.2
  · rw [h]
    rfl

theorem readable_list {items : List Document} (h : ∀ d ∈ items, Readable d) :
    Readable (.list items) := by
  refine readable_of_succ fun fuel rest hfuel _ => ?_
  cases items with
  | nil => rfl
  | cons d ds =>
    obtain ⟨hd, hds⟩ := List.forall_mem_cons.mp h
    simp only [chars, List.length_cons, List.cons_append, List.length_append] at hfuel ⊢
    have hitems := elements_tailChars hd hds fuel rest (by omega)
    obtain ⟨c, cs, hchars, hc⟩ := chars_eq_cons d
    rw [hchars] at hitems
    rw [List.append_assoc, hchars]
    exact value_list hc hitems

/-- **Entries.**  The entries of a table are read back, with the brace behind them. -/
theorem members_tailEntryChars (name : Option String) {d : Document}
    {es : List (Option String × Document)} (hd : Readable d) (hes : ∀ e ∈ es, Readable e.2)
    (fuel : Nat) (rest : List Char)
    (hfuel : 2 * ((quoted name).length + (chars d).length + (tailEntryChars es).length) < fuel) :
    members fuel (quoted name ++ ':' :: (chars d ++ (tailEntryChars es ++ rest))) =
      some ((name, d) :: es, rest) := by
  induction es generalizing name d fuel with
  | nil =>
    obtain ⟨fuel, rfl⟩ : ∃ k, fuel = k + 1 := ⟨fuel - 1, by omega⟩
    have hvalue := hd fuel _ (by omega) (endsNumber_tailEntryChars [] rest)
    obtain ⟨cs, hquoted, hstring⟩ :=
      string_quoted name (':' :: (chars d ++ (tailEntryChars [] ++ rest)))
    rw [hquoted, List.cons_append, members, skip_cons rfl]
    simp only [hstring, Option.bind_eq_bind, Option.bind_some, skip_cons (c := ':') rfl, hvalue]
    rfl
  | cons e es ih =>
    obtain ⟨name', d'⟩ := e
    obtain ⟨hd', hes⟩ : Readable d' ∧ ∀ e ∈ es, Readable e.2 := List.forall_mem_cons.mp hes
    obtain ⟨fuel, rfl⟩ : ∃ k, fuel = k + 1 := ⟨fuel - 1, by omega⟩
    have hvalue := hd fuel _ (by omega) (endsNumber_tailEntryChars ((name', d') :: es) rest)
    obtain ⟨cs, hquoted, hstring⟩ :=
      string_quoted name (':' :: (chars d ++ (tailEntryChars ((name', d') :: es) ++ rest)))
    have hlen : (tailEntryChars ((name', d') :: es)).length =
        (quoted name').length + (chars d').length + (tailEntryChars es).length + 2 := by
      simp only [tailEntryChars, List.cons_append, List.length_cons, List.length_append]
      omega
    have hrest := ih name' hd' hes fuel (by omega)
    rw [hquoted, List.cons_append, members, skip_cons rfl]
    simp only [hstring, Option.bind_eq_bind, Option.bind_some, skip_cons (c := ':') rfl, hvalue]
    simp only [tailEntryChars, List.cons_append, List.append_assoc, skip_cons (c := ',') rfl, hrest]
    rfl

theorem value_table {fuel : Nat} {cs rest : List Char}
    {entries : List (Option String × Document)}
    (h : members fuel ('"' :: cs) = some (entries, rest)) :
    value (fuel + 1) ('\x7b' :: '"' :: cs) = some (.table entries, rest) := by
  rw [value, skip_cons rfl]
  simp only [skip_cons (c := '"') rfl]
  change (members fuel ('"' :: cs)).map (fun x => (Document.table x.1, x.2)) = _
  rw [h]
  rfl

theorem readable_table {entries : List (Option String × Document)}
    (h : ∀ e ∈ entries, Readable e.2) : Readable (.table entries) := by
  refine readable_of_succ fun fuel rest hfuel _ => ?_
  match entries, h with
  | [], _ => rfl
  | (name, d) :: es, h =>
    obtain ⟨hd, hes⟩ : Readable d ∧ ∀ e ∈ es, Readable e.2 := List.forall_mem_cons.mp h
    simp only [chars, List.length_cons, List.cons_append, List.length_append] at hfuel
    have hentries := members_tailEntryChars name hd hes fuel rest (by omega)
    obtain ⟨cs, hquoted, -⟩ := string_quoted name rest
    simp only [chars, List.cons_append, List.append_assoc]
    rw [hquoted, List.cons_append] at hentries ⊢
    exact value_table hentries

theorem readable (d : Document) : Readable d := by
  induction d using Document.induct with
  | null => exact readable_of_succ fun _ _ _ _ => rfl
  | bool b => cases b <;> exact readable_of_succ fun _ _ _ _ => rfl
  | number n => exact readable_number n
  | text s => exact readable_text s
  | list items ih => exact readable_list ih
  | table entries ih => exact readable_table ih

/-! ## 4. Texts -/

/-- **Texts are read back.**  Reading the text of a document gives the document. -/
theorem read_write (d : Document) : read (write d) = some d := by
  have hvalue := readable d (2 * (chars d).length + 2) [] (by omega) (by simp [EndsNumber])
  rw [List.append_nil] at hvalue
  rw [read, write, String.toList_ofList]
  simp only [hvalue, Option.bind_eq_bind, Option.bind_some]
  rfl

/-- Two documents with one text are equal. -/
theorem write_injective {d e : Document} (h : write d = write e) : d = e := by
  have hread := read_write d
  rw [h, read_write] at hread
  exact (Option.some.inj hread).symm

end Json

end ScriptBundle

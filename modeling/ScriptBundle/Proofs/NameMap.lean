/-
# What a map from names holds

A map is its list of entries, and looking a name up walks over that list.  Since no name occurs
twice, what is found under a name and what stands among the entries are the same thing
(`get?_eq_some_iff`), and entries in any order make at most one map (`eq_of_perm`).  A search from
the front finds the least name that there is to be found (`findSome?_entries_eq_some_iff`).
-/
import Mathlib.Data.List.Forall2
import Mathlib.Data.List.Nodup
import Mathlib.Data.List.Sort
import ScriptBundle.NameMap

namespace ScriptBundle.NameMap

variable {α β : Type} {m n : NameMap α} {name : String} {a : α}

theorem names_nodup (m : NameMap α) : m.names.Nodup := by
  refine List.Pairwise.imp ?_ m.sorted
  rintro a b hlt rfl
  exact String.lt_irrefl a hlt

/-- The name of an entry tells which entry it is. -/
theorem eq_of_mem_entries {e e' : String × α} (h : e ∈ m.entries) (h' : e' ∈ m.entries)
    (hname : e.1 = e'.1) : e = e' :=
  List.inj_on_of_nodup_map m.names_nodup h h' hname

theorem get?_eq_some_iff : m.get? name = some a ↔ (name, a) ∈ m.entries := by
  constructor
  · intro h
    obtain ⟨before, after, hentries, -⟩ := List.lookup_eq_some_iff.mp h
    rw [hentries]
    exact List.mem_append_right _ List.mem_cons_self
  · intro h
    obtain ⟨b, hb⟩ := Option.isSome_iff_exists.mp
      (List.lookup_isSome_iff.mpr ⟨(name, a), h, beq_self_eq_true name⟩)
    obtain ⟨before, after, hentries, -⟩ := List.lookup_eq_some_iff.mp hb
    have hmem : (name, b) ∈ m.entries := by
      rw [hentries]
      exact List.mem_append_right _ List.mem_cons_self
    rw [get?, hb]
    exact congrArg (fun e => some e.2) (eq_of_mem_entries hmem h rfl)

theorem mem_names_iff : name ∈ m.names ↔ ∃ a, m.get? name = some a := by
  simp only [names, List.mem_map, get?_eq_some_iff]
  constructor
  · rintro ⟨⟨_, a⟩, h, rfl⟩
    exact ⟨a, h⟩
  · rintro ⟨a, h⟩
    exact ⟨(name, a), h, rfl⟩

theorem names_map {f : String → α → β} : (m.map f).names = m.names := by
  rw [map, names_withNames]

theorem get?_eq_none_iff : m.get? name = none ↔ name ∉ m.names := by
  rw [mem_names_iff, ← Option.isSome_iff_exists, Bool.not_eq_true, Option.isSome_eq_false_iff,
    Option.isNone_iff_eq_none]

theorem get?_map {f : String → α → β} : (m.map f).get? name = (m.get? name).map (f name) := by
  ext b
  rw [get?_eq_some_iff, Option.map_eq_some_iff]
  simp only [get?_eq_some_iff]
  constructor
  · intro h
    obtain ⟨⟨_, a⟩, hmem, heq⟩ := List.mem_map.mp h
    cases heq
    exact ⟨a, hmem, rfl⟩
  · rintro ⟨a, hmem, rfl⟩
    exact List.mem_map.mpr ⟨(name, a), hmem, rfl⟩

theorem contains_iff : m.contains name ↔ name ∈ m.names := by
  rw [contains, Option.isSome_iff_exists, mem_names_iff]

theorem mem_names_insert {name' : String} :
    name ∈ (m.insert name' a).names ↔ name = name' ∨ name ∈ m.names := by
  simp only [mem_names_iff, get?_insert]
  split <;> simp [*]

/-- **One order for one content.**  Two maps with the same entries in some order are equal. -/
theorem eq_of_perm (h : m.entries.Perm n.entries) : m = n := by
  have hm : m.entries.Pairwise fun e e' => e.1 < e'.1 := List.pairwise_map.mp m.sorted
  have hn : n.entries.Pairwise fun e e' => e.1 < e'.1 := List.pairwise_map.mp n.sorted
  refine ext (h.eq_of_pairwise ?_ hm hn)
  intro e e' _ _ hlt hgt
  exact absurd (String.lt_trans hlt hgt) (String.lt_irrefl _)

/-- Maps that have the same names have them in one order. -/
theorem names_eq_of_mem_iff {n : NameMap β} (h : ∀ name, name ∈ m.names ↔ name ∈ n.names) :
    m.names = n.names :=
  ((List.perm_ext_iff_of_nodup m.names_nodup n.names_nodup).mpr h).eq_of_pairwise
    (fun _ _ _ _ hlt hgt => absurd hgt (String.lt_asymm hlt)) m.sorted n.sorted

/-- Maps in which every name stands for the same are equal. -/
theorem ext_get? (h : ∀ name, m.get? name = n.get? name) : m = n := by
  have hnodup : ∀ l : NameMap α, l.entries.Nodup := fun l => .of_map _ l.names_nodup
  refine eq_of_perm ((List.perm_ext_iff_of_nodup (hnodup m) (hnodup n)).mpr ?_)
  rintro ⟨name, a⟩
  rw [← get?_eq_some_iff, ← get?_eq_some_iff, h name]

/-! ## 2. Finding the first -/

/-- A map has something for all names of a list if no name is found that it has nothing for. -/
theorem find?_unknown_eq_none_iff {names : List String} :
    names.find? (fun n => !m.contains n) = none ↔ ∀ n ∈ names, n ∈ m.names := by
  simp only [List.find?_eq_none, Bool.not_eq_true, Bool.not_eq_false', contains_iff]

/-- The first name of a list that a map has nothing for. -/
theorem find?_unknown_eq_some_iff {names : List String} :
    names.find? (fun n => !m.contains n) = some name ↔
      ∃ before after, names = before ++ name :: after ∧ (∀ n ∈ before, n ∈ m.names) ∧
        name ∉ m.names := by
  simp only [List.find?_eq_some_iff_append, Bool.not_not, Bool.not_eq_true',
    ← Bool.not_eq_true, contains_iff]
  constructor
  · rintro ⟨hname, before, after, hnames, hbefore⟩
    exact ⟨before, after, hnames, hbefore, hname⟩
  · rintro ⟨before, after, hnames, hbefore, hname⟩
    exact ⟨hname, before, after, hnames, hbefore⟩

/-- Among things in increasing order of their names, those before one are those of smaller names. -/
theorem mem_before_iff {γ : Type} {key : γ → String} {before after : List γ} {x y : γ}
    (hsorted : ((before ++ x :: after).map key).Pairwise (· < ·)) :
    y ∈ before ↔ y ∈ before ++ x :: after ∧ key y < key x := by
  obtain ⟨-, hrest, hbefore⟩ := List.pairwise_append.mp (List.pairwise_map.mp hsorted)
  constructor
  · intro hy
    exact ⟨List.mem_append_left _ hy, hbefore y hy x List.mem_cons_self⟩
  · rintro ⟨hy, hlt⟩
    rcases List.mem_append.mp hy with hy | hy
    · exact hy
    rcases List.mem_cons.mp hy with rfl | hy
    · exact absurd hlt (String.lt_irrefl _)
    · exact absurd hlt (String.lt_asymm ((List.pairwise_cons.mp hrest).1 y hy))

/-- What is found first among the names is the least. -/
theorem find?_names_eq_some_iff {q : String → Bool} : m.names.find? q = some name ↔
    name ∈ m.names ∧ q name ∧ ∀ n ∈ m.names, n < name → q n = false := by
  have hsorted : ∀ before after, m.names = before ++ name :: after →
      ((before ++ name :: after).map id).Pairwise (· < ·) := by
    intro before after hnames
    rw [List.map_id, ← hnames]
    exact m.sorted
  rw [List.find?_eq_some_iff_append]
  constructor
  · rintro ⟨hq, before, after, hnames, hbefore⟩
    refine ⟨hnames ▸ List.mem_append_right _ List.mem_cons_self, hq, fun n hn hlt => ?_⟩
    have hn' := (mem_before_iff (hsorted before after hnames)).mpr ⟨hnames ▸ hn, hlt⟩
    simpa using hbefore n hn'
  · rintro ⟨hname, hq, hleast⟩
    obtain ⟨before, after, hnames⟩ := List.append_of_mem hname
    refine ⟨hq, before, after, hnames, fun n hn => ?_⟩
    obtain ⟨hmem, hlt⟩ := (mem_before_iff (hsorted before after hnames)).mp hn
    simpa using hleast n (hnames ▸ hmem) hlt

/-- What is found first among the entries is found at the least name. -/
theorem findSome?_entries_eq_some_iff {f : String × α → Option β} {b : β} :
    m.entries.findSome? f = some b ↔
      ∃ name a, m.get? name = some a ∧ f (name, a) = some b ∧
        ∀ n c, m.get? n = some c → n < name → f (n, c) = none := by
  simp only [List.findSome?_eq_some_iff, get?_eq_some_iff]
  constructor
  · rintro ⟨before, ⟨name, a⟩, after, hentries, hfound, hbefore⟩
    refine ⟨name, a, hentries ▸ List.mem_append_right _ List.mem_cons_self, hfound, ?_⟩
    intro n c hc hlt
    exact hbefore (n, c) ((mem_before_iff (hentries ▸ m.sorted)).mpr ⟨hentries ▸ hc, hlt⟩)
  · rintro ⟨name, a, hmem, hfound, hleast⟩
    obtain ⟨before, after, hentries⟩ := List.append_of_mem hmem
    refine ⟨before, (name, a), after, hentries, hfound, fun e he => ?_⟩
    obtain ⟨hmem, hlt⟩ := (mem_before_iff (hentries ▸ m.sorted)).mp he
    exact hleast e.1 e.2 (hentries ▸ hmem) hlt

/-! ## 3. Maps of lists -/

theorem get?_foldl_insert {entries : List (String × α)}
    (hfun : ∀ b b', (name, b) ∈ entries → (name, b') ∈ entries → b = b') :
    (entries.foldl (fun m e => m.insert e.1 e.2) m).get? name = some a ↔
      (name, a) ∈ entries ∨ (∀ b, (name, b) ∉ entries) ∧ m.get? name = some a := by
  induction entries generalizing m with
  | nil => simp
  | cons e rest ih =>
    obtain ⟨first, b⟩ := e
    have hrest : ∀ b b', (name, b) ∈ rest → (name, b') ∈ rest → b = b' := fun b b' hb hb' =>
      hfun b b' (List.mem_cons_of_mem _ hb) (List.mem_cons_of_mem _ hb')
    rw [List.foldl_cons, ih hrest, get?_insert]
    by_cases heq : name = first
    · subst heq
      have hb : ∀ b', (name, b') ∈ rest → b = b' := fun b' hb' =>
        hfun b b' List.mem_cons_self (List.mem_cons_of_mem _ hb')
      rw [if_pos rfl]
      constructor
      · rintro (hmem | ⟨-, hb⟩)
        · exact .inl (List.mem_cons_of_mem _ hmem)
        · cases hb
          exact .inl List.mem_cons_self
      · rintro (hmem | ⟨hnone, -⟩)
        · rcases List.mem_cons.mp hmem with hmem | hmem
          · cases hmem
            by_cases hmem : (name, a) ∈ rest
            · exact .inl hmem
            · refine .inr ⟨fun b' hb' => hmem ?_, rfl⟩
              rwa [hb b' hb']
          · exact .inl hmem
        · exact absurd List.mem_cons_self (hnone b)
    · have hne : ∀ c, (name, c) ≠ (first, b) := fun c h => heq (congrArg Prod.fst h)
      simp only [if_neg heq, List.mem_cons, hne, false_or]

/-- **A list that gives each name one value** makes the map of these values, whatever its order and
however often it repeats itself. -/
theorem get?_ofList {entries : List (String × α)}
    (hfun : ∀ name b b', (name, b) ∈ entries → (name, b') ∈ entries → b = b') :
    (ofList entries).get? name = some a ↔ (name, a) ∈ entries := by
  rw [ofList, get?_foldl_insert (hfun name), get?_empty]
  simp

theorem ofList_eq_of_mem_iff {entries entries' : List (String × α)}
    (hfun : ∀ name b b', (name, b) ∈ entries → (name, b') ∈ entries → b = b')
    (h : ∀ e, e ∈ entries ↔ e ∈ entries') : ofList entries = ofList entries' := by
  have hfun' : ∀ name b b', (name, b) ∈ entries' → (name, b') ∈ entries' → b = b' :=
    fun name b b' hb hb' => hfun name b b' ((h _).mpr hb) ((h _).mpr hb')
  refine ext_get? fun name => Option.ext fun a => ?_
  rw [get?_ofList hfun, get?_ofList hfun', h]

/-- A map is made again of its own entries. -/
theorem ofList_entries (m : NameMap α) : ofList m.entries = m := by
  have hfun : ∀ name b b', (name, b) ∈ m.entries → (name, b') ∈ m.entries → b = b' :=
    fun name b b' hb hb' => congrArg Prod.snd (eq_of_mem_entries hb hb' rfl)
  refine ext_get? fun name => Option.ext fun a => ?_
  rw [get?_ofList hfun, get?_eq_some_iff]

/-! ## 4. Maps that are alike -/

/-- Two maps have the same names, and what a name stands for in one is related to what it stands
for in the other. -/
def Rel (r : α → β → Prop) (m : NameMap α) (n : NameMap β) : Prop :=
  List.Forall₂ (fun e e' => e.1 = e'.1 ∧ r e.2 e'.2) m.entries n.entries

namespace Rel

variable {γ : Type} {r : α → β → Prop} {m : NameMap α} {n : NameMap β} {b : β}

theorem names_eq (h : Rel r m n) : m.names = n.names := by
  unfold Rel at h
  rw [names, names]
  generalize m.entries = l, n.entries = l' at h ⊢
  induction h with
  | nil => rfl
  | cons he _ ih => rw [List.map_cons, List.map_cons, he.1, ih]

theorem symm (h : Rel r m n) : Rel (fun b a => r a b) n m :=
  (List.Forall₂.flip h).imp fun _ _ ⟨hname, hr⟩ => ⟨hname.symm, hr⟩

theorem refl {r : α → α → Prop} (hr : ∀ a, r a a) (m : NameMap α) : Rel r m m :=
  List.forall₂_same.mpr fun e _ => ⟨rfl, hr e.2⟩

theorem get? (h : Rel r m n) (hname : m.get? name = some a) :
    ∃ b, n.get? name = some b ∧ r a b := by
  unfold Rel at h
  simp only [get?_eq_some_iff] at hname ⊢
  generalize m.entries = l, n.entries = l' at h hname ⊢
  induction h with
  | nil => cases hname
  | @cons e e' l l' he _ ih =>
    rcases List.mem_cons.mp hname with rfl | hname
    · obtain ⟨hname, hr⟩ := he
      obtain ⟨name', b⟩ := e'
      cases hname
      exact ⟨b, List.mem_cons_self, hr⟩
    · obtain ⟨b, hb, hr⟩ := ih hname
      exact ⟨b, List.mem_cons_of_mem _ hb, hr⟩

theorem empty (r : α → β → Prop) : Rel r .empty .empty := .nil

/-- Maps that are alike are alike in any way that what they hold under a name is. -/
theorem imp_of_get? {r' : α → β → Prop} (h : Rel r m n)
    (himp : ∀ name a b, m.get? name = some a → n.get? name = some b → r a b → r' a b) :
    Rel r' m n := by
  unfold Rel at h ⊢
  simp only [get?_eq_some_iff] at himp
  generalize m.entries = l, n.entries = l' at h himp ⊢
  induction h with
  | nil => exact .nil
  | @cons e e' l l' he _ ih =>
    obtain ⟨name, a⟩ := e
    obtain ⟨name', b⟩ := e'
    obtain ⟨rfl, hr⟩ := he
    refine .cons ⟨rfl, himp name a b List.mem_cons_self List.mem_cons_self hr⟩ ?_
    exact ih fun n a b ha hb => himp n a b (List.mem_cons_of_mem _ ha) (List.mem_cons_of_mem _ hb)

theorem insert (h : Rel r m n) (hr : r a b) : Rel r (m.insert name a) (n.insert name b) := by
  unfold Rel at h ⊢
  change List.Forall₂ _ (insertInto name a m.entries) (insertInto name b n.entries)
  generalize m.entries = l, n.entries = l' at h ⊢
  induction h with
  | nil => exact .cons ⟨rfl, hr⟩ .nil
  | @cons e e' l l' he hrest ih =>
    rw [insertInto, insertInto, ← he.1]
    split
    · exact .cons ⟨rfl, hr⟩ (.cons he hrest)
    split
    · exact .cons ⟨rfl, hr⟩ hrest
    · exact .cons he ih

/-- What does not depend on how the maps differ is the same over both. -/
theorem map_entries_eq {f : String × α → γ} {g : String × β → γ} (h : Rel r m n)
    (hfg : ∀ name a b, r a b → f (name, a) = g (name, b)) :
    m.entries.map f = n.entries.map g := by
  unfold Rel at h
  generalize m.entries = l, n.entries = l' at h ⊢
  induction h with
  | nil => rfl
  | @cons e e' l l' he _ ih =>
    obtain ⟨name, a⟩ := e
    obtain ⟨name', b⟩ := e'
    obtain ⟨rfl, hr⟩ := he
    rw [List.map_cons, List.map_cons, hfg name a b hr, ih]

theorem map_eq {f : String → α → γ} {g : String → β → γ} (h : Rel r m n)
    (hfg : ∀ name a b, r a b → f name a = g name b) : m.map f = n.map g :=
  ext (h.map_entries_eq fun name a b hr => congrArg (name, ·) (hfg name a b hr))

end Rel

end ScriptBundle.NameMap
